import Fs123.Client.BegetDecode
import Fs123.Client.Requests
import Fs123.Mount.AttrCache
import Fs123.Mount.Inomap

/-!
# Asking the backend

The model of `cookie_mismatch`, `beget` and `begetchunk_file`. The replies that `beget_decode` returns or
throws are those of a backend that is not restricted: it may answer every request anew.
-/

namespace Fs123

open Cxx

/-- `req123`, known by the arguments of its builder. -/
structure Req123 where
  request : Request
  maxStale : Option ℤ
  noCache : Bool
  deriving Repr, DecidableEq

/-- What the operations call in other parts of the program, in the order of the calls. -/
inductive Notice where
  /-- `lowlevel_notify_inval_entry_detached(pino, name)`. -/
  | invalEntry (pino : Ino) (name : Bytes)
  /-- `lowlevel_notify_inval_inode_detached(ino, 0, 0)`. -/
  | invalInode (ino : Ino)
  /-- `openfile_expire_now(ino, fh)`. -/
  | expireNow (ino : Ino) (fh : ℕ)
  deriving Repr, DecidableEq

/-- The configuration of the mounted client, and what is around it. -/
structure World where
  cfg : ReqConfig
  client : Client
  /-- `Fs123Chunk`, in KiB. -/
  chunk : ℕ
  ignoreEstaleMismatch : Bool
  /-- What `beget_decode` returns or throws on the `n`th request to the backend. -/
  answer : ℕ → Req123 → Res DecodedReply
  /-- The same for the `be->refresh` in `beflush`. -/
  flush : ℕ → Req123 → Res Unit
  /-- The text behind the handle of a special inode. -/
  specialText : ℕ → Bytes
  /-- The room on the stack for `_fullname`. -/
  stack : ℕ

/-- The state of the mounted client. `rootCookie` is the static variable of `cookie_mismatch`, and `asked`
counts the requests to the backend. -/
structure MountState where
  inomap : Inomap
  attrcache : ExpiringCache
  rootCookie : Option ℕ
  asked : ℕ
  notices : List Notice

/-- The operations of the mounted client. An exception leaves the state as it is at the `throw`. -/
abbrev MountM (α : Type) := EStateM Fault MountState α

namespace MountM

/-- A function that changes nothing. -/
def ofRes {α : Type} (x : MountState → Res α) : MountM α := fun s =>
  match x s with
  | .ok a => .ok a s
  | .error f => .error f s

/-- Call something in another part of the program. -/
def notify (n : Notice) : MountM Unit := fun s => .ok () { s with notices := s.notices ++ [n] }

end MountM

open MountM

/-- `attrcache_key(pino, lastcomponent)`. -/
def attrcacheKey (pino : Ino) (lastcomponent : Bytes) : AttrKey :=
  (threeroe lastcomponent (.ofNat pino) 0).1.toNat

namespace World

variable (w : World)

/-- `beget_decode(req)`. -/
def begetDecode (req : Req123) : MountM DecodedReply := fun s =>
  match w.answer s.asked req with
  | .ok reply => .ok reply { s with asked := s.asked + 1 }
  | .error f => .error f { s with asked := s.asked + 1 }

/-- `encrypt_request(req)`: the stem that is sent. -/
def encryptRequest (req : Req123) : MountM Bytes :=
  ofRes fun _ => w.client.encryptRequest (w.cfg.urlstem req.request)

/-- `fullname(pino, lastcomponent)`. -/
def fullname (pino : Ino) (lastcomponent : Bytes) : MountM Bytes :=
  ofRes fun s =>
    if lastcomponent = [] then .ok []
    else do
      let dir ← s.inomap.inoToFullname w.stack pino
      .ok (dir ++ ch '/' :: lastcomponent)

/-- `cookie_mismatch(ino, estale_cookie)`. -/
def cookieMismatch (ino : Ino) (estaleCookie : ℕ) : MountM Bool := fun s =>
  if ino = 0 then .ok false s
  else if w.ignoreEstaleMismatch then .ok false s
  else if ino = 1 then
    -- The cookie is stashed the first time that the root is seen.
    let cookie := s.rootCookie.getD estaleCookie
    .ok (cookie ≠ estaleCookie) { s with rootCookie := some cookie }
  else if ino ≤ maxSpecialIno then .ok false s
  else
    match s.inomap.inoToPinoName ino with
    | .error f => .error f s
    | .ok (pino, name) => .ok (ino ≠ genino estaleCookie pino name) s

/-- The condition of `beget`: `reply.eno==0 && check_cookie && cookie_mismatch(ino, reply.estale_cookie())`. -/
def mismatches (ino : Ino) (checkCookie : Bool) (reply : DecodedReply) : MountM Bool := do
  if reply.dec.eno = 0 ∧ checkCookie then
    let cookie ← ofRes fun _ => reply.dec.estaleCookie
    w.cookieMismatch ino cookie
  else
    return false

/-- `beflush(pino, lastcomponent)`. -/
def beflush (pino : Ino) (lastcomponent : Bytes) : MountM Unit := do
  modify fun s => { s with attrcache := s.attrcache.erase (attrcacheKey pino lastcomponent) }
  let name ← w.fullname pino lastcomponent
  let req := ⟨.attr name, none, true⟩
  let _ ← w.encryptRequest req
  fun s =>
    match w.flush s.asked req with
    | .ok () => .ok () { s with asked := s.asked + 1 }
    | .error f => .error f { s with asked := s.asked + 1 }

/-- The end of `beget`, when the cookie does not match without caching either. -/
def throwEstale {α : Type} (ino : Ino) (urlstem : Bytes) (reply : DecodedReply) : MountM α := do
  let (pino, name) ← ofRes fun s => s.inomap.inoToPinoName ino
  notify (.invalEntry pino name)
  w.beflush pino name
  let cookie ← ofRes fun _ => reply.dec.estaleCookie
  throw (.throws ⟨⟨.systemError .system 116, bytes "estale detected in befresh:  req.urlstem: " ++ urlstem
    ++ bytes " reply.estale_cookie: " ++ decimal cookie⟩, []⟩)

/-- `beget(ino, req, check_cookie)`. -/
def beget (ino : Ino) (req : Req123) (checkCookie : Bool) : MountM DecodedReply := do
  let urlstem ← w.encryptRequest req
  let reply ← w.begetDecode req
  if ← w.mismatches ino checkCookie reply then
    let reply ← w.begetDecode { req with noCache := true }
    if ← w.mismatches ino checkCookie reply then
      w.throwEstale ino urlstem reply
    else
      return reply
  else
    return reply

/-- `begetchunk_file(ino, startkib, no_cache)`. -/
def begetchunkFile (ino : Ino) (startkib : ℤ) (noCache : Bool) : MountM DecodedReply := do
  let name ← ofRes fun s => s.inomap.inoToFullname w.stack ino
  w.beget ino ⟨.file name w.chunk startkib, none, noCache⟩ true

end World

end Fs123
