import Fs123.Server.Req

/-!
# The reply members

The `xxx_reply` members of `fs123p7::req` and the directory buffer that `d_reply` sends. Every member is
one `try` block whose handler calls `internal_exception`; the definitions below are the blocks, and
`HandlerReply.send` puts the handler around them.
-/

namespace Fs123

open Cxx

namespace Req

variable (svr : Server) (nonce : Bytes)

/-- `errno_reply(eno, cc)`. -/
def errnoReply (r : Req) (eno : ℤ) (cc : Bytes) : Res Sent :=
  if 3 ≤ r.protoMinor then (r.addKv keyErrno (decimalInt eno)).commonReply200 svr nonce cc 0
  else do
    let r ← r.addHdr svr.ev hhErrno (decimalInt eno)
    r.commonReply200 svr nonce cc 0

/-- `not_modified_reply(cc)`. -/
def notModifiedReply (r : Req) (cc : Bytes) : Res Sent := do
  if r.inm = [] then
    httpthrow 500 (bytes "handler called not_modified_reply but there is no If-None-Match header")
  else
    let r ← r.addHdr svr.ev (bytes "ETag") r.inm
    let r ← r.addHdr svr.ev (bytes "Cache-control") cc
    .ok ⟨304, r.ohdrs, []⟩

/-- `a_reply(sb, validator, esc, cc)`. -/
def aReply (r : Req) (sb : Stat) (validator esc : ℕ) (cc : Bytes) : Res Sent := do
  r.expectFunction (bytes "a") (bytes "a_reply")
  if 3 ≤ r.protoMinor then
    let r := (r.addKv keyCookie (decimal esc)).addKv keyValidator (decimal validator)
    let r ← r.copyToPbuf sb.text
    r.commonReply200 svr nonce cc 0
  else
    let r ← r.addHdr svr.ev hhCookie (decimal esc)
    let r ← r.copyToPbuf (sb.text ++ [ch '\n'] ++ decimal validator)
    r.commonReply200 svr nonce cc 0

/-- `add_dirent(name, type, estale_cookie)`: the request with one more entry, and whether there was room
for it. -/
def addDirent (r : Req) (name : Bytes) (type : ℤ) (estaleCookie : ℕ) : Res (Req × Bool) :=
  if r.function ≠ bytes "d" then
    httpthrow 500 (bytes "handler called add_dirent while handling " ++ r.function
      ++ bytes " request")
  else if name.length > 255 then throwSe 36 (bytes "dirbuf::add")
  else if name.length = 0 then throwSe 22 (bytes "dirbuf::add:  zero-length name")
  else do
    let entry := netstring name ++ [ch ' '] ++ decimalInt type ++ [ch ' '] ++ decimal estaleCookie
      ++ [ch '\n']
    let avail ← r.bufContentAvailBack
    if entry.length > avail then .ok (r, false)
    else do
      let r ← r.append entry
      .ok (r, true)

/-- The `HHNO` header of a 7.2 directory reply. -/
def addNextoffset (r : Req) (nextstart : Bytes) : Res Req :=
  if nextstart = [] then r.addHdr svr.ev hhNo (bytes "0 EOF")
  else do
    let _ ← catchE (svtoU 64 nextstart) fun e => .error (.throws ⟨httpException 500
      (bytes "non-numeric nextstart (" ++ nextstart ++ bytes ") in reply to /7/2/d request"),
      e.layers⟩)
    r.addHdr svr.ev hhNo nextstart

/-- `d_reply(nextstart, etag64, esc, cc)`. -/
def dReply (r : Req) (nextstart : Bytes) (etag64 esc : ℕ) (cc : Bytes) : Res Sent := do
  r.expectFunction (bytes "d") (bytes "d_reply")
  if r.buf.size = 0 ∧ nextstart ≠ [] then
    httpthrow 500 (bytes "empty dirents and not EOF.  Something is wrong")
  else if 3 ≤ r.protoMinor then
    let r := (r.addKv keyCookie (decimal esc)).addKv keyNextstart nextstart
    r.commonReply200 svr nonce cc etag64
  else
    let r ← r.addHdr svr.ev hhCookie (decimal esc)
    let r ← r.addNextoffset svr nextstart
    r.commonReply200 svr nonce cc etag64

/-- The handler's writes into the buffer it was given. -/
def fill (r : Req) (written : Bytes) : Req :=
  { r with blob := r.blob.map fun mem => writeAt mem r.buf.data written }

/-- `f_reply(nread, content_validator, etag64, esc, cc)`. -/
def fReply (r : Req) (nread validator etag64 esc : ℕ) (cc : Bytes) : Res Sent := do
  r.expectFunction (bytes "f") (bytes "f_reply")
  if nread > r.requestedLen then
    httpthrow 500 (bytes "f_reply called with nread > requested number of bytes")
  else
    let buf ← r.buf.growBack nread
    let r := { r with buf := buf }
    if 3 ≤ r.protoMinor then
      let r := (r.addKv keyCookie (decimal esc)).addKv keyValidator (decimal validator)
      r.commonReply200 svr nonce cc etag64
    else
      let r ← r.addHdr svr.ev hhCookie (decimal esc)
      let r ← r.prepend (netstring (decimal validator))
      r.commonReply200 svr nonce cc etag64

/-- The members that only copy a content: `l_reply`, `s_reply`, `x_reply` and `n_reply`. -/
def copyReply (r : Req) (f name content cc : Bytes) : Res Sent := do
  r.expectFunction f name
  let r ← r.copyToPbuf content
  r.commonReply200 svr nonce cc 0

/-- `l_reply(target, cc)`. -/
def lReply (r : Req) (target cc : Bytes) : Res Sent :=
  r.copyReply svr nonce (bytes "l") (bytes "l_reply") target cc

/-- `s_reply(sv, cc)`. -/
def sReply (r : Req) (sv : Statvfs) (cc : Bytes) : Res Sent :=
  r.copyReply svr nonce (bytes "s") (bytes "s_reply") sv.text cc

/-- `x_reply(xattr, cc)`. -/
def xReply (r : Req) (xattr cc : Bytes) : Res Sent :=
  r.copyReply svr nonce (bytes "x") (bytes "x_reply") xattr cc

/-- `n_reply(body, cc)`. -/
def nReply (r : Req) (body cc : Bytes) : Res Sent :=
  r.copyReply svr nonce (bytes "n") (bytes "n_reply") (body ++ svr.serverStats) cc

/-- `p_reply(body, etag64, cc)`: just the body, no key/value pairs. -/
def pReply (r : Req) (body : Bytes) (etag64 : ℕ) (cc : Bytes) : Res Sent := do
  r.expectFunction (bytes "p") (bytes "p_reply")
  let r ← r.copyToPbuf body
  r.encryptAndSend200 svr nonce cc etag64

end Req

/-- A handler's 200 reply: the member that it calls and the arguments. An `f` reply carries the bytes
that the handler has written into the request's buffer. -/
inductive HandlerReply where
  | a (sb : Stat) (validator esc : ℕ)
  | d (nextstart : Bytes) (etag64 esc : ℕ)
  | f (written : Bytes) (validator etag64 esc : ℕ)
  | l (target : Bytes)
  | s (sv : Statvfs)
  | x (xattr : Bytes)
  | n (body : Bytes)
  | p (body : Bytes) (etag64 : ℕ)
  | errno (eno : ℤ)

/-- The `try` block of the reply member. -/
def HandlerReply.build (rep : HandlerReply) (svr : Server) (nonce : Bytes) (r : Req) (cc : Bytes) :
    Res Sent :=
  match rep with
  | .a sb validator esc => r.aReply svr nonce sb validator esc cc
  | .d nextstart etag64 esc => r.dReply svr nonce nextstart etag64 esc cc
  | .f written validator etag64 esc =>
    (r.fill written).fReply svr nonce written.length validator etag64 esc cc
  | .l target => r.lReply svr nonce target cc
  | .s sv => r.sReply svr nonce sv cc
  | .x xattr => r.xReply svr nonce xattr cc
  | .n body => r.nReply svr nonce body cc
  | .p body etag64 => r.pReply svr nonce body etag64 cc
  | .errno eno => r.errnoReply svr nonce eno cc

/-- The call of the reply member: an exception becomes an error reply. -/
def HandlerReply.send (rep : HandlerReply) (svr : Server) (nonce : Bytes) (r : Req) (cc : Bytes) :
    Res Sent :=
  catchInternal (rep.build svr nonce r cc)

end Fs123
