import Fs123.Core.IStream
import Fs123.Client.Reply123
import Fs123.Codec.ContentCodec
import Fs123.Core.HttpHeaders

/-!
# From an http response to a reply

The model of `curl_handler` in `backend123_http.cpp`, from the header lines that curl delivers to the
`reply123` that `getreply` fills in. Seconds in headers become nanoseconds in replies.
-/

namespace Fs123

open Cxx

/-- An http response: the status, the header lines as names and values, and the body. -/
structure HttpResponse where
  httpCode : ℤ
  headers : List (Bytes × Bytes)
  content : Bytes
  deriving Repr, DecidableEq

/-- `httpthrow` on the client. The text of the status is left out of `what`. -/
def httpFailure {α : Type} (code : ℤ) (msg : Bytes) : Res α := throwE (.systemError .http code) msg

/-- `se(eno, msg)` on the client. The text of the errno is left out of `what`. -/
def sysFailure {α : Type} (eno : ℤ) (msg : Bytes) : Res α := throwE (.systemError .system eno) msg

/-- `std::throw_with_nested(std::runtime_error(what))` in the `catch` around a member. -/
def renest {α : Type} (what : Bytes) (x : Res α) : Res α :=
  catchE x fun e => .error (.throws (e.nest .runtimeError what))

/-- The value that `recv_hdr` keeps: without the optional whitespace around it. -/
def trimOws (val : Bytes) : Bytes :=
  ((val.dropWhile fun c => c = ch ' ' || c = ch '\t').reverse.dropWhile
    fun c => c = ch ' ' || c = ch '\t').reverse

namespace HttpResponse

variable (resp : HttpResponse)

/-- `hdrmap.find(key)`: keys are in lower case, and the last line of a name is kept. -/
def hdr (key : Bytes) : Option Bytes :=
  (resp.headers.reverse.find? fun h => lower h.1 = key).map fun h => trimOws h.2

/-- `get_age()`. -/
def getAge : Res ℤ :=
  renest (bytes "get_age")
    (match resp.hdr (bytes "age") with
    | none => .ok 0
    | some val => do
      let age ← svtoU 64 val
      .ok (toSsize age))

/-- `get_etag64()`. -/
def getEtag64 : Res ℕ :=
  match resp.hdr (bytes "etag") with
  | none => .ok 0
  | some val => catchE (parseQuotedEtag val) fun _ => .ok 0

end HttpResponse

/-- The loop of `get_key_from_string`: what follows the first `key` that begins the text or comes after a
comma or a space. `prev` is the character before the rest of the text. -/
def findKey (key : Bytes) : Option UInt8 → Bytes → Option Bytes
  | _, [] => none
  | prev, c :: rest =>
    if key <+: c :: rest then
      if (c :: rest).length ≤ key.length then none
      else if prev.all fun p => p = ch ',' || isspace p then some ((c :: rest).drop key.length)
      else findKey key (some c) rest
    else findKey key (some c) rest

/-- `get_key_from_string(s, key)`. -/
def getKeyFromString (s key : Bytes) : Bytes :=
  match findKey key none s with
  | none => []
  | some val => val.takeWhile fun c => c ≠ ch ',' && c ≠ ch ' '

namespace HttpResponse

variable (resp : HttpResponse)

/-- `get_max_age()`. -/
def getMaxAge : Res ℤ :=
  renest (bytes "get_max_age")
    (match resp.hdr (bytes "cache-control") with
    | none => sysFailure 71 (bytes "No Cache-control header.  Something is wrong")
    | some val =>
      let s := getKeyFromString val (bytes "max-age=")
      if s = [] then .ok 0 else svtoS 64 s)

/-- `get_stale_while_revalidate()`. -/
def getStaleWhileRevalidate : Res ℤ :=
  renest (bytes "get_stale_while_revalidate")
    (match resp.hdr (bytes "cache-control") with
    | none => .ok 0
    | some val =>
      let s := getKeyFromString val (bytes "stale-while-revalidate=")
      if s = [] then .ok 0 else svtoS 64 s)

end HttpResponse

namespace Reply123

/-- `set_times(age, max_age, stale_while_reval)`, at the clock reading `now`. -/
def setTimes (r : Reply123) (now age maxAge swr : ℤ) : Res Reply123 :=
  if r.valid then
    .ok { r with
      lastRefresh := now - age * second
      expires := now - age * second + maxAge * second
      staleWhileRevalidate := swr * second }
  else sysFailure 22 (bytes "cannot set_times an invalid backend123")

/-- The constructor for a 7.2 response. -/
def ofResponse72 (now eno72 : ℤ) (esc : ℕ) (content : Bytes) (ce age maxAge : ℤ) (et64 : ℕ) (swr : ℤ) :
    Res Reply123 :=
  if eno72 ≠ 0 ∧ esc ≠ 0 then
    sysFailure 22 (bytes "reply123 constructor with eno72!=0 && estale_cookie!=0.  This can't happen")
  else
    { miss with
      eno72 := eno72
      etag64 := et64
      estaleCookie72 := esc
      contentEncoding := ce
      contentThreeroe := hexdigest content
      content := content }.setTimes now age maxAge swr

/-- The constructor for a response from 7.3 on. -/
def ofResponse73 (now : ℤ) (content : Bytes) (ce age maxAge : ℤ) (et64 : ℕ) (swr : ℤ) : Res Reply123 :=
  { miss with
    eno72 := 0
    etag64 := et64
    contentEncoding := ce
    contentThreeroe := hexdigest content
    content := content }.setTimes now age maxAge swr

end Reply123

namespace HttpResponse

variable (resp : HttpResponse)

/-- The check of the `HHTRSUM` header. -/
def checkTrsum (r : Reply123) : Res Unit :=
  match resp.hdr hhTrsum with
  | none => .ok ()
  | some val =>
    if (findStr r.contentThreeroe val).isSome then .ok ()
    else sysFailure 22 (bytes "threeroe mismatch.  threeroe(received content)=" ++ r.contentThreeroe
      ++ bytes ", fs123-trsum: " ++ val)

/-- The `HHNO` header of a 7.2 response: the next offset and what follows it. -/
def readNextoffset (r : Reply123) : Res Reply123 :=
  match resp.hdr hhNo with
  | none => .ok r
  | some val => do
    let (offset, pos) ← scanintS 64 0 true val 0
    let words := cstr ((val.drop pos).dropWhile isspace)
    if words = [] then .ok { r with chunkNextOffset72 := offset, chunkNextMeta72 := cnoNotEof }
    else if bytes "EOF" <+: words then
      .ok { r with chunkNextOffset72 := offset, chunkNextMeta72 := cnoEof }
    else sysFailure 71 (bytes "Unrecognized words in fs123-nextoffset header:" ++ val)

/-- The errno of a 7.2 response. -/
def getErrno72 : Res ℤ :=
  match resp.hdr hhErrno with
  | none => sysFailure 22 (bytes "No key matching fs123-errno in header, need errno")
  | some val => svtoS 32 val

/-- The estale cookie of a 7.2 response. -/
def getCookie72 : Res ℕ :=
  match resp.hdr hhCookie with
  | none => .ok 0
  | some val => svtoU 64 val

/-- The branch of `getreply` for a new content. -/
def getreply200 (protoMinor : ℕ) (now age maxAge swr : ℤ) : Res Reply123 :=
  let ce := encodingStoi ((resp.hdr (bytes "content-encoding")).getD [])
  if protoMinor < 3 then do
    let eno72 ← resp.getErrno72
    let et64 ← resp.getEtag64
    let esc ← resp.getCookie72
    let r ← Reply123.ofResponse72 now eno72 esc resp.content ce age maxAge et64 swr
    resp.checkTrsum r
    if eno72 ≠ 0 then .ok r else resp.readNextoffset r
  else do
    let et64 ← resp.getEtag64
    let _ ← resp.getCookie72
    let r ← Reply123.ofResponse73 now resp.content ce age maxAge et64 swr
    resp.checkTrsum r
    .ok r

/-- `getreply(replyp)`, at the clock reading `now`: the new reply, and whether its content has changed. -/
def getreply (protoMinor : ℕ) (now : ℤ) (replyp : Reply123) : Res (Reply123 × Bool) :=
  if ¬ (resp.httpCode = 200 ∨ resp.httpCode = 304) then
    httpFailure resp.httpCode (bytes "<curlhandler::getreply>:\n" ++ resp.content
      ++ bytes "</curlhandler::getreply>\nunexpected HTTP status")
  else do
    let age ← resp.getAge
    let maxAge ← resp.getMaxAge
    let swr ← resp.getStaleWhileRevalidate
    if resp.httpCode = 304 then
      .ok ({ replyp with
        lastRefresh := now - age * second
        expires := now - age * second + maxAge * second
        staleWhileRevalidate := swr * second }, false)
    else do
      let r ← resp.getreply200 protoMinor now age maxAge swr
      .ok (r, true)

end HttpResponse

/-- The `If-None-Match` header of a request for a reply that is held: `backend123_http::refresh` sends one
for a valid reply with an etag, unless the request is `no_cache`. -/
def ifNoneMatch (replyp : Reply123) (noCache : Bool) : Option Bytes :=
  if replyp.valid ∧ noCache = false ∧ replyp.etag64 ≠ 0 then
    some ([ch '"'] ++ decimal replyp.etag64 ++ [ch '"'])
  else none

end Fs123
