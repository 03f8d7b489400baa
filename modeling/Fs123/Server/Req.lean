import Fs123.Codec.ContentCodec
import Fs123.Core.HttpHeaders
import Fs123.Core.Stat
import Fs123.Core.Threeroe
import Fs123.Server.Libevent

/-!
# Requests and replies of the server

The model of `fs123p7::req` from the moment its fields are parsed: the reply buffer that it carries, and
the `xxx_reply` members that turn it into an http reply. A reply is built in place: the content lies in
the middle of a blob, and key/value pairs, the netstring framing and the secretbox header are prepended
to it.

`Server` collects what the members read of the server: its secret manager, the libraries, and the text of
its statistics.
-/

namespace Fs123

open Cxx

/-- `method_e`. -/
inductive Method where
  | GET | POST | HEAD | PUT | DELETE | OPTIONS | TRACE | CONNECT | PATCH
  deriving Repr, DecidableEq

/-- What a request reads of the server that it came to. -/
structure Server where
  na : Sodium
  ev : Evhttp
  secretManager : Option SecretManager
  acceptPlaintextRequests : Bool
  serverStats : Bytes

/-- `max_reply_size`. -/
def maxReplySize : ℕ := 1025 * 1024

/-- `secretbox_padding`. -/
def secretboxPadding : ℕ := 32

/-- `secretbox_leadersz`: `sizeof(fs123_secretbox_header) + crypto_secretbox_MACBYTES`. -/
def secretboxLeadersz : ℕ := 284 + secretboxMacbytes

/-- `fs123_max_headersz`. -/
def maxHeadersz : ℕ := 1024

/-- `final_netstring_bytes`. -/
def finalNetstringBytes : ℕ := 2

/-- The fields of `fs123p7::req` that parsing sets and replying reads. -/
structure Req where
  function : Bytes
  pathInfo : Bytes
  query : Bytes
  protoMinor : ℤ
  method : Method
  acceptEncoding : ℤ
  requestedLen : ℕ
  envelopeSid : Bytes
  inm : Bytes
  blob : Option Bytes
  buf : PaddedUcharSpan
  kvpairs : List (Bytes × Bytes)
  ohdrs : List (Bytes × Bytes)
  deriving Repr, DecidableEq

/-- An http reply as it leaves `log_and_send_destructively`. -/
structure Sent where
  status : ℤ
  headers : List (Bytes × Bytes)
  body : Bytes
  deriving Repr, DecidableEq

/-- `se(eno, msg)`. The text of the errno is left out of `what`. -/
def throwSe {α : Type} (eno : ℤ) (msg : Bytes) : Res α := throwE (.systemError .system eno) msg

/-- The messages of `http_error_category`. -/
def httpMessage (status : ℤ) : Bytes :=
  match status with
  | 200 => bytes "OK"
  | 400 => bytes "400 Bad Request"
  | 402 => bytes "402 Payment Required"
  | 403 => bytes "403 Forbidden"
  | 404 => bytes "404 Not Found"
  | 405 => bytes "405 Method Not Allowed"
  | 406 => bytes "406 Not Acceptable"
  | 407 => bytes "407 Proxy Authentication Required"
  | 408 => bytes "408 Request Timeout"
  | 409 => bytes "409 Conflict"
  | 410 => bytes "410 Gone"
  | 411 => bytes "411 Length Required"
  | 412 => bytes "412 Precondition Failed"
  | 413 => bytes "413 Request Entity Too Large"
  | 414 => bytes "414 Request-URI Too Long"
  | 415 => bytes "415 Unsupported Media Type"
  | 416 => bytes "416 Requested Range Not Satisfiable"
  | 417 => bytes "417 Expectation Failed"
  | 500 => bytes "500 Internal Service Error"
  | 501 => bytes "501 Not Implemented"
  | 502 => bytes "502 Bad Gateway"
  | 503 => bytes "503 Service Unavailable"
  | 504 => bytes "504 Gateway Timeout"
  | 505 => bytes "505 HTTP Version Not Supported"
  | _ => decimalInt status ++ bytes " Unknown HTTP error"

/-- `http_exception(status, msg)`: its `what()` is the message and the text of the status. -/
def httpException (status : ℤ) (msg : Bytes) : Layer :=
  ⟨.systemError .http status, msg ++ bytes ": " ++ httpMessage status⟩

/-- `httpthrow(status, msg)`. -/
def httpthrow {α : Type} (status : ℤ) (msg : Bytes) : Res α :=
  .error (.throws ⟨httpException status msg, []⟩)

/-- `http_status_from_evnest`: the innermost system error decides. -/
def httpStatusFromEvnest (e : Exn) : ℤ :=
  match e.layers.reverse.findSome? fun l =>
    match l.kind with
    | .systemError .http code => some code
    | .systemError .system _ => some 500
    | _ => none with
  | some status => status
  | none => 500

/-- `exception_reply(e)`: earlier headers and content are dropped, and the `what()` texts are sent. -/
def exceptionReply (e : Exn) : Sent :=
  ⟨httpStatusFromEvnest e, [], e.layers.flatMap fun l => l.what ++ [ch '\n']⟩

/-- The `catch` of every `xxx_reply`: `internal_exception`. -/
def catchInternal (x : Res Sent) : Res Sent :=
  catchE x fun e => .ok (exceptionReply e)

/-- A string that the code concatenates: beyond `max_size()` the concatenation throws. -/
def stdString (s : Bytes) : Res Bytes :=
  if s.length < 2 ^ 63 then .ok s else throwE .lengthError (bytes "basic_string::append")

namespace Req

/-- `add_hdr`. -/
def addHdr (r : Req) (ev : Evhttp) (name value : Bytes) : Res Req :=
  if ev.headerOk name (cstr value) then .ok { r with ohdrs := r.ohdrs ++ [(name, cstr value)] }
  else throwSe 22 (bytes "evhttp_add_header(" ++ name ++ bytes ", " ++ cstr value
    ++ bytes ") returned non-zero")

/-- A call of `add_hdr` under an `if`. -/
def addHdrIf (r : Req) (ev : Evhttp) (cond : Bool) (name value : Bytes) : Res Req :=
  if cond then r.addHdr ev name value else .ok r

/-- `may_use_secrets()`. -/
def mayUseSecrets (r : Req) (svr : Server) : Bool :=
  svr.secretManager.isSome && r.function ≠ bytes "p"

/-- `allocate_pbuf(sz)`. The new blob is not initialised; its bytes are never sent before they are
written. -/
def allocatePbuf (r : Req) (sz : ℕ) : Res Req :=
  if r.blob.isSome then
    throwE .logicError (bytes "allocate_pbuf called twice.  Definitely a logic error")
  else if sz > maxReplySize then
    throwE .runtimeError (bytes "allocate_pbuf too large: " ++ decimal sz ++ bytes " > "
      ++ decimal maxReplySize)
  else do
    let len := secretboxLeadersz + maxHeadersz + sz + secretboxPadding + finalNetstringBytes
    let buf ← PaddedUcharSpan.ofSpan 0 len (secretboxLeadersz + maxHeadersz) 0
    .ok { r with blob := some (zeros len), buf := buf }

/-- `buf = buf.prepend(more)`, for a `more` that is built as a `std::string`. -/
def prepend (r : Req) (more : Bytes) : Res Req := do
  let more ← stdString more
  let (buf, mem) ← r.buf.prepend more (r.blob.getD [])
  .ok { r with buf := buf, blob := some mem }

/-- `buf = buf.append(more)`. -/
def append (r : Req) (more : Bytes) : Res Req := do
  let more ← stdString more
  let (buf, mem) ← r.buf.append more (r.blob.getD [])
  .ok { r with buf := buf, blob := some mem }

/-- `copy_to_pbuf(s)`. -/
def copyToPbuf (r : Req) (s : Bytes) : Res Req := do
  let r ← r.allocatePbuf s.length
  r.append s

/-- `buf_content_avail_back()`. -/
def bufContentAvailBack (r : Req) : Res ℕ :=
  if r.buf.availBack < secretboxPadding + finalNetstringBytes then
    throwE .outOfRange (bytes "req::buf_content_avail_back: negative available space")
  else .ok (r.buf.availBack - secretboxPadding - finalNetstringBytes)

/-- The bytes of the reply so far. -/
def content (r : Req) : Bytes := r.buf.bytesOf (r.blob.getD [])

/-- `if(!blob) allocate_pbuf(0)`. -/
def ensurePbuf (r : Req) : Res Req := if r.blob.isNone then r.allocatePbuf 0 else .ok r

end Req

/-- `etag_mangle(etag, esid)`. -/
def etagMangle (etag : ℕ) (esid : Bytes) : Bytes :=
  let h := if esid = [] then 0 else threeroeHash64 esid
  [ch '"'] ++ decimal (etag ^^^ h) ++ [ch '"']

namespace Req

/-- `maybe_encode_content()`: the request with the encoded buffer, and the secret id used. -/
def maybeEncodeContent (r : Req) (svr : Server) (nonce : Bytes) : Res (Req × Bytes) :=
  match svr.secretManager with
  | none => .ok (r, [])
  | some sm =>
    if r.function = bytes "p" then .ok (r, [])
    else if r.acceptEncoding ≠ ceFs123Secretbox then
      httpthrow 406 (bytes "Request must specify Accept-encoding: fs123-secretbox")
    else do
      let esid ← sm.getEncodeSid
      let esecret ← sm.getSharedkey esid
      let (res, mem) := encode svr.na r.acceptEncoding esid esecret (r.blob.getD []) r.buf
        secretboxPadding (.random nonce)
      let buf ← res
      .ok ({ r with buf := buf, blob := some mem }, esid)

/-- `encrypt_and_send200(cc, etag64)`. -/
def encryptAndSend200 (r : Req) (svr : Server) (nonce cc : Bytes) (etag64 : ℕ) : Res Sent := do
  let r ← r.addHdr svr.ev (bytes "Cache-control") cc
  let r ← r.addHdr svr.ev (bytes "Content-type") (bytes "application/octet-stream")
  let r ← r.ensurePbuf
  let (r, esid) ← r.maybeEncodeContent svr nonce
  let r ← r.addHdrIf svr.ev (esid ≠ []) (bytes "Content-encoding") (bytes "fs123-secretbox")
  let r ← r.addHdrIf svr.ev (etag64 ≠ 0) (bytes "ETag") (etagMangle etag64 esid)
  let body := if r.method = .HEAD then [] else r.content
  let r ← r.addHdrIf svr.ev (r.method = .GET) hhTrsum (hexdigest body)
  .ok ⟨200, r.ohdrs, body⟩

/-- The body of a 7.3 reply, built around the content: the framing of the content first, then the
key/value pairs in front of it, one after the other. -/
def frame73 (r : Req) : Res Req := do
  let r ← r.ensurePbuf
  let r ← r.prepend (netstring keyContent ++ [ch ' '] ++ decimal r.buf.size ++ [ch ':'])
  let r ← r.append (bytes ",\n")
  r.kvpairs.foldlM (fun r p => r.prepend (pairText p)) r

/-- The first half of `common_reply200`. 7.2 requires an errno header, which only `errno_reply` has
added. -/
def finishBody (r : Req) (svr : Server) : Res Req :=
  if 3 ≤ r.protoMinor then r.frame73
  else r.addHdrIf svr.ev (!(r.ohdrs.any fun h => h.1 = hhErrno)) hhErrno (bytes "0")

/-- `common_reply200(cc, etag64)`. -/
def commonReply200 (r : Req) (svr : Server) (nonce cc : Bytes) (etag64 : ℕ) : Res Sent := do
  let r ← r.finishBody svr
  r.encryptAndSend200 svr nonce cc etag64

/-- `kvpairs.emplace_back(key, value)`. -/
def addKv (r : Req) (key value : Bytes) : Req := { r with kvpairs := r.kvpairs ++ [(key, value)] }

/-- The check of the `xxx_reply` members that the handler answers the request it was given. -/
def expectFunction (r : Req) (f name : Bytes) : Res Unit :=
  if r.function ≠ f then
    httpthrow 500 (bytes "handler replied to " ++ r.function ++ bytes " with " ++ name)
  else .ok ()

end Req

end Fs123
