import Fs123.Core.Base64
import Fs123.Server.Req

/-!
# Parsing a request

The model of `req::parse_and_handle`, from the request that libevent hands over to the handler call that
it is dispatched to. The function is cut at the points where the source has its comments: the generic part
of the path (`parsePath`), the encrypted form (`decodeEnvelope`), the checks (`checkRequest`), and the
query of each function (`dispatch`).

A plain request is %-decoded before it is taken apart. An encrypted one is taken apart as it is.
-/

namespace Fs123

open Cxx

/-- What libevent hands over: the unmodified uri, the method, the two headers that are looked up, and the
body. -/
structure HttpRequest where
  uri : Bytes
  method : Method
  acceptEncoding : Option Bytes
  ifNoneMatch : Option Bytes
  body : Bytes
  deriving Repr, DecidableEq

/-- The handler call that a request ends in, with the arguments that are parsed for it. -/
inductive HandlerCall where
  | a
  | d (inm64 : ℕ) (start : Bytes)
  | f (inm64 requestedLen offset : ℕ)
  | l
  | s
  | x (requestedLen : ℕ) (name : Bytes)
  | n
  | p (inm64 : ℕ) (body : Bytes)
  deriving Repr, DecidableEq

/-- The numbers of `evhttp_cmd_type`. -/
def Method.command : Method → ℕ
  | .GET => 1
  | .POST => 2
  | .HEAD => 4
  | .PUT => 8
  | .DELETE => 16
  | .OPTIONS => 32
  | .TRACE => 64
  | .CONNECT => 128
  | .PATCH => 256

/-- `validate_path(pi)`. -/
def validatePath (pi : Bytes) : Res Unit :=
  if pi = [] then .ok ()
  else if pi.head? ≠ some (ch '/') then httpthrow 400 (bytes "path must start with a /")
  else if (findChar pi 0 0).isSome then httpthrow 400 (bytes "path may not contain NUL")
  else if (findStr (bytes "/../") pi).isSome then httpthrow 400 (bytes "path may not contain /../")
  else if endswith pi (bytes "/..") then httpthrow 400 (bytes "path may not end with /..")
  else .ok ()

/-- `inm_demangle(inm_sv, esid)`: an unparseable header counts as absent. -/
def inmDemangle (inm esid : Bytes) : Res ℕ :=
  if inm = [] then .ok 0
  else
    let h := if esid = [] then 0 else threeroeHash64 esid
    catchE (do let etag ← parseQuotedEtag inm; .ok (h ^^^ etag)) fun _ => .ok 0

/-- `SIGIL`. -/
def sigil : Bytes := bytes "/fs123/7/"

/-- `FUNCTION[/PA/TH]` from `nextoff` on: the function and the path. -/
def splitFunction (upath : Bytes) (nextoff : ℕ) : Bytes × Bytes :=
  match findChar upath (ch '/') nextoff with
  | some pidx => (slice upath nextoff (pidx - nextoff), upath.drop pidx)
  | none => (upath.drop nextoff, [])

/-- The secret id that ETags are mangled with. -/
def Server.encodeSid (svr : Server) : Res Bytes :=
  match svr.secretManager with
  | none => .ok []
  | some sm => sm.getEncodeSid

namespace Req

/-- A new request, before parsing. -/
def ofHttp (hr : HttpRequest) : Req where
  function := []
  pathInfo := []
  query := []
  protoMinor := 0
  method := hr.method
  acceptEncoding := (hr.acceptEncoding.map encodingStoi).getD ceIdent
  requestedLen := 0
  envelopeSid := []
  inm := []
  blob := none
  buf := ⟨0, 0, 0, 0⟩
  kvpairs := []
  ohdrs := []

/-- The part up to `function` and `path_info`: `/SEL/ECT/OR/fs123/7/PROTOminor/FUNCTION[/PA/TH]`. -/
def parsePath (svr : Server) (hr : HttpRequest) : Res Req :=
  let upath := cstr (svr.ev.uridecode (svr.ev.uriPath hr.uri))
  match findStr sigil upath with
  | none => httpthrow 400 (bytes "SIGIL not found in decoded path")
  | some startOfSigil => do
    let (minor, next) ← scanintS 32 0 true upath (startOfSigil + sigil.length)
    let nextoff := next + 1
    if minor < protocolMinorMin then
      httpthrow 400 (bytes "protocol " ++ sigil ++ decimalInt minor
        ++ bytes " is no longer supported.  Minimum is " ++ sigil ++ decimalInt protocolMinorMin)
    else if minor > protocolMinorMax then
      httpthrow 400 (bytes "protocol " ++ sigil ++ decimalInt minor
        ++ bytes " is not supported.  Maximum is " ++ sigil ++ decimalInt protocolMinorMax)
    else if upath.length ≤ nextoff ∨ upath[nextoff - 1]? ≠ some (ch '/') then
      httpthrow 400 (bytes "expected /FUNCTION after PROTOmajor/PROTOminor")
    else
      let (function, pathInfo) := splitFunction upath nextoff
      .ok { ofHttp hr with protoMinor := minor, function := function, pathInfo := pathInfo }

/-- The plaintext of an envelope, `/FUNCTION/PA/TH?QUERY`, taken apart. The path and the query are not
%-decoded. The length `queryidx - pidx` is a `size_t` difference. -/
def splitEnvelope (r : Req) (decrypted : Bytes) : Res Req :=
  if decrypted.head? ≠ some (ch '/') then
    httpthrow 400 (bytes "decode_envelope: plaintext must start with /")
  else
    let queryidx := findLastOf (ch '?') decrypted
    let query := match queryidx with
      | none => []
      | some i => decrypted.drop (i + 1)
    match findChar decrypted (ch '/') 1 with
    | some pidx =>
      .ok { r with
        query := query
        function := slice decrypted 1 (pidx - 1)
        pathInfo := slice decrypted pidx (subW (queryidx.getD npos) pidx) }
    | none =>
      .ok { r with
        query := query
        pathInfo := []
        function := slice decrypted 1 (subW (queryidx.getD npos) 1) }

/-- The `/e` function: decrypt the path to a new function, path and query. -/
def decodeEnvelope (svr : Server) (r : Req) : Res Req :=
  if r.pathInfo.head? ≠ some (ch '/') then
    httpthrow 400 (bytes "path_info must be of the form /<base64(path_info)>")
  else
    match svr.secretManager with
    | none => httpthrow 400 (bytes "decode_envelope:  no secret manager.  Can't decode")
    | some sm => do
      let decode64 ← base64Decode (r.pathInfo.drop 1)
      let hdr ← SecretboxHeader.ofWire decode64
      let (decoded, mem) := decode svr.na ceFs123Secretbox decode64
        ⟨0, decode64.length, 0, decode64.length⟩ sm
      let decrypted ← decoded
      { r with envelopeSid := hdr.keyid }.splitEnvelope (decrypted.bytesOf mem)

/-- The query of a request that is not encrypted. -/
def plainQuery (svr : Server) (hr : HttpRequest) (r : Req) : Res Req :=
  if r.mayUseSecrets svr ∧ svr.acceptPlaintextRequests = false then
    httpthrow 406 (bytes "Requests must be encrypted and authenticated")
  else .ok { r with query := (svr.ev.uriQuery hr.uri).getD [] }

/-- The checks of everything but `/p`, and the echo of the request in the reply. -/
def checkRequest (hr : HttpRequest) (r : Req) : Res Req :=
  if r.method ≠ .GET ∧ r.method ≠ .HEAD then
    httpthrow 403 (bytes "Unsupported request method " ++ decimal r.method.command)
  else do
    validatePath r.pathInfo
    match findStr (bytes "/fs123/") hr.uri with
    | none => httpthrow 500 (bytes "No SIGIL?  Didn't we check this already?")
    | some i => .ok (r.addKv keyRequest (hr.uri.drop i))

/-- The query of `/d` before 7.3: `Len;Begin;Offset`. The results are the length and the offset of the
start in the query. -/
def dirQuery72 (query : Bytes) : Res (ℕ × ℕ) := do
  let (lenkib, off) ← scanintU 64 0 true query 0
  let (start, off) ← scanintS 32 0 true query (off + 1)
  .ok (lenkib, if start ≠ 0 then query.length else off + 1)

/-- The query of `/d` from 7.3 on: `Len;Start` or `Len,Start`. -/
def dirQuery73 (query : Bytes) : Res (ℕ × ℕ) := do
  let (lenkib, off) ← scanintU 64 0 true query 0
  let c ← at? query off
  if c = ch ';' ∨ c = ch ',' then .ok (lenkib, off + 1)
  else throwE .runtimeError (bytes "expected a semicolon or comma in query string")

/-- The query of `/d`. -/
def dirQuery (r : Req) : Res (ℕ × ℕ) :=
  if r.protoMinor < 3 then dirQuery72 r.query else dirQuery73 r.query

/-- The query of `/f`: `Len;Offset`. -/
def fileQuery (query : Bytes) : Res (ℕ × ℕ) := do
  let (lenkib, off) ← scanintU 64 0 true query 0
  let (offsetkib, _) ← scanintU 64 0 true query (off + 1)
  .ok (lenkib, offsetkib)

/-- The `catch` around the query scans of `/d` and `/f`. -/
def catchQuery {α : Type} (f query : Bytes) (x : Res α) : Res α :=
  catchE x fun e => .error (.throws ⟨httpException 400
    (bytes "failed to parse query in /" ++ f ++ bytes "...?" ++ query), e.layers⟩)

/-- The check of a requested length. -/
def checkLen (f : Bytes) (lenkib : ℕ) : Res Unit :=
  if lenkib > maxReplySize / 1024 then
    httpthrow 400 ([ch '/'] ++ f ++ bytes " requested length too large: " ++ decimal lenkib
      ++ bytes " > " ++ decimal maxReplySize)
  else .ok ()

/-- `validator_space`: room for a netstring of a number in front of the content of an `/f` reply. -/
def validatorSpace : ℕ := 32

/-- The branch for `/d`. -/
def dispatchDir (r : Req) (inm64 : ℕ) : Res (Req × HandlerCall) := do
  let (lenkib, startOffset) ← catchQuery (bytes "d") r.query r.dirQuery
  checkLen (bytes "d") lenkib
  let start ← substr r.query startOffset npos
  let r ← r.allocatePbuf (lenkib * 1024)
  let start ← urlunescape start
  .ok (r, .d inm64 start)

/-- The branch for `/f`. -/
def dispatchFile (r : Req) (inm64 : ℕ) : Res (Req × HandlerCall) := do
  let (lenkib, offsetkib) ← catchQuery (bytes "f") r.query (fileQuery r.query)
  checkLen (bytes "f") lenkib
  let r ← { r with requestedLen := lenkib * 1024 }.allocatePbuf (lenkib * 1024 + validatorSpace)
  let buf ← r.buf.subspan validatorSpace 0
  if offsetkib > (2 ^ 64 - 1) / 1024 then
    httpthrow 400 (bytes "/f requested offset overflows size_t: " ++ decimal offsetkib)
  else .ok ({ r with buf := buf }, .f inm64 (lenkib * 1024) (offsetkib * 1024))

/-- The branch for `/x`: the query is `Len;Name;`. -/
def dispatchXattr (svr : Server) (r : Req) : Res (Req × HandlerCall) := do
  let (lenkib, first) ← scanintU 64 0 true r.query 0
  checkLen (bytes "x") lenkib
  if r.query[first]? ≠ some (ch ';') then httpthrow 400 (bytes "no semicolon after Len")
  else
    match findChar r.query (ch ';') (first + 1) with
    | none => httpthrow 400 (bytes "no semicolon after name")
    | some second =>
      let encname := slice r.query (first + 1) (second - (1 + first))
      .ok (r, .x (lenkib * 1024) (cstr (svr.ev.uridecode (cstr encname))))

/-- The call of the handler for `function`. -/
def dispatch (svr : Server) (hr : HttpRequest) (r : Req) (inm64 : ℕ) : Res (Req × HandlerCall) :=
  if r.function = bytes "a" then .ok (r, .a)
  else if r.function = bytes "d" then r.dispatchDir inm64
  else if r.function = bytes "f" then r.dispatchFile inm64
  else if r.function = bytes "l" then .ok (r, .l)
  else if r.function = bytes "s" then .ok (r, .s)
  else if r.function = bytes "x" then r.dispatchXattr svr
  else if r.function = bytes "n" then .ok (r, .n)
  else if r.function = bytes "p" then .ok (r, .p inm64 hr.body)
  else httpthrow 400 (bytes "Unknown fs123 /function: " ++ cstr r.function ++ bytes " uri_path: "
    ++ svr.ev.uriPath hr.uri)

/-- The `If-None-Match` header up to its first comma. -/
def headInm (hr : HttpRequest) : Bytes := (hr.ifNoneMatch.getD []).takeWhile (· ≠ ch ',')

/-- The choice between the encrypted and the plain form of a request. -/
def decodeQuery (svr : Server) (hr : HttpRequest) (r : Req) : Res Req :=
  if r.function = bytes "e" then r.decodeEnvelope svr else r.plainQuery svr hr

/-- `/p` is left alone. -/
def checkUnlessP (hr : HttpRequest) (r : Req) : Res Req :=
  if r.function = bytes "p" then .ok r else r.checkRequest hr

/-- The `try` block of `parse_and_handle`, up to the handler call. -/
def parse (svr : Server) (hr : HttpRequest) : Res (Req × HandlerCall) := do
  let r ← parsePath svr hr
  if r.mayUseSecrets svr ∧ r.acceptEncoding ≠ ceFs123Secretbox then
    httpthrow 406 (bytes "Request must specify Accept-encoding: fs123-secretbox")
  else
    let r ← r.decodeQuery svr hr
    let r ← r.checkUnlessP hr
    let esid ← svr.encodeSid
    let inm64 ← inmDemangle (headInm hr) esid
    { r with inm := headInm hr }.dispatch svr hr inm64

end Req

/-- `parse_and_handle(req)`: the handler call, or the reply that an exception before it leads to. -/
def parseAndHandle (svr : Server) (hr : HttpRequest) : Res (Sent ⊕ (Req × HandlerCall)) :=
  catchE (do let call ← Req.parse svr hr; .ok (.inr call)) fun e => .ok (.inl (exceptionReply e))

end Fs123
