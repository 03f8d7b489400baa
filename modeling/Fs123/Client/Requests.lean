import Fs123.Client.BegetDecode
import Fs123.Core.Base64
import Fs123.Core.UrlEscape

/-!
# Building a request

The model of the request builders of `req123` and of `encrypt_request`. A request is known by its
`urlstem`, `/FUNCTION[/PA/TH][?QUERY]`, with the path and most queries %-escaped. An encrypted request is
the whole stem in an envelope, as `/e/BASE64`.
-/

namespace Fs123

open Cxx

/-- The static members that the builders read: `backend123::proto_minor` and `req123::cachetag`. -/
structure ReqConfig where
  protoMinor : ℕ
  cachetag : ℕ
  deriving Repr, DecidableEq

/-- The arguments of the builders. -/
inductive Request where
  | attr (name : Bytes)
  | dir (name : Bytes) (ckib : ℕ) (chunkstart : Bytes)
  | file (name : Bytes) (ckib : ℕ) (chunkstartkib : ℤ)
  | link (name : Bytes)
  | statfs (name : Bytes)
  | xattr (name : Bytes) (ckib : ℕ) (attrname : Option Bytes)
  | stats
  deriving Repr, DecidableEq

namespace ReqConfig

variable (cfg : ReqConfig)

/-- `add_cachetag(url, hasquery)`. -/
def addCachetag (url : Bytes) (hasquery : Bool) : Bytes :=
  if cfg.cachetag ≠ 0 then url ++ (if hasquery then bytes ";" else bytes "?") ++ decimal cfg.cachetag
  else url

/-- `backend123::add_sigil_version(urlpfx)`. -/
def addSigilVersion (urlpfx : Bytes) : Res Bytes :=
  if (findStr (bytes "/fs123/") urlpfx).isSome || endswith urlpfx (bytes "/fs123") then
    throwE (.systemError .system 22) (bytes "urlpfx (" ++ cstr urlpfx
      ++ bytes ") may not contain a path component \"/fs123\"")
  else .ok (urlpfx ++ bytes "/fs123/" ++ decimal 7 ++ bytes "/" ++ decimal cfg.protoMinor)

/-- `req123::attrreq(name)`. -/
def attrreq (name : Bytes) : Bytes := cfg.addCachetag (bytes "/a" ++ urlescape name) false

/-- `req123::dirreq(name, ckib, chunkstart)`. -/
def dirreq (name : Bytes) (ckib : ℕ) (chunkstart : Bytes) : Bytes :=
  cfg.addCachetag (bytes "/d" ++ urlescape name ++ bytes "?" ++ decimal ckib ++ bytes ";"
    ++ if cfg.protoMinor < 3 then
        if chunkstart = [] then bytes "1;0" else bytes "0;" ++ chunkstart
      else urlescape chunkstart) true

/-- `req123::filereq(name, ckib, chunkstartkib)`. -/
def filereq (name : Bytes) (ckib : ℕ) (chunkstartkib : ℤ) : Bytes :=
  cfg.addCachetag (bytes "/f" ++ urlescape name ++ bytes "?" ++ decimal ckib ++ bytes ";"
    ++ decimalInt chunkstartkib) true

/-- `req123::linkreq(name)`. -/
def linkreq (name : Bytes) : Bytes := cfg.addCachetag (bytes "/l" ++ urlescape name) false

/-- `req123::statfsreq(name)`. -/
def statfsreq (name : Bytes) : Bytes := cfg.addCachetag (bytes "/s" ++ urlescape name) false

/-- `req123::statsreq()`. -/
def statsreq : Bytes := cfg.addCachetag (bytes "/n") false

/-- `req123::xattrreq(name, ckib, attrname)`: the attribute name is a C string or null. -/
def xattrreq (name : Bytes) (ckib : ℕ) (attrname : Option Bytes) : Bytes :=
  cfg.addCachetag (bytes "/x" ++ urlescape name ++ bytes "?" ++ decimal ckib ++ bytes ";"
    ++ (match attrname with
      | some attrname => urlescape attrname
      | none => [])
    ++ bytes ";") true

/-- The `urlstem` of a request. -/
def urlstem : Request → Bytes
  | .attr name => cfg.attrreq name
  | .dir name ckib chunkstart => cfg.dirreq name ckib chunkstart
  | .file name ckib chunkstartkib => cfg.filereq name ckib chunkstartkib
  | .link name => cfg.linkreq name
  | .statfs name => cfg.statfsreq name
  | .xattr name ckib attrname => cfg.xattrreq name ckib attrname
  | .stats => cfg.statsreq

end ReqConfig

/-! ## The parts of a stem -/

namespace Request

/-- The function letter. -/
def letter : Request → UInt8
  | .attr _ => ch 'a'
  | .dir _ _ _ => ch 'd'
  | .file _ _ _ => ch 'f'
  | .link _ => ch 'l'
  | .statfs _ => ch 's'
  | .xattr _ _ _ => ch 'x'
  | .stats => ch 'n'

/-- The file that the request is about. -/
def name : Request → Bytes
  | .attr name => name
  | .dir name _ _ => name
  | .file name _ _ => name
  | .link name => name
  | .statfs name => name
  | .xattr name _ _ => name
  | .stats => []

end Request

namespace ReqConfig

variable (cfg : ReqConfig)

/-- The cachetag at the end of a query. -/
def tag : Bytes := if cfg.cachetag ≠ 0 then ch ';' :: decimal cfg.cachetag else []

/-- The start of a directory chunk in a query. -/
def startText (chunkstart : Bytes) : Bytes :=
  if cfg.protoMinor < 3 then
    if chunkstart = [] then bytes "1;0" else bytes "0;" ++ chunkstart
  else urlescape chunkstart

/-- The query of a request. -/
def queryText : Request → Option Bytes
  | .dir _ ckib chunkstart => some (decimal ckib ++ ch ';' :: (cfg.startText chunkstart ++ cfg.tag))
  | .file _ ckib chunkstartkib => some (decimal ckib ++ ch ';' :: (decimalInt chunkstartkib ++ cfg.tag))
  | .xattr _ ckib attrname =>
    some (decimal ckib ++ ch ';' :: (urlescape (attrname.getD []) ++ ch ';' :: cfg.tag))
  | _ => if cfg.cachetag ≠ 0 then some (decimal cfg.cachetag) else none

/-- The text of an optional query. -/
def queryPartText : Option Bytes → Bytes
  | none => []
  | some q => ch '?' :: q

variable {cfg}

theorem addCachetag_true (url : Bytes) : cfg.addCachetag url true = url ++ cfg.tag := by
  unfold addCachetag tag
  split
  · rw [if_pos rfl, List.append_assoc]
    rfl
  · rw [List.append_nil]

/-- Every stem is the function, the escaped name and the query. -/
theorem urlstem_eq (req : Request) : cfg.urlstem req
    = ch '/' :: req.letter :: (urlescape req.name ++ queryPartText (cfg.queryText req)) := by
  have hbare : ∀ url : Bytes, cfg.addCachetag url false
      = url ++ queryPartText (if cfg.cachetag ≠ 0 then some (decimal cfg.cachetag) else none) := by
    intro url
    unfold addCachetag
    split
    · rw [if_neg (by decide), List.append_assoc]
      rfl
    · rw [queryPartText, List.append_nil]
  cases req with
  | attr name => exact hbare _
  | link name => exact hbare _
  | statfs name => exact hbare _
  | stats => exact hbare _
  | dir name ckib chunkstart =>
    show cfg.addCachetag _ true = _
    rw [addCachetag_true]
    simp only [queryText, queryPartText, List.append_assoc]
    rfl
  | file name ckib chunkstartkib =>
    show cfg.addCachetag _ true = _
    rw [addCachetag_true]
    simp only [queryText, queryPartText, List.append_assoc]
    rfl
  | xattr name ckib attrname =>
    show cfg.addCachetag _ true = _
    rw [addCachetag_true]
    cases attrname with
    | none =>
      simp only [queryText, queryPartText, List.append_assoc]
      rfl
    | some attrname =>
      simp only [queryText, queryPartText, List.append_assoc]
      rfl

end ReqConfig

/-! ## Encryption -/

/-- `uchar_blob(n)`: no object is larger than half of the address space. -/
def ucharBlob (n : ℕ) : Res Bytes :=
  if 2 ^ 63 ≤ n then throwE .badAlloc (bytes "std::bad_alloc") else .ok (zeros n)

/-- The room in front of the stem: `sizeof(fs123_secretbox_header) + crypto_secretbox_MACBYTES`. -/
def requestLeader : ℕ := 284 + secretboxMacbytes

/-- The alignment of the padding of an encrypted request. -/
def requestPadding : ℕ := 8

/-- `encrypt_request(req)`: the new `urlstem`. -/
def Client.encryptRequest (cl : Client) (urlstem : Bytes) : Res Bytes :=
  if cl.encryptRequests then
    match cl.secretMgr with
    | none => throwE .logicError (bytes "null pointer where non-null was expected")
    | some sm => do
      let esid ← sm.getEncodeSid
      let ub ← ucharBlob (urlstem.length + requestLeader + requestPadding)
      let ps ← PaddedUcharSpan.ofSpan 0 ub.length requestLeader urlstem.length
      let secret ← sm.getSharedkey esid
      let (encoded, mem) := encode cl.na ceFs123Secretbox esid secret (writeAt ub ps.data urlstem) ps
        requestPadding .derived
      let encoded ← encoded
      let b64 ← base64Encode (encoded.bytesOf mem)
      .ok (bytes "/e/" ++ b64)
  else .ok urlstem

/-- An encrypted stem is the envelope of the plain one. -/
theorem Client.encryptRequest_eq_ok {cl : Client} (hna : cl.na.Lawful) (henc : cl.encryptRequests = true)
    {urlstem stem : Bytes} (h : cl.encryptRequest urlstem = .ok stem) :
    ∃ sm sid secret nonce, cl.secretMgr = some sm ∧ sm.getEncodeSid = .ok sid
      ∧ sm.getSharedkey sid = .ok secret ∧ 0 < sid.length ∧ sid.length ≤ 255
      ∧ secretboxKeybytes ≤ secret.length ∧ nonce.length = secretboxNoncebytes
      ∧ urlstem.length + 308 < 2 ^ 63
      ∧ stem = bytes "/e/" ++ encodeLoop (envelope cl.na sid secret nonce requestPadding urlstem) := by
  unfold encryptRequest at h
  rw [if_pos henc] at h
  split at h
  · simp at h
  · next sm hsm =>
    obtain ⟨sid, hsid, h⟩ := bind_eq_ok_iff.mp h
    obtain ⟨ub, hub, h⟩ := bind_eq_ok_iff.mp h
    obtain ⟨ps, hps, h⟩ := bind_eq_ok_iff.mp h
    obtain ⟨secret, hsecret, h⟩ := bind_eq_ok_iff.mp h
    rcases heq : encode cl.na ceFs123Secretbox sid secret (writeAt ub ps.data urlstem) ps
      requestPadding .derived with ⟨res, mem⟩
    rw [heq] at h
    dsimp only at h
    obtain ⟨encoded, hres, hrest⟩ := bind_eq_ok_iff.mp h
    obtain ⟨b64, hb64, hstem⟩ := bind_eq_ok_iff.mp hrest
    subst hres
    obtain ⟨hpos, hle, hmin⟩ := encode_checked heq
    have hks : secretboxKeybytes ≤ secret.length := by
      simp only [NonceMode.minSecret] at hmin
      omega
    obtain ⟨hsmall, rfl⟩ : urlstem.length + 308 < 2 ^ 63 ∧ ub = zeros (urlstem.length + 308) := by
      unfold ucharBlob at hub
      split at hub
      · simp at hub
      · next hlt =>
        rw [Except.ok.injEq] at hub
        simp only [requestLeader, requestPadding, secretboxMacbytes] at hlt hub
        exact ⟨by omega, hub.symm⟩
    have h63 : 2 ^ 63 < npos := by decide
    have hmod : npos < sizeMod := by decide
    obtain rfl : (⟨300, urlstem.length, 0, urlstem.length + 308⟩ : PaddedUcharSpan) = ps := by
      unfold PaddedUcharSpan.ofSpan at hps
      rw [zeros_length, show requestLeader = 300 from rfl, dynamicExtent, if_neg (by omega),
        addW_eq (by omega), if_neg (by omega), if_neg (by omega), Except.ok.injEq] at hps
      exact hps
    -- The stem lies between 300 bytes for the header and 8 bytes for the padding.
    have hmem : writeAt (zeros (urlstem.length + 308)) 300 urlstem
        = zeros 300 ++ urlstem ++ zeros 8 := by
      rw [show urlstem.length + 308 = 300 + (urlstem.length + 8) by omega, ← zeros_append,
        ← zeros_append, ← List.append_assoc]
      exact writeAt_append_mid _ _ _ _ (zeros_length _).symm (zeros_length _).symm
    have hbytes : (⟨300, urlstem.length, 0, urlstem.length + 308⟩ : PaddedUcharSpan).bytesOf
        (zeros 300 ++ urlstem ++ zeros 8) = urlstem :=
      slice_append_mid _ _ _ (zeros_length _).symm rfl
    have hwf : (⟨300, urlstem.length, 0, urlstem.length + 308⟩ : PaddedUcharSpan).Wf
        (zeros 300 ++ urlstem ++ zeros 8) := by
      refine ⟨Nat.zero_le _, by simp only; omega, ?_, ?_⟩
      · simp only [List.length_append, zeros_length]
        omega
      · simp only [List.length_append, zeros_length]
        omega
    obtain ⟨nonce, hnonce, hnlen⟩ := encodeNonce_eq_ok hna urlstem
      (show NonceMode.derived.Sized from trivial) hmin
    have hpad : padding requestPadding urlstem.length ≤ 8 := Nat.sub_le _ _
    obtain ⟨pre, post, hspec⟩ := encode_spec hna hpos hle (show 0 < requestPadding by decide) hks hwf
      (by simp only [PaddedUcharSpan.availFront, offsetofKeyid, secretboxMacbytes]; omega)
      (by rw [hwf.availBack_eq]; simp only; omega) (by rw [hbytes]; exact hnonce) hnlen
    rw [hmem, hspec, Prod.mk.injEq, Except.ok.injEq] at heq
    obtain ⟨rfl, rfl⟩ := heq
    rw [hbytes, PaddedUcharSpan.bytesOf, slice_append_mid _ _ _ rfl
      (envelope_length hna (by decide) hks hnlen urlstem).symm] at hb64
    refine ⟨sm, sid, secret, nonce, hsm, hsid, hsecret, hpos, hle, hks, hnlen, hsmall, ?_⟩
    unfold base64Encode at hb64
    split at hb64
    · simp at hb64
    · rw [Except.ok.injEq] at hb64 hstem
      rw [← hstem, ← hb64]

end Fs123
