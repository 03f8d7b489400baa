import Fs123.Codec.Opened
import Fs123.Server.RequestTransport

/-!
# What an error reply says about an encrypted request

A request that is recovered from an envelope can be refused: an exception on the way to the handler becomes
a reply in plain text. Its body lists the texts of the exception, and these depend on what was in the
envelope. The reply to one refused request is the reply to all that look like it from outside exactly if
nothing else fits into an envelope of that size (`uniform_refusal_iff`).
-/

namespace Fs123

open Cxx

/-- An `/e` request that gets as far as its envelope, which is opened to a text. -/
structure Carried (svr : Server) (sm : SecretManager) (hr : HttpRequest) (minor : ℤ) (hdr : SecretboxHeader)
    (env plain : Bytes) : Prop where
  path : ∃ r, Req.parsePath svr hr = .ok r ∧ r.function = bytes "e" ∧ r.protoMinor = minor
    ∧ r.acceptEncoding = ceFs123Secretbox ∧ r.pathInfo.head? = some (ch '/')
    ∧ base64Decode (r.pathInfo.drop 1) = .ok env
  header : SecretboxHeader.ofWire env = .ok hdr
  opened : ∃ dec mem, decode svr.na ceFs123Secretbox env ⟨0, env.length, 0, env.length⟩ sm = (.ok dec, mem)
    ∧ dec.bytesOf mem = plain

/-- Two requests that differ in their uris only. -/
structure SameOuter (hr hr' : HttpRequest) : Prop where
  method : hr'.method = hr.method
  acceptEncoding : hr'.acceptEncoding = hr.acceptEncoding
  ifNoneMatch : hr'.ifNoneMatch = hr.ifNoneMatch
  body : hr'.body = hr.body

/-- The replies to a request and to all refused requests that look like it are the same up to their status:
those with the same headers and an envelope of the same length with the same secret id. -/
def UniformRefusal (svr : Server) (sm : SecretManager) (hr : HttpRequest) (minor : ℤ) (hdr : SecretboxHeader)
    (env : Bytes) (sent : Sent) : Prop :=
  ∀ (hr' : HttpRequest) (hdr' : SecretboxHeader) (env' plain' : Bytes) (sent' : Sent),
    Carried svr sm hr' minor hdr' env' plain' → parseAndHandle svr hr' = .ok (.inl sent') → SameOuter hr hr' →
    env'.length = env.length → hdr'.keyid = hdr.keyid → sent'.headers = sent.headers ∧ sent'.body = sent.body

theorem Req.parsePath_accept {svr : Server} {hr : HttpRequest} {r : Req} (h : Req.parsePath svr hr = .ok r) :
    r.acceptEncoding = (Req.ofHttp hr).acceptEncoding := by
  unfold Req.parsePath at h
  dsimp only at h
  split at h
  · simp [httpthrow] at h
  · obtain ⟨⟨minor, next⟩, -, h⟩ := bind_eq_ok_iff.mp h
    dsimp only at h
    split_ifs at h
    · simp [httpthrow] at h
    · simp [httpthrow] at h
    · simp [httpthrow] at h
    · rw [← Except.ok.inj h]

theorem parseAndHandle_inl {svr : Server} {hr : HttpRequest} {sent : Sent} {e : Exn}
    (hp : Req.parse svr hr = .error (.throws e)) (h : parseAndHandle svr hr = .ok (.inl sent)) :
    sent = exceptionReply e := by
  unfold parseAndHandle at h
  rw [hp] at h
  exact (Sum.inl.inj (Except.ok.inj h)).symm

section Carried

variable {svr : Server} {sm : SecretManager} {hr : HttpRequest} {minor : ℤ} {hdr : SecretboxHeader}
  {env plain : Bytes}

/-- What is left of `parse` once the envelope is open. -/
theorem Carried.parse_eq (hc : Carried svr sm hr minor hdr env plain) (hsm : svr.secretManager = some sm) :
    ∃ r : Req, r.Fresh hr ∧ Req.parse svr hr = (do
      let r ← r.splitEnvelope plain
      let r ← r.checkUnlessP hr
      let esid ← svr.encodeSid
      let inm64 ← inmDemangle (Req.headInm hr) esid
      { r with inm := Req.headInm hr }.dispatch svr hr inm64) := by
  obtain ⟨r, hpath, hf, -, hacc, hslash, hdec⟩ := hc.path
  obtain ⟨dec, mem, hopen, hplain⟩ := hc.opened
  have hfresh := Req.parsePath_fresh hpath
  refine ⟨{ r with envelopeSid := hdr.keyid }, ⟨hfresh.minor_ge, hfresh.minor_le, hfresh.method,
    hfresh.ohdrs, hfresh.kvpairs, hfresh.blob⟩, ?_⟩
  have hquery : r.decodeQuery svr hr = { r with envelopeSid := hdr.keyid }.splitEnvelope plain := by
    unfold Req.decodeQuery Req.decodeEnvelope
    rw [if_pos hf, if_neg (by rw [hslash]; simp), hsm]
    simp only [hdec, hc.header, hopen, bind, Except.bind, hplain]
  unfold Req.parse
  rw [hpath]
  simp only [bind, Except.bind]
  rw [if_neg (by rw [hacc]; simp), hquery]

/-- The record has as many bytes behind its authenticator as the text and its padding. -/
theorem Carried.recordsz_eq (hc : Carried svr sm hr minor hdr env plain) (hlen : svr.na.OpenLength) :
    hdr.Valid ∧ env.length = hdr.wiresize + hdr.recordsz ∧ hdr.recordsz < 2 ^ 32 - 16
      ∧ (∃ key, sm.getSharedkey hdr.keyid = .ok key ∧ secretboxKeybytes ≤ key.length)
      ∧ ∃ n, hdr.recordsz = secretboxMacbytes + (plain.length + 1 + n) := by
  obtain ⟨dec, mem, hopen, hplain⟩ := hc.opened
  obtain ⟨hdr', ct, key, n, hv, henv, hrec, hkey, hklen, hbox⟩ := decode_opened hlen hopen
  have hsame : hdr' = hdr := by
    have := hc.header
    rw [henv, hv.ofWire_wire] at this
    exact Except.ok.inj this
  subst hsame
  have hsize : env.length = hdr'.wiresize + ct.length := by
    rw [henv, List.length_append, hv.wire_length]
  refine ⟨hv, by rw [hsize, hrec], ?_, ⟨key, hkey, hklen⟩, n, ?_⟩
  · -- A longer record would not have been opened.
    by_contra hge
    have hthrow : Throws (decode svr.na ceFs123Secretbox ([] ++ (hdr'.wire ++ ct) ++ [])
        ⟨0, env.length, 0, env.length⟩ sm).1 :=
      decode_large hv hrec hkey hklen rfl hsize (by rw [secretboxBoxzerobytes]; omega)
    rw [List.nil_append, List.append_nil, ← henv, hopen] at hthrow
    obtain ⟨e, he⟩ := hthrow
    simp at he
  · have := hlen _ _ _ _ hbox
    rw [hrec, this, ← hplain]
    simp only [List.length_append, List.length_cons, zeros_length]
    omega

/-- The empty text is refused with a fixed message. -/
theorem Carried.parse_nil (hc : Carried svr sm hr minor hdr env []) (hsm : svr.secretManager = some sm) :
    Req.parse svr hr = httpthrow 400 (bytes "decode_envelope: plaintext must start with /") := by
  obtain ⟨r, -, hparse⟩ := hc.parse_eq hsm
  rw [hparse]
  rfl

/-! ## Another text in an envelope of the same size -/

/-- A text sealed like another request's, in an envelope whose record has `16 + n` bytes. -/
def resealed (svr : Server) (hr : HttpRequest) (minor n : ℕ) (sid key nonce text : Bytes) : HttpRequest :=
  { hr with uri := bytes "/fs123/7/" ++ decimal minor ++ bytes "/e/"
    ++ encodeLoop (envelope svr.na sid key nonce n text) }

/-- How the server takes the uri of an encrypted request apart. -/
theorem parsePath_envelope {hr : HttpRequest} {data : Bytes} {k : ℕ} (hev : svr.ev.Lawful) (hk : k = 2 ∨ k = 3)
    (huri : hr.uri = bytes "/fs123/7/" ++ decimal k ++ bytes "/e/" ++ encodeLoop data) :
    Req.parsePath svr hr = .ok { Req.ofHttp hr with
        protoMinor := k, function := bytes "e", pathInfo := ch '/' :: encodeLoop data }
      ∧ findStr (bytes "/fs123/") hr.uri = some 0 := by
  have hsel : Selector [] := ⟨by decide, by decide⟩
  obtain ⟨x, hx⟩ : ∃ x, x = bytes "/fs123/7/" ++ decimal k ++ bytes "/e/" := ⟨_, rfl⟩
  have hxord : Ordinary x ∧ ch '%' ∉ x ∧ OriginForm x ∧ 2 ≤ x.length := by
    rw [hx]
    unfold Ordinary OriginForm
    rcases hk with rfl | rfl <;> decide
  rw [← hx] at huri
  have hord : Ordinary hr.uri := huri ▸ hxord.1.append (ordinary_encodeLoop data)
  have hpercent : ch '%' ∉ hr.uri := by
    rw [huri, List.mem_append, not_or]
    exact ⟨hxord.2.1, not_mem_encodeLoop data (Or.inl rfl)⟩
  have horigin : OriginForm hr.uri := huri ▸ hxord.2.2.1.append hxord.2.2.2 _
  have hpart : pathPart hr.uri = hr.uri := by
    have := pathPart_append hord none
    rwa [ReqConfig.queryPartText, List.append_nil] at this
  have hdecoded : cstr (svr.ev.uridecode (svr.ev.uriPath hr.uri))
      = [] ++ (sigil ++ (decimal k ++ ch '/' :: ch 'e' :: ch '/' :: encodeLoop data)) := by
    rw [hev.uriPath _ horigin, hpart, hev.uridecode, percentDecode_eq_self hpercent, cstr_eq_self hord.2.2,
      huri, hx, show bytes "/e/" = [ch '/', ch 'e', ch '/'] by decide]
    simp [sigil]
  refine ⟨Req.parsePath_eq hsel hk (by decide) (Or.inr rfl) hdecoded, ?_⟩
  rw [huri, hx, show bytes "/fs123/7/" = bytes "/fs123/" ++ bytes "7/" by decide]
  have hfind := hsel.findStr_fs123 (bytes "7/" ++ (decimal k ++ (bytes "/e/" ++ encodeLoop data)))
  simpa using hfind

/-- The resealed text is carried as the first was. -/
theorem Carried.resealed (hc : Carried svr sm hr minor hdr env plain) (hev : svr.ev.Lawful)
    (hna : svr.na.Lawful) (hlen : svr.na.OpenLength) :
    ∃ (k n : ℕ) (key : Bytes), minor = k ∧ (k = 2 ∨ k = 3) ∧ hdr.recordsz = secretboxMacbytes + n
      ∧ ∀ text : Bytes, text.length < n → ∃ hdr' env',
        Carried svr sm (Fs123.resealed svr hr k n hdr.keyid key hdr.nonce text) minor hdr' env' text
          ∧ env'.length = env.length ∧ hdr'.keyid = hdr.keyid := by
  obtain ⟨hv, hsize, hrecsz, ⟨key, hkey, hklen⟩, z, hrec⟩ := hc.recordsz_eq hlen
  obtain ⟨r, hpath, -, hminor, hacc, -, -⟩ := hc.path
  have hfresh := Req.parsePath_fresh hpath
  obtain ⟨k, rfl, hk⟩ : ∃ k : ℕ, minor = k ∧ (k = 2 ∨ k = 3) := by
    have h2 := hfresh.minor_ge
    have h3 := hfresh.minor_le
    rw [hminor] at h2 h3
    exact ⟨minor.toNat, by omega, by omega⟩
  refine ⟨k, plain.length + 1 + z, key, rfl, hk, hrec, ?_⟩
  intro text htext
  obtain ⟨n, hn⟩ : ∃ n, n = plain.length + 1 + z := ⟨_, rfl⟩
  rw [← hn] at htext hrec ⊢
  have hpos : 0 < n := by omega
  have hpad : text.length + padding n text.length = n := by
    rw [size_add_padding hpos, Nat.div_eq_of_lt htext, Nat.zero_add, Nat.mul_one]
  obtain ⟨env', henv'⟩ : ∃ env', env' = envelope svr.na hdr.keyid key hdr.nonce n text := ⟨_, rfl⟩
  have henvlen : env'.length = env.length := by
    rw [henv', envelope_length hna hpos hklen hv.nonce, hsize, hrec, SecretboxHeader.wiresize]
    omega
  have hvalid := envelopeHeader_valid hv.keyid_pos hv.keyid_le hv.nonce n text.length
  refine ⟨envelopeHeader hdr.keyid hdr.nonce n text.length, env', ?_, henvlen, rfl⟩
  constructor
  · obtain ⟨hr', hhr'⟩ : ∃ hr', hr' = Fs123.resealed svr hr k n hdr.keyid key hdr.nonce text := ⟨_, rfl⟩
    have huri : hr'.uri = bytes "/fs123/7/" ++ decimal k ++ bytes "/e/" ++ encodeLoop env' := by
      rw [hhr', henv']
      rfl
    obtain ⟨hparse, -⟩ := parsePath_envelope hev hk huri
    rw [← hhr']
    have hne : env' ≠ [] := by
      rintro rfl
      have hid := hv.keyid_pos
      rw [hsize, List.length_nil, SecretboxHeader.wiresize] at henvlen
      omega
    refine ⟨_, hparse, rfl, rfl, ?_, rfl, ?_⟩
    · rw [← hacc, Req.parsePath_accept hpath, hhr']
      rfl
    · rw [List.drop_one, List.tail_cons]
      exact base64Decode_encodeLoop hne
  · rw [henv', envelope]
    exact hvalid.ofWire_wire _
  · have hopen : ∃ dec mem, decode svr.na ceFs123Secretbox
        ([] ++ envelope svr.na hdr.keyid key hdr.nonce n text ++ []) ⟨0, env'.length, 0, env'.length⟩ sm
          = (.ok dec, mem) ∧ dec.bytesOf mem = text :=
      decode_envelope hna hv.keyid_pos hv.keyid_le hpos hkey hklen hv.nonce
        (by rw [recordSize_eq hpos]; omega) rfl (by rw [henv'])
    rw [List.nil_append, List.append_nil, ← henv'] at hopen
    exact hopen

/-- The text `/` is refused with another message than the empty text. -/
theorem Carried.parse_slash (hc : Carried svr sm hr minor hdr env [ch '/']) (hsm : svr.secretManager = some sm)
    {esid : Bytes} (hesid : svr.encodeSid = .ok esid) {i : ℕ} (hfind : findStr (bytes "/fs123/") hr.uri = some i) :
    ∃ e, Req.parse svr hr = .error (.throws e) ∧ (exceptionReply e).body.head? = some (ch 'U') := by
  obtain ⟨r, -, hparse⟩ := hc.parse_eq hsm
  have hsplit : r.splitEnvelope [ch '/'] = .ok { r with query := [], pathInfo := [], function := [] } := by
    rfl
  obtain ⟨inm64, hinm⟩ := inmDemangle_ok (Req.headInm hr) esid
  rw [hparse, hsplit]
  simp only [bind, Except.bind, Req.checkUnlessP]
  rw [if_neg (by decide), Req.checkRequest]
  by_cases hm : r.method ≠ .GET ∧ r.method ≠ .HEAD
  · rw [if_pos hm]
    exact ⟨_, rfl, rfl⟩
  · rw [if_neg hm, show validatePath [] = .ok () from rfl, hfind]
    simp only [bind, Except.bind, hesid, hinm]
    exact ⟨_, rfl, rfl⟩

/-! ## Which replies are alike -/

/-- The reply to a refused request says nothing about its content exactly if an envelope of its size and
secret id has room for the empty text only. -/
theorem uniform_refusal_iff {sent : Sent} {esid : Bytes} (hev : svr.ev.Lawful) (hna : svr.na.Lawful)
    (hlen : svr.na.OpenLength) (hsm : svr.secretManager = some sm) (hesid : svr.encodeSid = .ok esid)
    (hc : Carried svr sm hr minor hdr env plain) (hsent : parseAndHandle svr hr = .ok (.inl sent)) :
    UniformRefusal svr sm hr minor hdr env sent ↔ hdr.recordsz = secretboxMacbytes + 1 := by
  constructor
  · intro huniform
    by_contra hne
    obtain ⟨k, n, key, rfl, hk, hrec, htext⟩ := hc.resealed hev hna hlen
    obtain ⟨-, -, -, -, z, hz⟩ := hc.recordsz_eq hlen
    have hn : 1 < n := by omega
    -- The empty text and a slash fit both, and are refused with different messages.
    obtain ⟨hdr₀, env₀, hc₀, henv₀, hid₀⟩ := htext [] (by rw [List.length_nil]; omega)
    obtain ⟨hdr₁, env₁, hc₁, henv₁, hid₁⟩ := htext [ch '/'] (by rw [List.length_singleton]; omega)
    have houter : ∀ text, SameOuter hr (Fs123.resealed svr hr k n hdr.keyid key hdr.nonce text) :=
      fun _ => ⟨rfl, rfl, rfl, rfl⟩
    have huri : (Fs123.resealed svr hr k n hdr.keyid key hdr.nonce [ch '/']).uri
        = bytes "/fs123/7/" ++ decimal k ++ bytes "/e/"
          ++ encodeLoop (envelope svr.na hdr.keyid key hdr.nonce n [ch '/']) := rfl
    obtain ⟨-, hfind⟩ := parsePath_envelope hev hk huri
    obtain ⟨e₁, hparse₁, hbody₁⟩ := hc₁.parse_slash hsm hesid hfind
    have hparse₀ := hc₀.parse_nil hsm
    have hsent₀ := huniform _ hdr₀ env₀ [] _ hc₀ (by unfold parseAndHandle; rw [hparse₀]; rfl) (houter _)
      henv₀ hid₀
    have hsent₁ := huniform _ hdr₁ env₁ [ch '/'] _ hc₁ (by unfold parseAndHandle; rw [hparse₁]; rfl) (houter _)
      henv₁ hid₁
    have hsame := hsent₁.2.trans hsent₀.2.symm
    rw [hsame] at hbody₁
    exact absurd hbody₁ (by decide)
  · intro hrec hr' hdr' env' plain' sent' hc' hsent' _ henv hid
    obtain ⟨-, hsize, -, -, z, hz⟩ := hc.recordsz_eq hlen
    obtain ⟨-, hsize', -, -, z', hz'⟩ := hc'.recordsz_eq hlen
    have hnil : plain = [] := List.eq_nil_of_length_eq_zero (by omega)
    have hnil' : plain' = [] := by
      rw [hsize, hsize', SecretboxHeader.wiresize, SecretboxHeader.wiresize, hid] at henv
      exact List.eq_nil_of_length_eq_zero (by omega)
    subst hnil hnil'
    rw [parseAndHandle_inl (hc.parse_nil hsm) hsent, parseAndHandle_inl (hc'.parse_nil hsm) hsent']
    exact ⟨rfl, rfl⟩

end Carried

/-- libsodium at the key `00 01 .. 1f` and the nonce `00 01 .. 17`, for the envelopes of `/zz` and `/d`. -/
def leakSodium : Sodium :=
  Sodium.ofStream (fun _ _ i => ([124, 182, 96, 175, 221, 158, 198, 70, 143, 87, 221, 109, 36, 51, 249, 52, 40,
      253, 130, 205, 115, 134, 197, 71, 26, 36, 216, 173, 42, 82, 91, 110, 94, 255, 56, 79, 199, 202, 162, 16] :
      Bytes).getD i 0)
    (fun _ c => if c = [113, 133, 66, 77, 199, 202, 162, 16]
      then [185, 181, 94, 166, 193, 165, 152, 32, 181, 163, 130, 208, 90, 164, 86, 187]
      else [136, 155, 57, 58, 123, 213, 125, 243, 82, 3, 182, 49, 80, 9, 183, 212])
    fun _ _ _ => []

/-- A server with that key. -/
def leakServer : Server := ⟨leakSodium, libevent, some (oneSecret (bytes "k") (upTo 32)), false, []⟩

/-- `GET /fs123/7/3/e/..`. -/
def leakGet (b64 : Bytes) : HttpRequest :=
  ⟨bytes "/fs123/7/3/e/" ++ b64, .GET, some (bytes "fs123-secretbox"), none, []⟩

theorem leakGet_sameOuter (b64 b64' : Bytes) : SameOuter (leakGet b64) (leakGet b64') := ⟨rfl, rfl, rfl, rfl⟩

/-- The header of both envelopes, and what comes after it in each. -/
def leakHeader : SecretboxHeader := ⟨upTo 24, 24, bytes "k"⟩

@[inherit_doc leakHeader] def leakZz : Bytes :=
  [185, 181, 94, 166, 193, 165, 152, 32, 181, 163, 130, 208, 90, 164, 86, 187, 113, 133, 66, 77, 199, 202, 162, 16]

@[inherit_doc leakHeader] def leakD : Bytes :=
  [136, 155, 57, 58, 123, 213, 125, 243, 82, 3, 182, 49, 80, 9, 183, 212, 113, 155, 58, 79, 199, 202, 162, 16]

/-- The two requests. -/
def getZz : HttpRequest :=
  leakGet (bytes "AAECAwQFBgcICQoLDA0ODxAREhMUFRYXAAAAGAFrubVepsGlmCC1o4LQWqRWu3GFQk3HyqIQ")

@[inherit_doc getZz] def getD : HttpRequest :=
  leakGet (bytes "AAECAwQFBgcICQoLDA0ODxAREhMUFRYXAAAAGAFriJs5OnvVffNSA7YxUAm31HGbOk/HyqIQ")

set_option maxRecDepth 4000 in
private theorem carried_zz : Carried leakServer (oneSecret (bytes "k") (upTo 32)) getZz 3 leakHeader
    (leakHeader.wire ++ leakZz) (bytes "/zz") where
  path := ⟨_, rfl, rfl, rfl, rfl, rfl, rfl⟩
  header := rfl
  opened := ⟨_, _, rfl, rfl⟩

set_option maxRecDepth 4000 in
private theorem carried_d : Carried leakServer (oneSecret (bytes "k") (upTo 32)) getD 3 leakHeader
    (leakHeader.wire ++ leakD) (bytes "/d") where
  path := ⟨_, rfl, rfl, rfl, rfl, rfl, rfl⟩
  header := rfl
  opened := ⟨_, _, rfl, rfl⟩

/-- The replies to them. -/
def sentZz : Sent :=
  ⟨400, [], bytes "Unknown fs123 /function: zz uri_path: " ++ getZz.uri ++ bytes ": 400 Bad Request" ++ [ch '\n']⟩

@[inherit_doc sentZz] def sentD : Sent :=
  ⟨400, [], bytes "failed to parse query in /d...?: 400 Bad Request" ++ [ch '\n']
    ++ bytes "scanint: error occured at pos=0 sv[pos...]: " ++ [ch '\n']
    ++ bytes "scanint<base=0>(start=0, sv.size=0)" ++ [ch '\n']⟩

set_option maxRecDepth 4000 in
private theorem refused_zz : parseAndHandle leakServer getZz = .ok (.inl sentZz) := by rfl

set_option maxRecDepth 4000 in
private theorem refused_d : parseAndHandle leakServer getD = .ok (.inl sentD) := by rfl

/-- The reply to `/zz` could be told from others. -/
theorem uniform_refusal_iff_zz :
    ¬ UniformRefusal leakServer (oneSecret (bytes "k") (upTo 32)) getZz 3 leakHeader
      (leakHeader.wire ++ leakZz) sentZz := by
  have hna : leakSodium.Lawful := Sodium.ofStream_lawful _ _ _
  have hlen : leakSodium.OpenLength := Sodium.ofStream_openLength _ _ _
  rw [uniform_refusal_iff libevent_lawful hna hlen rfl rfl carried_zz refused_zz]
  decide

/-- Two requests that look alike are answered with different texts, and one of them quotes its function. -/
theorem refusal_leaks :
    Carried leakServer (oneSecret (bytes "k") (upTo 32)) getZz 3 leakHeader (leakHeader.wire ++ leakZz) (bytes "/zz")
      ∧ Carried leakServer (oneSecret (bytes "k") (upTo 32)) getD 3 leakHeader (leakHeader.wire ++ leakD) (bytes "/d")
      ∧ SameOuter getZz getD ∧ (leakHeader.wire ++ leakD).length = (leakHeader.wire ++ leakZz).length
      ∧ parseAndHandle leakServer getZz = .ok (.inl sentZz) ∧ parseAndHandle leakServer getD = .ok (.inl sentD)
      ∧ sentD.body ≠ sentZz.body ∧ bytes "zz" <:+: sentZz.body :=
  ⟨carried_zz, carried_d, leakGet_sameOuter _ _, by decide, refused_zz, refused_d, by decide,
    by decide⟩

end Fs123
