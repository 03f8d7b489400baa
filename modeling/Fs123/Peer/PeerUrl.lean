import Fs123.Client.ReplyTimes
import Fs123.Server.RequestTransport

/-!
# The url that is passed on to a peer

The model of the forwarding in `distrib_cache_backend::refresh` and of `peer_handler_t::p`, up to the
request that the peer's backend is given. The path of a url is %-decoded by the peer's server, and `p`
escapes it again with the same `urlescape` that the names in a stem were escaped with. The query is taken as
it is. An encrypted stem has not been escaped: it is the alphabet of base64 that decides whether it stays
what it was (`urlstem_preserved_iff`).
-/

namespace Fs123

open Cxx

/-! ## The two peers -/

/-- `peer_handler_t::VERSION`. -/
def peerVersion : Bytes := bytes "/1"

/-- The `urlstem` that a request is passed on with. -/
def forwardedStem (urlstem : Bytes) : Bytes := bytes "/p" ++ peerVersion ++ urlstem

/-- What `peer_handler_t::p` does with a request. -/
inductive PeerHandling where
  /-- It calls `server_backend->refresh`. The reply that it hands over has this `etag64`, and is valid, unless
  it is 0. -/
  | refresh (myreq : BackendReq) (etag64 : ℕ)
  /-- It replies with the uuid. -/
  | uuid

/-- `peer_handler_t::p(req, etag64, ..)`. The query is null if the uri has none. An `exception_reply` is an error
here. -/
def peerHandlerP (defaults : ReqDefaults) (pathInfo : Bytes) (query : Option Bytes) (etag64 : ℕ) :
    Res PeerHandling :=
  let versionedUrl := urlescape pathInfo
  if ¬ startswith versionedUrl peerVersion then httpthrow 400 (bytes "Incorrect /p/sub-version")
  else
    let versionedUrl := versionedUrl ++ ReqConfig.queryPartText query
    let myreq : BackendReq :=
      { BackendReq.ofStem defaults (versionedUrl.drop peerVersion.length) with noPeerCache := true }
    if startswith myreq.urlstem (bytes "/p") then
      if myreq.urlstem = bytes "/p/uuid" then .ok .uuid
      else httpthrow 404 (bytes "Unknown /p request: " ++ myreq.urlstem)
    else .ok (.refresh myreq etag64)

/-- The request reaches `p`, and the backend of the peer is asked for the stem. -/
def StemPreserved (svr : Server) (defaults : ReqDefaults) (hr : HttpRequest) (stem : Bytes) : Prop :=
  ∃ r inm64 myreq, parseAndHandle svr hr = .ok (.inr (r, .p inm64 hr.body))
    ∧ peerHandlerP defaults r.pathInfo (svr.ev.uriQuery hr.uri) inm64 = .ok (.refresh myreq inm64)
    ∧ myreq.urlstem = stem

/-- A client builds a request and passes its stem on to a peer. -/
structure Forwarding (cl : Client) (svr : Server) (cfg : ReqConfig) (pfx : Bytes) (req : Request)
    (stem : Bytes) (hr : HttpRequest) : Prop where
  minor : cfg.protoMinor = 2 ∨ cfg.protoMinor = 3
  built : cl.encryptRequest (cfg.urlstem req) = .ok stem
  url : UrlPrefix pfx
  uri : ∃ base, cfg.addSigilVersion pfx = .ok base ∧ hr.uri = cstr (base ++ forwardedStem stem)
  ev : svr.ev.Lawful
  na : cl.na.Lawful
  esid : ∃ esid, svr.encodeSid = .ok esid

/-! ## Escaping again -/

theorem urlescape_append (a b : Bytes) : urlescape (a ++ b) = urlescape a ++ urlescape b :=
  List.flatMap_append

theorem urlescape_injective : Function.Injective urlescape :=
  Function.LeftInverse.injective percentDecode_urlescape

theorem urlescape_peerVersion : urlescape peerVersion = peerVersion := by decide

/-- A stem that begins with a function other than `/p` goes to the backend. -/
theorem peerHandlerP_eq {defaults : ReqDefaults} {x : Bytes} {query : Option Bytes} {etag64 : ℕ}
    (hx : startswith (urlescape x ++ ReqConfig.queryPartText query) (bytes "/p") = false) :
    peerHandlerP defaults (peerVersion ++ x) query etag64
      = .ok (.refresh { BackendReq.ofStem defaults (urlescape x ++ ReqConfig.queryPartText query) with
        noPeerCache := true } etag64) := by
  have hstart : startswith (peerVersion ++ urlescape x) peerVersion = true :=
    List.isPrefixOf_iff_prefix.mpr (List.prefix_append _ _)
  unfold peerHandlerP
  rw [urlescape_append, urlescape_peerVersion]
  dsimp only
  rw [if_neg (not_not.mpr hstart), List.append_assoc, List.drop_left, if_neg]
  rw [BackendReq.ofStem, hx]
  decide

/-- A path and a query can be told apart. -/
theorem append_queryPartText_inj {a b : Bytes} {q q' : Option Bytes} (ha : Ordinary a) (hb : Ordinary b) :
    a ++ ReqConfig.queryPartText q = b ++ ReqConfig.queryPartText q' ↔ a = b ∧ q = q' := by
  constructor
  · intro h
    have hpath := congrArg pathPart h
    rw [pathPart_append ha, pathPart_append hb] at hpath
    refine ⟨hpath, ?_⟩
    rw [hpath, List.append_cancel_left_eq] at h
    cases q with
    | none =>
      cases q' with
      | none => rfl
      | some q' => simp [ReqConfig.queryPartText] at h
    | some q =>
      cases q' with
      | none => simp [ReqConfig.queryPartText] at h
      | some q' => simpa [ReqConfig.queryPartText] using h
  · rintro ⟨rfl, rfl⟩
    rfl

/-- What `urlescape` keeps of the alphabet of base64. -/
theorem urlescape_encodeLoop_iff (data : Bytes) :
    urlescape (encodeLoop data) = encodeLoop data
      ↔ ch '+' ∉ encodeLoop data ∧ ch '=' ∉ encodeLoop data := by
  have hsextet : ∀ n < 64, urlSafe (sextet n) = true ∨ sextet n = ch '+' := by
    intro n hn
    interval_cases n <;> decide
  rw [urlescape_eq_self_iff]
  constructor
  · intro h
    refine ⟨fun hmem => ?_, fun hmem => ?_⟩
    · exact absurd (h _ hmem) (by decide)
    · exact absurd (h _ hmem) (by decide)
  · rintro ⟨hplus, hpad⟩ c hc
    rcases mem_encodeLoop hc with ⟨n, hn, rfl⟩ | rfl
    · rcases hsextet n hn with h | h
      · exact h
      · exact absurd (h ▸ hc) hplus
    · exact absurd hc hpad

theorem cstr_eq_self_iff (s : Bytes) : cstr s = s ↔ 0 ∉ s := by
  constructor
  · intro h hmem
    rw [← h] at hmem
    simpa using List.mem_takeWhile_imp hmem
  · exact cstr_eq_self

theorem wireCut_eq_self_iff (q : Bytes) : wireCut q = q ↔ 0 ∉ q ∧ ch '#' ∉ q := by
  constructor
  · intro h
    constructor
    · intro hmem
      rw [← h] at hmem
      simpa using List.mem_takeWhile_imp hmem
    · intro hmem
      rw [← h] at hmem
      simpa using List.mem_takeWhile_imp hmem
  · rintro ⟨h0, hf⟩
    exact wireCut_eq_self h0 hf

/-! ## What the backend of the peer is asked for -/

namespace Forwarding

variable {cl : Client} {svr : Server} {cfg : ReqConfig} {pfx : Bytes} {req : Request} {stem : Bytes}
  {hr : HttpRequest}

/-- A stem is preserved exactly if decoding its path and escaping the result leads back to the path, and
nothing of its query is lost on the way. -/
theorem preserved_iff_parts (h : Forwarding cl svr cfg pfx req stem hr) (defaults : ReqDefaults)
    {y x : Bytes} {l : UInt8} {q : Option Bytes} (hstem : stem = y ++ ReqConfig.queryPartText q)
    (hy : Ordinary y) (hdec : cstr (percentDecode y) = ch '/' :: l :: x) (hl : urlSafe l = true)
    (hlp : l ≠ ch 'p') :
    StemPreserved svr defaults hr stem ↔ urlescape (ch '/' :: l :: x) = y ∧ q.map wireCut = q := by
  obtain ⟨base, hbase, huri⟩ := h.uri
  have hb := h.url.base hbase
  have hlead : Ordinary (bytes "/p" ++ peerVersion) := ⟨by decide, by decide, by decide⟩
  obtain ⟨hpath, hquery, -, -⟩ := hb.url_parts (q := q) h.ev (hlead.append hy)
    (by rw [huri, forwardedStem, hstem]; simp only [List.append_assoc])
  have hdecoded : cstr (svr.ev.uridecode (svr.ev.uriPath hr.uri))
      = pfx ++ (sigil ++ (decimal cfg.protoMinor ++ ch '/' :: ch 'p' :: (peerVersion ++ ch '/' :: l :: x))) := by
    have hno : ch '%' ∉ base ++ (bytes "/p" ++ peerVersion) := by
      rw [List.mem_append, not_or]
      exact ⟨hb.no_percent, by decide⟩
    rw [hpath, h.ev.uridecode, ← List.append_assoc, percentDecode_append_of_not_mem hno,
      cstr_append (hb.ordinary.append hlead).2.2, hdec, hb.eq,
      show bytes "/p" = [ch '/', ch 'p'] by decide]
    simp
  have hparse := Req.parsePath_eq hb.selector h.minor (show ch 'p' ≠ ch '/' by decide)
    (Or.inr rfl) hdecoded
  obtain ⟨r₁, hr₁⟩ : ∃ r₁ : Req, r₁ = { Req.ofHttp hr with
    protoMinor := cfg.protoMinor, function := [ch 'p'], pathInfo := peerVersion ++ ch '/' :: l :: x } :=
    ⟨_, rfl⟩
  rw [← hr₁] at hparse
  obtain ⟨esid, hesid⟩ := h.esid
  obtain ⟨inm64, hinm⟩ := inmDemangle_ok (Req.headInm hr) esid
  have hcall := Req.parse_eq_p hparse (by rw [hr₁]; rfl) hesid hinm
  have hfun : startswith (urlescape (ch '/' :: l :: x) ++ ReqConfig.queryPartText (q.map wireCut))
      (bytes "/p") = false := by
    have hesc : escapeByte l = [l] := by rw [escapeByte, if_pos hl]
    rw [urlescape_cons, urlescape_cons, hesc, show escapeByte (ch '/') = [ch '/'] by decide,
      show bytes "/p" = [ch '/', ch 'p'] by decide]
    simp [startswith, List.isPrefixOf, Ne.symm hlp]
  have hp := @peerHandlerP_eq defaults _ _ inm64 hfun
  have hiff : StemPreserved svr defaults hr stem
      ↔ urlescape (ch '/' :: l :: x) ++ ReqConfig.queryPartText (q.map wireCut) = stem := by
    constructor
    · rintro ⟨r, inm64', myreq, hr', hmyreq, rfl⟩
      rw [parseAndHandle_inr_iff, hcall, Except.ok.injEq, Prod.mk.injEq] at hr'
      rw [← hr'.1, hquery, hr₁] at hmyreq
      obtain rfl : inm64 = inm64' := by simpa using hr'.2
      rw [hp, Except.ok.injEq, PeerHandling.refresh.injEq] at hmyreq
      rw [← hmyreq.1, BackendReq.ofStem]
    · intro heq
      refine ⟨_, inm64, { BackendReq.ofStem defaults _ with noPeerCache := true }, parseAndHandle_inr_iff.mpr hcall, ?_, heq⟩
      rw [hquery, hr₁]
      exact hp
  rw [hiff, hstem]
  exact append_queryPartText_inj (ordinary_urlescape _) hy

/-- A plain stem loses what the url loses on the way: the rest of a name behind a NUL, and the rest of a
directory chunk's start that is not escaped. -/
theorem plain_iff (h : Forwarding cl svr cfg pfx req stem hr) (defaults : ReqDefaults)
    (henc : cl.encryptRequests = false) :
    StemPreserved svr defaults hr stem
      ↔ 0 ∉ req.name ∧ (cfg.protoMinor = 2 → 0 ∉ req.chunkstart ∧ ch '#' ∉ req.chunkstart) := by
  have hstem : stem = ch '/' :: req.letter :: urlescape req.name
      ++ ReqConfig.queryPartText (cfg.queryText req) := by
    have hbuilt := h.built
    unfold Client.encryptRequest at hbuilt
    rw [henc, if_neg (by decide), Except.ok.injEq] at hbuilt
    rw [← hbuilt, ReqConfig.urlstem_eq]
    rfl
  have hletter : urlSafe req.letter = true := by cases req <;> rfl
  have hesc : ∀ name, urlescape (ch '/' :: req.letter :: name) = ch '/' :: req.letter :: urlescape name := by
    intro name
    have hl : escapeByte req.letter = [req.letter] := by rw [escapeByte, if_pos hletter]
    rw [urlescape_cons, urlescape_cons, hl, show escapeByte (ch '/') = [ch '/'] by decide]
    rfl
  have hdec : cstr (percentDecode (ch '/' :: req.letter :: urlescape req.name))
      = ch '/' :: req.letter :: cstr req.name := by
    have hnul : (0 : UInt8) ∉ [ch '/', req.letter] := by
      simp only [List.mem_cons, List.not_mem_nil, or_false, not_or]
      exact ⟨by decide, (req.letter_ne (by decide)).symm⟩
    rw [← hesc, percentDecode_urlescape]
    exact cstr_append hnul req.name
  have hord : Ordinary (ch '/' :: req.letter :: urlescape req.name) := hesc _ ▸ ordinary_urlescape _
  rw [h.preserved_iff_parts defaults hstem hord hdec hletter (req.letter_ne (by decide)), ← hesc,
    urlescape_injective.eq_iff, List.cons_inj_right, List.cons_inj_right, cstr_eq_self_iff]
  apply and_congr_right'
  cases hq : cfg.queryText req with
  | none =>
    obtain ⟨-, hchunk⟩ := ReqConfig.queryText_eq_none hq
    simp [hchunk]
  | some q =>
    have hmem : ∀ c, c = 0 ∨ c = ch '#' → (c ∈ q ↔ cfg.protoMinor = 2 ∧ c ∈ req.chunkstart) := by
      rintro c (rfl | rfl)
      · exact ReqConfig.mem_queryText_iff (by decide) (by decide) (by decide) (by decide) h.minor hq
      · exact ReqConfig.mem_queryText_iff (by decide) (by decide) (by decide) (by decide) h.minor hq
    rw [Option.map_some, Option.some.injEq, wireCut_eq_self_iff, hmem 0 (Or.inl rfl),
      hmem (ch '#') (Or.inr rfl)]
    tauto

/-- An encrypted stem is preserved exactly if there is nothing in it that `p` escapes. -/
theorem encrypted_iff (h : Forwarding cl svr cfg pfx req stem hr) (defaults : ReqDefaults)
    (henc : cl.encryptRequests = true) :
    StemPreserved svr defaults hr stem ↔ ch '+' ∉ stem ∧ ch '=' ∉ stem := by
  obtain ⟨sm, sid, secret, nonce, -, -, -, -, -, -, -, -, hstem⟩ :=
    Client.encryptRequest_eq_ok h.na henc h.built
  obtain ⟨data, hdata⟩ : ∃ data, data = envelope cl.na sid secret nonce requestPadding
    (cfg.urlstem req) := ⟨_, rfl⟩
  rw [← hdata] at hstem
  have hlead : Ordinary (bytes "/e/") := ⟨by decide, by decide, by decide⟩
  have hord : Ordinary (bytes "/e/" ++ encodeLoop data) := hlead.append (ordinary_encodeLoop _)
  have hno : ch '%' ∉ bytes "/e/" ++ encodeLoop data := by
    rw [List.mem_append, not_or]
    exact ⟨by decide, not_mem_encodeLoop _ (by simp)⟩
  have hcons : bytes "/e/" ++ encodeLoop data = ch '/' :: ch 'e' :: (ch '/' :: encodeLoop data) := by
    rw [show bytes "/e/" = [ch '/', ch 'e', ch '/'] by decide]
    rfl
  have hdec : cstr (percentDecode (bytes "/e/" ++ encodeLoop data))
      = ch '/' :: ch 'e' :: (ch '/' :: encodeLoop data) := by
    rw [percentDecode_eq_self hno, cstr_eq_self hord.2.2, hcons]
  rw [h.preserved_iff_parts defaults (q := none) (by rw [hstem, ReqConfig.queryPartText, List.append_nil])
    hord hdec (by decide) (by decide), ← hcons, urlescape_append,
    show urlescape (bytes "/e/") = bytes "/e/" by decide, List.append_cancel_left_eq,
    urlescape_encodeLoop_iff, hstem]
  have hlead : ∀ c, c ∉ bytes "/e/" → (c ∈ bytes "/e/" ++ encodeLoop data ↔ c ∈ encodeLoop data) := by
    intro c hc
    rw [List.mem_append, or_iff_right hc]
  rw [hlead _ (by decide), hlead _ (by decide)]
  simp

end Forwarding

/-- The peer's backend is asked for the stem that was passed on exactly if the envelope, when there is one,
has neither a plus sign nor padding in it, and the url of a plain request is not cut. -/
theorem urlstem_preserved_iff {cl : Client} {svr : Server} {cfg : ReqConfig} {pfx : Bytes} {req : Request}
    {stem : Bytes} {hr : HttpRequest} (h : Forwarding cl svr cfg pfx req stem hr) (defaults : ReqDefaults) :
    StemPreserved svr defaults hr stem
      ↔ (cl.encryptRequests = true → ch '+' ∉ stem ∧ ch '=' ∉ stem)
        ∧ (cl.encryptRequests = false → 0 ∉ req.name
          ∧ (cfg.protoMinor = 2 → 0 ∉ req.chunkstart ∧ ch '#' ∉ req.chunkstart)) := by
  cases henc : cl.encryptRequests with
  | false => simpa using h.plain_iff defaults henc
  | true => simpa using h.encrypted_iff defaults henc

/-- The values that a `req123` starts with. -/
def defaultOptions : ReqDefaults := ⟨0, 0⟩

/-- A name that needs escapes, with a cachetag, gets to the peer's backend as it was. -/
theorem urlstem_preserved_plain :
    StemPreserved plainServer defaultOptions (plainGet (bytes "/fs123/7/3/p/1/a/50%25%20off?7"))
      (bytes "/a/50%25%20off?7") := by
  have hf : Forwarding plainEnd plainServer ⟨3, 7⟩ [] (.attr (bytes "/50% off")) (bytes "/a/50%25%20off?7")
      (plainGet (bytes "/fs123/7/3/p/1/a/50%25%20off?7")) := {
    minor := Or.inr rfl
    built := by decide
    url := ⟨by simp, ⟨by decide, by decide⟩⟩
    uri := ⟨bytes "/fs123/7/3", by decide, by decide⟩
    ev := libevent_lawful
    na := Sodium.ofTable_lawful _ _ _
    esid := ⟨[], rfl⟩ }
  exact (urlstem_preserved_iff hf defaultOptions).mpr ⟨by decide, by decide⟩

/-- libsodium at the first half of the key `00 01 .. 3f` and the message `/a/etc/passwd`, whose nonce is its
hash under the second half. -/
def passwdSodium : Sodium := Sodium.ofTable
  [98, 45, 163, 234, 123, 129, 242, 255, 185, 184, 116, 246, 192, 86, 98, 54, 156, 68, 99, 63, 30, 135, 71,
    255, 51, 7, 137, 184, 206, 215, 241, 189, 47, 218, 25, 195, 140, 125, 99, 174, 240, 76, 31, 27, 49, 139,
    133, 20]
  [228, 169, 236, 117, 89, 25, 1, 193, 36, 65, 169, 240, 14, 29, 140, 224]
  [125, 43, 175, 129, 60, 112, 189, 220, 84, 230, 237, 104, 181, 146, 219, 75, 213, 147, 20, 103, 181, 144,
    147, 118]

/-- A client that encrypts its requests. -/
def passwdClient : Client := ⟨passwdSodium, some (oneSecret (bytes "k") (upTo 64)), true, true⟩

/-- The envelope of `/a/etc/passwd`. -/
def passwdStem : Bytes :=
  bytes "/e/fSuvgTxwvdxU5u1otZLbS9WTFGe1kJN2AAAAIAFr5KnsdVkZAcEkQanwDh2M4AC7Nqb4HkzekT9sbFWJhRQ="

theorem passwdStem_eq :
    passwdClient.encryptRequest (ReqConfig.urlstem ⟨3, 0⟩ (.attr (bytes "/etc/passwd"))) = .ok passwdStem := by
  decide +kernel

/-- A padded envelope is escaped, and the peer's backend is asked for another stem. -/
theorem envelope_not_preserved :
    Forwarding passwdClient plainServer ⟨3, 0⟩ [] (.attr (bytes "/etc/passwd")) passwdStem
        (plainGet (bytes "/fs123/7/3/p/1" ++ passwdStem))
      ∧ ¬ StemPreserved plainServer defaultOptions (plainGet (bytes "/fs123/7/3/p/1" ++ passwdStem))
        passwdStem := by
  have hf : Forwarding passwdClient plainServer ⟨3, 0⟩ [] (.attr (bytes "/etc/passwd")) passwdStem
      (plainGet (bytes "/fs123/7/3/p/1" ++ passwdStem)) := {
    minor := Or.inr rfl
    built := passwdStem_eq
    url := ⟨by simp, ⟨by decide, by decide⟩⟩
    uri := ⟨bytes "/fs123/7/3", by decide, by decide⟩
    ev := libevent_lawful
    na := Sodium.ofTable_lawful _ _ _
    esid := ⟨[], rfl⟩ }
  refine ⟨hf, ?_⟩
  rw [hf.encrypted_iff defaultOptions rfl]
  decide

end Fs123
