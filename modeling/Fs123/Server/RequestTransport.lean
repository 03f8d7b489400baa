import Fs123.Client.Requests
import Fs123.Server.DispatchSpec
import Mathlib.Data.List.TakeWhile

/-!
# The transport of a request

What becomes of a request between the client's builders and the server's handlers. A plain request is
escaped by the client, cut at a NUL and a `#` on its way, split by the http library, and %-decoded by the
server. An encrypted request travels in an envelope and is taken apart as it is.

`Delivered` says that the handler gets what the request was built from. `Request.Survives` is the exact
condition for that.
-/

namespace Fs123

open Cxx

/-! ## The two ends -/

namespace Request

/-- The handler call that a request is built for. -/
def call (inm64 : ℕ) : Request → HandlerCall
  | .attr _ => .a
  | .dir _ _ chunkstart => .d inm64 chunkstart
  | .file _ ckib chunkstartkib => .f inm64 (ckib * 1024) (chunkstartkib.toNat * 1024)
  | .link _ => .l
  | .statfs _ => .s
  | .xattr _ ckib attrname => .x (ckib * 1024) (attrname.getD [])
  | .stats => .n

/-- The start of the directory chunk that is asked for. -/
def chunkstart : Request → Bytes
  | .dir _ _ chunkstart => chunkstart
  | _ => []

/-- The free text in the query. -/
def argument : Request → Bytes
  | .dir _ _ chunkstart => chunkstart
  | .xattr _ _ attrname => attrname.getD []
  | _ => []

/-- The limits that the server checks, and what the argument types of the builders promise. -/
def WithinLimits : Request → Prop
  | .dir _ ckib _ => ckib ≤ maxReplySize / 1024
  | .file _ ckib chunkstartkib =>
    ckib ≤ maxReplySize / 1024 ∧ 0 ≤ chunkstartkib ∧ chunkstartkib ≤ (2 ^ 64 - 1) / 1024
  | .xattr _ ckib attrname => ckib ≤ maxReplySize / 1024 ∧ 0 ∉ attrname.getD []
  | _ => True

/-- A request for a name that is empty or starts with a slash, has no NUL and no `..`. -/
structure Wf (req : Request) : Prop where
  form : PathForm req.name
  no_nul : 0 ∉ req.name
  no_dotdot : ¬ HasDotDot req.name
  within : req.WithinLimits

end Request

/-- The handler is called with the function, the path and the arguments of the request, and with the
`If-None-Match` that came with it. -/
def Delivered (svr : Server) (hr : HttpRequest) (req : Request) : Prop :=
  ∃ r inm64 esid, svr.encodeSid = .ok esid ∧ inmDemangle (Req.headInm hr) esid = .ok inm64
    ∧ parseAndHandle svr hr = .ok (.inr (r, req.call inm64))
    ∧ r.function = [req.letter] ∧ r.pathInfo = req.name

theorem parseAndHandle_inr_iff {svr : Server} {hr : HttpRequest} {x : Req × HandlerCall} :
    parseAndHandle svr hr = .ok (.inr x) ↔ Req.parse svr hr = .ok x := by
  unfold parseAndHandle
  rw [catchE_eq_ok_iff (by simp), bind_eq_ok_iff]
  simp

/-! ## What is left of a query on the way -/

/-- A plain query as the server sees it: cut at a NUL, since the url is a C string, and at a `#`. -/
def wireCut (q : Bytes) : Bytes := q.takeWhile fun c => c ≠ ch '#' && c ≠ 0

theorem takeWhile_cstr (q : Bytes) : (cstr q).takeWhile (· ≠ ch '#') = wireCut q := by
  unfold cstr wireCut
  rw [List.takeWhile_takeWhile]
  congr 1
  funext c
  simp

theorem wireCut_append {a : Bytes} (h0 : 0 ∉ a) (hf : ch '#' ∉ a) (b : Bytes) :
    wireCut (a ++ b) = a ++ wireCut b := by
  unfold wireCut
  apply List.takeWhile_append_of_pos
  intro c hc
  have h1 : c ≠ ch '#' := fun h => hf (h ▸ hc)
  have h2 : c ≠ 0 := fun h => h0 (h ▸ hc)
  simp [h1, h2]

theorem wireCut_eq_self {a : Bytes} (h0 : 0 ∉ a) (hf : ch '#' ∉ a) : wireCut a = a := by
  have h := wireCut_append h0 hf []
  simpa [wireCut] using h

/-- A text with a NUL or a `#` arrives shorter than it was, whatever follows it. -/
theorem wireCut_length_lt {a : Bytes} (h : 0 ∈ a ∨ ch '#' ∈ a) (b : Bytes) :
    (wireCut (a ++ b)).length < a.length := by
  induction a with
  | nil => simp at h
  | cons c a ih =>
    unfold wireCut at ih ⊢
    rw [List.cons_append, List.takeWhile_cons]
    by_cases hc : c = ch '#' ∨ c = 0
    · rw [if_neg (by rcases hc with rfl | rfl <;> simp)]
      simp
    · rw [not_or] at hc
      rw [if_pos (by simp [hc]), List.length_cons, List.length_cons]
      apply Nat.succ_lt_succ
      apply ih
      simp only [List.mem_cons] at h
      rcases h with (h | h) | (h | h)
      · exact absurd h.symm hc.2
      · exact Or.inl h
      · exact absurd h.symm hc.1
      · exact Or.inr h

namespace ReqConfig

variable {cfg : ReqConfig}

theorem tag_eq_nil_iff : cfg.tag = [] ↔ cfg.cachetag = 0 := by
  unfold tag
  split
  · next h => simp [h]
  · next h => simp [not_not.mp h]

theorem endsNumber_tag : EndsNumber cfg.tag := by
  unfold tag
  split
  · exact endsNumber_semicolon _
  · exact EndsNumber.nil

/-- A cachetag is made of a semicolon and digits. -/
theorem not_mem_tag {c : UInt8} (hc : digitcvt 10 c = 10) (hs : c ≠ ch ';') : c ∉ cfg.tag := by
  unfold tag
  split
  · rw [List.mem_cons, not_or]
    exact ⟨hs, not_mem_decimal hc _⟩
  · simp

/-- The start of a chunk, sent as it is, survives the server's decoding if there is nothing to decode and
no cachetag behind it. -/
theorem urlunescape_tag_iff (chunkstart : Bytes) :
    urlunescape (chunkstart ++ cfg.tag) = .ok chunkstart ↔ cfg.cachetag = 0 ∧ ch '%' ∉ chunkstart := by
  rw [← tag_eq_nil_iff]
  constructor
  · intro h
    have htag : cfg.tag = [] := by
      by_contra hne
      -- The semicolon of the tag would have to disappear.
      have hcount := urlunescape_count (c := ch ';') (by decide) (by decide) h
      have hone : 1 ≤ cfg.tag.count (ch ';') := by
        rw [List.one_le_count_iff]
        unfold tag at hne ⊢
        split
        · simp
        · next h0 => simp [h0] at hne
      rw [List.count_append] at hcount
      omega
    rw [htag, List.append_nil] at h
    exact ⟨htag, (urlunescape_eq_self_iff chunkstart).mp h⟩
  · intro h
    rw [h.1, List.append_nil]
    exact (urlunescape_eq_self_iff chunkstart).mpr h.2

theorem urlunescape_wireCut_iff (chunkstart : Bytes) :
    urlunescape (wireCut (chunkstart ++ cfg.tag)) = .ok chunkstart
      ↔ cfg.cachetag = 0 ∧ ch '%' ∉ chunkstart ∧ 0 ∉ chunkstart ∧ ch '#' ∉ chunkstart := by
  by_cases hcut : 0 ∈ chunkstart ∨ ch '#' ∈ chunkstart
  · constructor
    · intro h
      have hlt := wireCut_length_lt hcut cfg.tag
      have hle := (urlunescape_length h).1
      omega
    · intro h
      rcases hcut with hc | hc
      · exact absurd hc h.2.2.1
      · exact absurd hc h.2.2.2
  · rw [not_or] at hcut
    have htag : wireCut cfg.tag = cfg.tag :=
      wireCut_eq_self (not_mem_tag (by decide) (by decide)) (not_mem_tag (by decide) (by decide))
    rw [wireCut_append hcut.1 hcut.2, htag, urlunescape_tag_iff]
    simp [hcut.1, hcut.2]

/-- An escaped start with a cachetag behind it is decoded with the cachetag. -/
theorem urlunescape_urlescape_tag_iff (chunkstart : Bytes) :
    urlunescape (urlescape chunkstart ++ cfg.tag) = .ok chunkstart ↔ cfg.cachetag = 0 := by
  have htag : urlunescape cfg.tag = .ok cfg.tag :=
    (urlunescape_eq_self_iff _).mpr (not_mem_tag (by decide) (by decide))
  rw [urlunescape_urlescape_append chunkstart htag, Except.ok.injEq, List.append_right_eq_self,
    tag_eq_nil_iff]

end ReqConfig

/-! ## The dispatch -/

/-- What the query needs to get to the handler, in an envelope or not. Up to 7.2 the start of a directory
chunk is not escaped, and a cachetag behind it is taken for a part of it. The longest file request leaves
no space for the validator. -/
def Request.QuerySurvives (encrypted : Bool) (cfg : ReqConfig) : Request → Prop
  | .dir _ _ chunkstart =>
    (cfg.cachetag = 0 ∨ (cfg.protoMinor = 2 ∧ chunkstart = []))
      ∧ (cfg.protoMinor = 2 → ch '%' ∉ chunkstart
        ∧ (encrypted = false → 0 ∉ chunkstart ∧ ch '#' ∉ chunkstart))
  | .file _ ckib _ => ckib ≤ 1024
  | _ => True

/-- The query that the server sees of one that was sent. -/
def wireQuery (encrypted : Bool) (q : Bytes) : Bytes := if encrypted then q else wireCut q

theorem wireQuery_append (encrypted : Bool) {a : Bytes} (h0 : 0 ∉ a) (hf : ch '#' ∉ a) (b : Bytes) :
    wireQuery encrypted (a ++ b) = a ++ wireQuery encrypted b := by
  cases encrypted with
  | false => exact wireCut_append h0 hf b
  | true => rfl

theorem wireQuery_eq_self (encrypted : Bool) {a : Bytes} (h0 : 0 ∉ a) (hf : ch '#' ∉ a) :
    wireQuery encrypted a = a := by
  cases encrypted with
  | false => exact wireCut_eq_self h0 hf
  | true => rfl

theorem ReqConfig.wireQuery_tag {cfg : ReqConfig} (encrypted : Bool) :
    wireQuery encrypted cfg.tag = cfg.tag :=
  wireQuery_eq_self encrypted (not_mem_tag (by decide) (by decide)) (not_mem_tag (by decide) (by decide))

section Dispatch

variable {svr : Server} {hr : HttpRequest} {cfg : ReqConfig} {r : Req} {inm64 : ℕ} {encrypted : Bool}

theorem limit_eq : maxReplySize / 1024 = 1025 := by decide

/-- The length and the semicolon in front of a query are not cut. -/
theorem wireQuery_ckib (encrypted : Bool) (ckib : ℕ) (rest : Bytes) :
    wireQuery encrypted (decimal ckib ++ ch ';' :: rest)
      = decimal ckib ++ ch ';' :: wireQuery encrypted rest := by
  have hsemi : ∀ c, digitcvt 10 c = 10 → c ≠ ch ';' → c ∉ decimal ckib ++ [ch ';'] := by
    intro c hc hs
    rw [List.mem_append, not_or]
    exact ⟨not_mem_decimal hc ckib, by simpa using hs⟩
  have h := wireQuery_append encrypted (hsemi 0 (by decide) (by decide))
    (hsemi (ch '#') (by decide) (by decide)) rest
  simpa using h

theorem dispatch_dir_iff {name chunkstart : Bytes} {ckib : ℕ}
    (hminor : cfg.protoMinor = 2 ∨ cfg.protoMinor = 3)
    (hlimits : (Request.dir name ckib chunkstart).WithinLimits)
    (hfun : r.function = [ch 'd']) (hblob : r.blob = none) (hprot : r.protoMinor = cfg.protoMinor)
    (hlen : r.query.length < sizeMod)
    (hquery : r.query = wireQuery encrypted
      (decimal ckib ++ ch ';' :: (cfg.startText chunkstart ++ cfg.tag))) :
    (∃ r', r.dispatch svr hr inm64 = .ok (r', .d inm64 chunkstart))
      ↔ (Request.dir name ckib chunkstart).QuerySurvives encrypted cfg := by
  have hckib : ckib ≤ 1025 := limit_eq ▸ hlimits
  have hdir : r.dispatch svr hr inm64 = r.dispatchDir inm64 := by
    unfold Req.dispatch
    rw [if_neg (by rw [hfun]; decide), if_pos (by rw [hfun]; decide)]
  rw [hdir]
  rw [wireQuery_ckib] at hquery
  unfold ReqConfig.startText at hquery
  unfold Request.QuerySurvives
  rcases hminor with hm | hm
  · rw [if_pos (by omega)] at hquery
    have hp : r.protoMinor = 2 := by rw [hprot, hm]; rfl
    by_cases hnil : chunkstart = []
    · subst hnil
      rw [if_pos rfl, wireQuery_append encrypted (by decide) (by decide)] at hquery
      have h : ∃ r', r.dispatchDir inm64 = .ok (r', .d inm64 []) :=
        Req.dispatchDir_72_begin hp hblob hckib hlen hquery
      simp [hm, h]
    · rw [if_neg hnil, List.append_assoc, wireQuery_append encrypted (by decide) (by decide)] at hquery
      rw [Req.dispatchDir_72_iff chunkstart hp hblob hckib hlen hquery]
      cases encrypted with
      | false =>
        rw [show wireQuery false (chunkstart ++ cfg.tag) = wireCut (chunkstart ++ cfg.tag) from rfl,
          ReqConfig.urlunescape_wireCut_iff]
        simp [hm, hnil]
      | true =>
        rw [show wireQuery true (chunkstart ++ cfg.tag) = chunkstart ++ cfg.tag from rfl,
          ReqConfig.urlunescape_tag_iff]
        simp [hm, hnil]
  · rw [if_neg (by omega), wireQuery_append encrypted (not_mem_urlescape (by decide) (by decide) _)
      (not_mem_urlescape (by decide) (by decide) _), ReqConfig.wireQuery_tag] at hquery
    have hp : r.protoMinor = 3 := by rw [hprot, hm]; rfl
    rw [Req.dispatchDir_73_iff chunkstart hp hblob hckib hlen hquery,
      ReqConfig.urlunescape_urlescape_tag_iff]
    simp [hm]

theorem dispatch_file_iff {name : Bytes} {ckib : ℕ} {chunkstartkib : ℤ}
    (hlimits : (Request.file name ckib chunkstartkib).WithinLimits)
    (hfun : r.function = [ch 'f']) (hblob : r.blob = none)
    (hquery : r.query
      = wireQuery encrypted (decimal ckib ++ ch ';' :: (decimalInt chunkstartkib ++ cfg.tag))) :
    (∃ r', r.dispatch svr hr inm64 = .ok (r', (Request.file name ckib chunkstartkib).call inm64))
      ↔ ckib ≤ 1024 := by
  obtain ⟨hckib, hpos, hmax⟩ := hlimits
  rw [limit_eq] at hckib
  obtain ⟨start, rfl⟩ := Int.eq_ofNat_of_zero_le hpos
  have hfile : r.dispatch svr hr inm64 = r.dispatchFile inm64 := by
    unfold Req.dispatch
    rw [if_neg (by rw [hfun]; decide), if_neg (by rw [hfun]; decide), if_pos (by rw [hfun]; decide)]
  have hdec : decimalInt (start : ℤ) = decimal start := rfl
  rw [hdec, wireQuery_ckib, wireQuery_append encrypted (not_mem_decimal (by decide) _)
    (not_mem_decimal (by decide) _), ReqConfig.wireQuery_tag] at hquery
  rw [hfile]
  exact Req.dispatchFile_iff hblob hckib (by omega) ReqConfig.endsNumber_tag hquery

theorem dispatch_xattr {name : Bytes} {ckib : ℕ} {attrname : Option Bytes} (hl : svr.ev.Lawful)
    (hlimits : (Request.xattr name ckib attrname).WithinLimits) (hfun : r.function = [ch 'x'])
    (hquery : r.query = wireQuery encrypted
      (decimal ckib ++ ch ';' :: (urlescape (attrname.getD []) ++ ch ';' :: cfg.tag))) :
    r.dispatch svr hr inm64 = .ok (r, (Request.xattr name ckib attrname).call inm64) := by
  obtain ⟨hckib, hattr⟩ := hlimits
  rw [limit_eq] at hckib
  have hxattr : r.dispatch svr hr inm64 = r.dispatchXattr svr := by
    unfold Req.dispatch
    rw [if_neg (by rw [hfun]; decide), if_neg (by rw [hfun]; decide), if_neg (by rw [hfun]; decide),
      if_neg (by rw [hfun]; decide), if_neg (by rw [hfun]; decide), if_pos (by rw [hfun]; decide)]
  rw [wireQuery_ckib, wireQuery_append encrypted (not_mem_urlescape (by decide) (by decide) _)
    (not_mem_urlescape (by decide) (by decide) _), show ch ';' :: cfg.tag = [ch ';'] ++ cfg.tag from rfl,
    wireQuery_append encrypted (by decide) (by decide), ReqConfig.wireQuery_tag] at hquery
  rw [hxattr]
  exact Req.dispatchXattr_eq hl hckib hattr hquery

/-- The dispatch makes the call that the request was built for exactly if the query survives. -/
theorem dispatch_iff {req : Request} (hl : svr.ev.Lawful) (hminor : cfg.protoMinor = 2 ∨ cfg.protoMinor = 3)
    (hlimits : req.WithinLimits) (hfun : r.function = [req.letter]) (hblob : r.blob = none)
    (hprot : r.protoMinor = cfg.protoMinor) (hlen : r.query.length < sizeMod)
    (hquery : ∀ q, cfg.queryText req = some q → r.query = wireQuery encrypted q) :
    (∃ r', r.dispatch svr hr inm64 = .ok (r', req.call inm64)) ↔ req.QuerySurvives encrypted cfg := by
  cases req with
  | dir name ckib chunkstart =>
    exact dispatch_dir_iff hminor hlimits hfun hblob hprot hlen (hquery _ rfl)
  | file name ckib chunkstartkib => exact dispatch_file_iff hlimits hfun hblob (hquery _ rfl)
  | xattr name ckib attrname =>
    exact iff_of_true ⟨r, dispatch_xattr hl hlimits hfun (hquery _ rfl)⟩ trivial
  | attr name =>
    refine iff_of_true ⟨r, ?_⟩ trivial
    unfold Req.dispatch
    rw [if_pos (by rw [hfun]; rfl)]
    rfl
  | link name =>
    refine iff_of_true ⟨r, ?_⟩ trivial
    unfold Req.dispatch
    rw [hfun]
    rfl
  | statfs name =>
    refine iff_of_true ⟨r, ?_⟩ trivial
    unfold Req.dispatch
    rw [hfun]
    rfl
  | stats =>
    refine iff_of_true ⟨r, ?_⟩ trivial
    unfold Req.dispatch
    rw [hfun]
    rfl

end Dispatch

/-! ## The url -/

/-- The path part of a base url: no byte of it is special in a url, and a path follows it. -/
structure UrlPrefix (pfx : Bytes) : Prop where
  ordinary : ∀ c ∈ pfx, c ≠ ch '%' ∧ c ≠ ch '?' ∧ c ≠ ch '#' ∧ c ≠ 0
  origin : OriginForm (pfx ++ bytes "/fs123/")

theorem OriginForm.append {a : Bytes} (h : OriginForm a) (hlen : 2 ≤ a.length) (b : Bytes) :
    OriginForm (a ++ b) := by
  match a, hlen with
  | x :: y :: rest, _ => exact h

/-- A byte that ends no part of a url. -/
def Ordinary (a : Bytes) : Prop := ch '?' ∉ a ∧ ch '#' ∉ a ∧ 0 ∉ a

theorem Ordinary.append {a b : Bytes} (ha : Ordinary a) (hb : Ordinary b) : Ordinary (a ++ b) := by
  unfold Ordinary at *
  simp only [List.mem_append, not_or]
  exact ⟨⟨ha.1, hb.1⟩, ⟨ha.2.1, hb.2.1⟩, ha.2.2, hb.2.2⟩

theorem ordinary_urlescape (sv : Bytes) : Ordinary (urlescape sv) :=
  ⟨not_mem_urlescape (by decide) (by decide) sv, not_mem_urlescape (by decide) (by decide) sv,
    not_mem_urlescape (by decide) (by decide) sv⟩

theorem ordinary_encodeLoop (data : Bytes) : Ordinary (encodeLoop data) :=
  ⟨not_mem_encodeLoop data (by simp), not_mem_encodeLoop data (by simp),
    not_mem_encodeLoop data (by simp)⟩

theorem cstr_append {a : Bytes} (h : 0 ∉ a) (b : Bytes) : cstr (a ++ b) = a ++ cstr b := by
  unfold cstr
  apply List.takeWhile_append_of_pos
  intro c hc
  have hne : c ≠ 0 := fun h0 => h (h0 ▸ hc)
  simpa using hne

theorem cstr_queryPartText (q : Option Bytes) :
    cstr (ReqConfig.queryPartText q) = ReqConfig.queryPartText (q.map cstr) := by
  cases q with
  | none => rfl
  | some q => rfl

theorem pathPart_append {a : Bytes} (h : Ordinary a) (q : Option Bytes) :
    pathPart (a ++ ReqConfig.queryPartText q) = a := by
  have hpos : ∀ c ∈ a, (decide (c ≠ ch '?') && decide (c ≠ ch '#')) = true := by
    intro c hc
    have h1 : c ≠ ch '?' := fun h' => h.1 (h' ▸ hc)
    have h2 : c ≠ ch '#' := fun h' => h.2.1 (h' ▸ hc)
    simp [h1, h2]
  unfold pathPart
  rw [List.takeWhile_append_of_pos hpos]
  cases q with
  | none => exact List.append_nil a
  | some q =>
    rw [ReqConfig.queryPartText, List.takeWhile_cons, if_neg (by simp), List.append_nil]

theorem queryPart_append {a : Bytes} (h : Ordinary a) (q : Option Bytes) :
    queryPart (a ++ ReqConfig.queryPartText q) = q.map fun q => q.takeWhile (· ≠ ch '#') := by
  unfold queryPart
  rw [pathPart_append h, List.drop_left]
  cases q with
  | none => rfl
  | some q => rfl

/-! ## The exchange -/

/-- A client sends a request to a server that it can talk to: they agree on the secrets, and the server
takes requests of the form that the client sends. -/
structure Exchange (cl : Client) (svr : Server) (cfg : ReqConfig) (pfx : Bytes) (req : Request)
    (hr : HttpRequest) : Prop where
  minor : cfg.protoMinor = 2 ∨ cfg.protoMinor = 3
  wf : req.Wf
  url : UrlPrefix pfx
  uri : ∃ base stem, cfg.addSigilVersion pfx = .ok base
    ∧ cl.encryptRequest (cfg.urlstem req) = .ok stem ∧ hr.uri = cstr (base ++ stem)
  uri_lt : hr.uri.length < sizeMod
  get : hr.method = .GET
  ev : svr.ev.Lawful
  na : svr.na.Lawful
  same_na : cl.na = svr.na
  accept : svr.secretManager.isSome → hr.acceptEncoding.map encodingStoi = some ceFs123Secretbox
  esid : ∃ esid, svr.encodeSid = .ok esid
  plain : cl.encryptRequests = false → svr.secretManager.isSome → svr.acceptPlaintextRequests = true
  shared : cl.encryptRequests = true → ∀ csm sid secret, cl.secretMgr = some csm →
    csm.getEncodeSid = .ok sid → csm.getSharedkey sid = .ok secret →
    ∃ sm, svr.secretManager = some sm ∧ sm.getSharedkey sid = .ok secret

/-- What the request needs to survive in an envelope, which is not %-decoded when it is taken apart, and
which the codec has to be able to open. -/
structure Request.EnvelopeSurvives (cfg : ReqConfig) (req : Request) : Prop where
  safe : ∀ c ∈ req.name, urlSafe c = true
  no_slash : req.name = [] → ch '/' ∉ req.argument
  no_question : cfg.protoMinor = 2 → ch '?' ∉ req.chunkstart
  recordsz : recordSize requestPadding (cfg.urlstem req).length < 2 ^ 32 - 16

/-- The exact condition for a request to be delivered. -/
def Request.Survives (encrypted : Bool) (cfg : ReqConfig) (req : Request) : Prop :=
  req.QuerySurvives encrypted cfg ∧ (encrypted = true → req.EnvelopeSurvives cfg)

section Exchange

variable {cl : Client} {svr : Server} {cfg : ReqConfig} {pfx : Bytes} {req : Request} {hr : HttpRequest}

theorem Request.letter_ne (req : Request) {c : UInt8} (hc : c ∉ bytes "adflsxn") : req.letter ≠ c := by
  intro h
  apply hc
  rw [← h]
  cases req <;> simp only [letter] <;> decide

theorem ReqConfig.addSigilVersion_eq_ok {base : Bytes} (h : cfg.addSigilVersion pfx = .ok base) :
    Selector pfx ∧ base = pfx ++ (sigil ++ decimal cfg.protoMinor) := by
  unfold addSigilVersion at h
  split at h
  · simp at h
  · next hno =>
    rw [Bool.or_eq_true, not_or, findStr_isSome_iff] at hno
    rw [Except.ok.injEq] at h
    refine ⟨⟨hno.1, fun hs => hno.2 (List.isSuffixOf_iff_suffix.mpr hs)⟩, ?_⟩
    rw [← h, show sigil = bytes "/fs123/" ++ decimal 7 ++ bytes "/" by decide]
    simp only [List.append_assoc]

/-- The part of a url in front of the stem. -/
structure Base (cfg : ReqConfig) (pfx base : Bytes) : Prop where
  eq : base = pfx ++ (sigil ++ decimal cfg.protoMinor)
  selector : Selector pfx
  ordinary : Ordinary base
  no_percent : ch '%' ∉ base
  origin : ∀ rest, OriginForm (base ++ rest)

theorem UrlPrefix.base (hurl : UrlPrefix pfx) {base : Bytes}
    (hbase : cfg.addSigilVersion pfx = .ok base) : Base cfg pfx base := by
  obtain ⟨hsel, heq⟩ := ReqConfig.addSigilVersion_eq_ok hbase
  have hmem : ∀ c, c ∉ sigil → digitcvt 10 c = 10 → (∀ x ∈ pfx, x ≠ c) → c ∉ base := by
    intro c hs hd hp
    rw [heq]
    simp only [List.mem_append, not_or]
    exact ⟨fun hc => hp c hc rfl, hs, not_mem_decimal hd _⟩
  have hord := hurl.ordinary
  refine ⟨heq, hsel, ⟨?_, ?_, ?_⟩, ?_, ?_⟩
  · exact hmem _ (by decide) (by decide) fun x hx => (hord x hx).2.1
  · exact hmem _ (by decide) (by decide) fun x hx => (hord x hx).2.2.1
  · exact hmem _ (by decide) (by decide) fun x hx => (hord x hx).2.2.2
  · exact hmem _ (by decide) (by decide) fun x hx => (hord x hx).1
  · intro rest
    have := hurl.origin.append (by simp [show (bytes "/fs123/").length = 7 by decide])
      (bytes "7/" ++ (decimal cfg.protoMinor ++ rest))
    rw [heq, show sigil = bytes "/fs123/" ++ bytes "7/" by decide]
    simpa only [List.append_assoc] using this

/-- The parts of a url on the wire: a path `x` behind the base, and a query. -/
theorem Base.url_parts {base x : Bytes} {q : Option Bytes} (hb : Base cfg pfx base)
    (hev : svr.ev.Lawful) (hx : Ordinary x)
    (huri : hr.uri = cstr (base ++ (x ++ ReqConfig.queryPartText q))) :
    svr.ev.uriPath hr.uri = base ++ x ∧ svr.ev.uriQuery hr.uri = q.map wireCut
      ∧ findStr (bytes "/fs123/") hr.uri = some pfx.length
      ∧ ((q.map wireCut).getD []).length ≤ hr.uri.length := by
  have hord := hb.ordinary.append hx
  have hu : hr.uri = (base ++ x) ++ ReqConfig.queryPartText (q.map cstr) := by
    rw [huri, ← List.append_assoc, cstr_append hord.2.2, cstr_queryPartText]
  have horigin : OriginForm hr.uri := by
    rw [hu, List.append_assoc]
    exact hb.origin _
  refine ⟨?_, ?_, ?_, ?_⟩
  · rw [hev.uriPath _ horigin, hu, pathPart_append hord]
  · rw [hev.uriQuery _ horigin, hu, queryPart_append hord, Option.map_map]
    congr 1
    funext q'
    exact takeWhile_cstr q'
  · rw [hu, hb.eq, show sigil = bytes "/fs123/" ++ bytes "7/" by decide]
    simp only [List.append_assoc]
    exact hb.selector.findStr_fs123 _
  · cases q with
    | none => exact Nat.zero_le _
    | some q =>
      have hcut : (wireCut q).length ≤ (cstr q).length := by
        rw [← takeWhile_cstr]
        exact (List.takeWhile_sublist _).length_le
      rw [hu]
      simp only [Option.map_some, Option.getD_some, ReqConfig.queryPartText, List.length_append,
        List.length_cons]
      omega

/-- Once the query of a request is decoded to the right function and path, the rest is the dispatch. -/
theorem Exchange.delivered_iff (h : Exchange cl svr cfg pfx req hr) {r₁ r₂ : Req} {i : ℕ}
    (hpath : Req.parsePath svr hr = .ok r₁) (hacc : r₁.acceptEncoding = (Req.ofHttp hr).acceptEncoding)
    (hquery : r₁.decodeQuery svr hr = .ok r₂) (hfun : r₂.function = [req.letter])
    (hinfo : r₂.pathInfo = req.name) (hmethod : r₂.method = hr.method)
    (hfind : findStr (bytes "/fs123/") hr.uri = some i) :
    ∃ inm64, Delivered svr hr req
      ↔ ∃ r', (r₂.noted hr i).dispatch svr hr inm64 = .ok (r', req.call inm64) := by
  obtain ⟨esid, hesid⟩ := h.esid
  obtain ⟨inm64, hinm⟩ := inmDemangle_ok (Req.headInm hr) esid
  have haccept : r₁.mayUseSecrets svr = true → r₁.acceptEncoding = ceFs123Secretbox := by
    intro hsec
    have hsome : svr.secretManager.isSome := by
      unfold Req.mayUseSecrets at hsec
      simp only [Bool.and_eq_true] at hsec
      exact hsec.1
    rw [hacc]
    show (hr.acceptEncoding.map encodingStoi).getD ceIdent = _
    rw [h.accept hsome]
    rfl
  have hp : r₂.function ≠ bytes "p" := by
    rw [hfun, show bytes "p" = [ch 'p'] by decide]
    simpa using req.letter_ne (by decide)
  have hparse := Req.parse_eq hpath haccept hquery hp (hmethod.trans h.get) hfind hesid hinm
  rw [hinfo, validatePath_eq_ok h.wf.form h.wf.no_nul h.wf.no_dotdot] at hparse
  refine ⟨inm64, ?_, ?_⟩
  · intro hd
    obtain ⟨r, inm, esid', hesid', hinm', hcall, -, -⟩ := hd
    rw [hesid, Except.ok.injEq] at hesid'
    subst hesid'
    rw [hinm, Except.ok.injEq] at hinm'
    subst hinm'
    rw [parseAndHandle_inr_iff, hparse] at hcall
    exact ⟨r, hcall⟩
  · intro hd
    obtain ⟨r, hr⟩ := hd
    obtain ⟨hf, hpi, -⟩ := Req.dispatch_frame hr
    refine ⟨r, inm64, esid, hesid, hinm, ?_, hf.trans hfun, hpi.trans hinfo⟩
    rw [parseAndHandle_inr_iff, hparse]
    exact hr

/-- A plain request is taken apart as it was built, but for the cut of its query. -/
theorem Exchange.plain_iff (h : Exchange cl svr cfg pfx req hr) (henc : cl.encryptRequests = false) :
    Delivered svr hr req ↔ req.QuerySurvives false cfg := by
  obtain ⟨base, stem, hbase, hstem, huri⟩ := h.uri
  have hb := h.url.base hbase
  have hplain : stem = cfg.urlstem req := by
    unfold Client.encryptRequest at hstem
    rw [henc, if_neg (by decide), Except.ok.injEq] at hstem
    exact hstem.symm
  rw [hplain, ReqConfig.urlstem_eq] at huri
  obtain ⟨x, hx⟩ : ∃ x, x = ch '/' :: req.letter :: urlescape req.name := ⟨_, rfl⟩
  have hxord : Ordinary x := by
    have hcons : Ordinary [ch '/', req.letter] := by
      unfold Ordinary
      simp only [List.mem_cons, List.not_mem_nil, or_false, not_or]
      exact ⟨⟨by decide, (req.letter_ne (by decide)).symm⟩,
        ⟨by decide, (req.letter_ne (by decide)).symm⟩, by decide, (req.letter_ne (by decide)).symm⟩
    rw [hx]
    exact hcons.append (ordinary_urlescape req.name)
  obtain ⟨hpath, hquery, hfind, hqlen⟩ := hb.url_parts (q := cfg.queryText req) h.ev hxord
    (by rw [huri, hx]; rfl)
  have hdecoded : cstr (svr.ev.uridecode (svr.ev.uriPath hr.uri))
      = pfx ++ (sigil ++ (decimal cfg.protoMinor ++ ch '/' :: req.letter :: req.name)) := by
    have hno : ch '%' ∉ base ++ [ch '/', req.letter] := by
      simp only [List.mem_append, List.mem_cons, List.not_mem_nil, or_false, not_or]
      exact ⟨hb.no_percent, by decide, (req.letter_ne (by decide)).symm⟩
    have hnul : (0 : UInt8) ∉ base ++ [ch '/', req.letter] ++ req.name := by
      simp only [List.mem_append, List.mem_cons, List.not_mem_nil, or_false, not_or]
      exact ⟨⟨hb.ordinary.2.2, by decide, (req.letter_ne (by decide)).symm⟩, h.wf.no_nul⟩
    rw [hpath, h.ev.uridecode, hx, show base ++ ch '/' :: req.letter :: urlescape req.name
      = (base ++ [ch '/', req.letter]) ++ urlescape req.name by simp,
      percentDecode_append_of_not_mem hno, percentDecode_urlescape, cstr_eq_self hnul, hb.eq]
    simp
  have hparse := Req.parsePath_eq hb.selector h.minor (req.letter_ne (by decide)) h.wf.form hdecoded
  obtain ⟨r₁, hr₁⟩ : ∃ r₁ : Req, r₁ = { Req.ofHttp hr with
    protoMinor := cfg.protoMinor, function := [req.letter], pathInfo := req.name } := ⟨_, rfl⟩
  rw [← hr₁] at hparse
  have hdecode : r₁.decodeQuery svr hr
      = .ok { r₁ with query := ((cfg.queryText req).map wireCut).getD [] } := by
    have he : r₁.function ≠ bytes "e" := by
      rw [hr₁, show bytes "e" = [ch 'e'] by decide]
      simpa using req.letter_ne (by decide)
    unfold Req.decodeQuery Req.plainQuery
    rw [if_neg he, if_neg, hquery]
    rintro ⟨hsec, hacc⟩
    unfold Req.mayUseSecrets at hsec
    simp only [Bool.and_eq_true] at hsec
    rw [h.plain henc hsec.1] at hacc
    exact absurd hacc (by decide)
  obtain ⟨inm64, hiff⟩ := h.delivered_iff hparse (by rw [hr₁]) hdecode (by rw [hr₁]) (by rw [hr₁])
    (by rw [hr₁]; rfl) hfind
  rw [hiff]
  refine dispatch_iff h.ev h.minor h.wf.within (by rw [hr₁]; rfl) (by rw [hr₁]; rfl)
    (by rw [hr₁]; rfl) ?_ ?_
  · exact lt_of_le_of_lt hqlen h.uri_lt
  · intro q hq
    show ((cfg.queryText req).map wireCut).getD [] = _
    rw [hq]
    rfl

/-- A byte that is escaped gets into a query through the start of a directory chunk only, and only up to
7.2. -/
theorem ReqConfig.mem_queryText_iff {q : Bytes} {c : UInt8} (hd : digitcvt 10 c = 10)
    (hsafe : urlSafe c = false) (hs : c ≠ ch ';') (hp : c ≠ ch '%')
    (hminor : cfg.protoMinor = 2 ∨ cfg.protoMinor = 3) (hq : cfg.queryText req = some q) :
    c ∈ q ↔ cfg.protoMinor = 2 ∧ c ∈ req.chunkstart := by
  have hdec : ∀ n, c ∉ decimal n := not_mem_decimal hd
  have hint : ∀ z, c ∉ decimalInt z := not_mem_decimalInt hd (by rintro rfl; exact absurd hsafe (by decide))
  have htag : c ∉ cfg.tag := not_mem_tag hd hs
  have hesc : ∀ sv, c ∉ urlescape sv := not_mem_urlescape hsafe hp
  have hbare : (if cfg.cachetag ≠ 0 then some (decimal cfg.cachetag) else none) = some q → c ∉ q := by
    intro hq
    split at hq
    · rw [← Option.some.inj hq]
      exact hdec _
    · simp at hq
  cases req with
  | dir name ckib chunkstart =>
    obtain rfl : _ = q := Option.some.inj hq
    simp only [List.mem_append, List.mem_cons, hdec, htag, hs, false_or, or_false, Request.chunkstart]
    unfold startText
    rcases hminor with hm | hm
    · rw [hm, if_pos (by decide)]
      have hdigit : ∀ d, digitcvt 10 d ≠ 10 → c ≠ d := by
        rintro d hne rfl
        exact hne hd
      have h0 : c ≠ ch '0' := hdigit _ (by decide)
      have h1 : c ≠ ch '1' := hdigit _ (by decide)
      split
      · next hnil =>
        rw [hnil, show bytes "1;0" = [ch '1', ch ';', ch '0'] by decide]
        simp [h0, h1, hs]
      · rw [List.mem_append, show bytes "0;" = [ch '0', ch ';'] by decide]
        simp [h0, hs]
    · rw [hm, if_neg (by decide)]
      simp [hesc]
  | file name ckib chunkstartkib =>
    obtain rfl : _ = q := Option.some.inj hq
    simp [hdec, hint, htag, hs, Request.chunkstart]
  | xattr name ckib attrname =>
    obtain rfl : _ = q := Option.some.inj hq
    simp [hdec, htag, hs, hesc, Request.chunkstart]
  | attr name => simp [hbare hq, Request.chunkstart]
  | link name => simp [hbare hq, Request.chunkstart]
  | statfs name => simp [hbare hq, Request.chunkstart]
  | stats => simp [hbare hq, Request.chunkstart]

/-- The bytes that matter for taking an envelope apart, in the query of a request. -/
theorem ReqConfig.mem_queryText {q : Bytes} (hminor : cfg.protoMinor = 2 ∨ cfg.protoMinor = 3)
    (hq : cfg.queryText req = some q) :
    (ch '/' ∈ q ↔ ch '/' ∈ req.argument)
      ∧ (ch '?' ∈ q ↔ cfg.protoMinor = 2 ∧ ch '?' ∈ req.chunkstart) := by
  refine ⟨?_, mem_queryText_iff (by decide) (by decide) (by decide) (by decide) hminor hq⟩
  have hd : ∀ n, ch '/' ∉ decimal n := not_mem_decimal (by decide)
  have ht : ch '/' ∉ cfg.tag := not_mem_tag (by decide) (by decide)
  have he : ∀ sv, ch '/' ∈ urlescape sv ↔ ch '/' ∈ sv := mem_urlescape_iff (by decide) (by decide)
  have hs : ch '/' ≠ ch ';' := by decide
  have hbare : (if cfg.cachetag ≠ 0 then some (decimal cfg.cachetag) else none) = some q →
      ch '/' ∉ q := by
    intro hq
    split at hq
    · rw [← Option.some.inj hq]
      exact hd _
    · simp at hq
  cases req with
  | dir name ckib chunkstart =>
    obtain rfl : _ = q := Option.some.inj hq
    simp only [List.mem_append, List.mem_cons, hd, ht, hs, false_or, or_false, Request.argument]
    unfold startText
    split
    · split
      · next hnil => rw [hnil]; decide
      · simp [List.mem_append, show ch '/' ∉ bytes "0;" by decide]
    · exact he _
  | file name ckib chunkstartkib =>
    obtain rfl : _ = q := Option.some.inj hq
    have hint : ch '/' ∉ decimalInt chunkstartkib := not_mem_decimalInt (by decide) (by decide) _
    simp [hint, hd, ht, hs, Request.argument]
  | xattr name ckib attrname =>
    obtain rfl : _ = q := Option.some.inj hq
    simp [hd, ht, hs, he, Request.argument]
  | attr name => simp [hbare hq, Request.argument]
  | link name => simp [hbare hq, Request.argument]
  | statfs name => simp [hbare hq, Request.argument]
  | stats => simp [hbare hq, Request.argument]

theorem ReqConfig.queryText_eq_none (hq : cfg.queryText req = none) :
    req.argument = [] ∧ req.chunkstart = [] := by
  cases req with
  | dir name ckib chunkstart => simp [queryText] at hq
  | file name ckib chunkstartkib => simp [queryText] at hq
  | xattr name ckib attrname => simp [queryText] at hq
  | attr name => exact ⟨rfl, rfl⟩
  | link name => exact ⟨rfl, rfl⟩
  | statfs name => exact ⟨rfl, rfl⟩
  | stats => exact ⟨rfl, rfl⟩

theorem PathForm.urlescape {p : Bytes} (hp : PathForm p) : PathForm (urlescape p) := by
  rcases hp with rfl | hp
  · exact Or.inl rfl
  · obtain ⟨rest, rfl⟩ := List.head?_eq_some_iff.mp hp
    right
    rw [urlescape_cons, show escapeByte (ch '/') = [ch '/'] by decide]
    rfl

theorem urlescape_eq_nil_iff (sv : Bytes) : urlescape sv = [] ↔ sv = [] := by
  constructor
  · intro h
    have := length_le_urlescape sv
    rw [h, List.length_nil, Nat.le_zero, List.length_eq_zero_iff] at this
    exact this
  · rintro rfl
    rfl

/-- A stem that survives in an envelope is taken apart as it was built. -/
theorem Request.EnvelopeSurvives.splitEnvelope (hs : req.EnvelopeSurvives cfg) (hwf : req.Wf)
    (hminor : cfg.protoMinor = 2 ∨ cfg.protoMinor = 3) (hlen : (cfg.urlstem req).length < npos) (r : Req) :
    r.splitEnvelope (cfg.urlstem req) = .ok { r with
      query := (cfg.queryText req).getD [], function := [req.letter], pathInfo := req.name } := by
  have hesc : Fs123.urlescape req.name = req.name := (urlescape_eq_self_iff _).mpr hs.safe
  have hl := req.letter_ne (c := ch '/') (by decide)
  rw [ReqConfig.urlstem_eq, hesc] at hlen ⊢
  have hnq : ch '?' ∉ req.name := by
    rw [← hesc]
    exact (ordinary_urlescape _).1
  cases hq : cfg.queryText req with
  | none =>
    rw [hq] at hlen
    simp only [ReqConfig.queryPartText, List.append_nil, List.length_cons] at hlen ⊢
    rw [Req.splitEnvelope_bare hl (req.letter_ne (by decide)) hwf.form hnq (by omega)]
    rfl
  | some q =>
    rw [hq] at hlen
    obtain ⟨hslash, hquest⟩ := ReqConfig.mem_queryText hminor hq
    simp only [ReqConfig.queryPartText, List.length_cons, List.length_append] at hlen ⊢
    rw [Req.splitEnvelope_query hl hwf.form ?_ ?_ (by omega)]
    · rfl
    · rw [hquest]
      exact fun hc => hs.no_question hc.1 hc.2
    · intro hnil
      rw [hslash]
      exact hs.no_slash hnil

/-- Conversely, a stem that is taken apart to its function and name has nothing in it that an envelope
changes. -/
theorem Request.envelope_of_splitEnvelope (hwf : req.Wf)
    (hminor : cfg.protoMinor = 2 ∨ cfg.protoMinor = 3) (hlen : (cfg.urlstem req).length < npos)
    {r r' : Req} (h : r.splitEnvelope (cfg.urlstem req) = .ok r') (hfun : r'.function = [req.letter])
    (hinfo : r'.pathInfo = req.name) :
    (∀ c ∈ req.name, urlSafe c = true) ∧ (req.name = [] → ch '/' ∉ req.argument)
      ∧ (cfg.protoMinor = 2 → ch '?' ∉ req.chunkstart) := by
  have hl := req.letter_ne (c := ch '/') (by decide)
  have hform := hwf.form.urlescape
  rw [ReqConfig.urlstem_eq] at h hlen
  cases hq : cfg.queryText req with
  | none =>
    rw [hq] at h hlen
    simp only [ReqConfig.queryPartText, List.append_nil, List.length_cons] at h hlen
    rw [Req.splitEnvelope_bare hl (req.letter_ne (by decide)) hform (ordinary_urlescape _).1 (by omega),
      Except.ok.injEq] at h
    subst h
    obtain ⟨harg, hchunk⟩ := ReqConfig.queryText_eq_none hq
    refine ⟨(urlescape_eq_self_iff _).mp hinfo, ?_, ?_⟩
    · simp [harg]
    · simp [hchunk]
  | some q =>
    rw [hq] at h hlen
    obtain ⟨hslash, hquest⟩ := ReqConfig.mem_queryText hminor hq
    simp only [ReqConfig.queryPartText, List.length_cons, List.length_append] at h hlen
    have hno : ¬ (ch '?' ∈ q ∨ (Fs123.urlescape req.name = [] ∧ ch '/' ∈ q)) := by
      intro hcut
      rcases Req.splitEnvelope_cut hl hform hcut (by omega) h with hf | hlt
      · exact hf hfun
      · have := length_le_urlescape req.name
        rw [hinfo] at hlt
        omega
    rw [not_or, not_and] at hno
    rw [Req.splitEnvelope_query hl hform hno.1 hno.2 (by omega), Except.ok.injEq] at h
    subst h
    refine ⟨(urlescape_eq_self_iff _).mp hinfo, ?_, ?_⟩
    · intro hnil
      rw [← hslash]
      exact hno.2 ((urlescape_eq_nil_iff _).mpr hnil)
    · intro hm hc
      exact hno.1 (hquest.mpr ⟨hm, hc⟩)

/-- An encrypted request is delivered exactly if neither the envelope nor the query changes it. -/
theorem Exchange.encrypted_iff (h : Exchange cl svr cfg pfx req hr) (henc : cl.encryptRequests = true) :
    Delivered svr hr req ↔ req.QuerySurvives true cfg ∧ req.EnvelopeSurvives cfg := by
  obtain ⟨base, stem, hbase, hstem, huri⟩ := h.uri
  have hb := h.url.base hbase
  have hnacl : cl.na.Lawful := by rw [h.same_na]; exact h.na
  obtain ⟨csm, sid, secret, nonce, hcsm, hsid, hsecret, hpos, hle, hks, hnonce, hsmall, rfl⟩ :=
    Client.encryptRequest_eq_ok hnacl henc hstem
  obtain ⟨sm, hsm, hkey⟩ := h.shared henc csm sid secret hcsm hsid hsecret
  rw [h.same_na] at huri
  obtain ⟨b64, hb64⟩ : ∃ b64, b64 = encodeLoop (envelope svr.na sid secret nonce requestPadding
    (cfg.urlstem req)) := ⟨_, rfl⟩
  rw [← hb64] at huri
  obtain ⟨x, hx⟩ : ∃ x, x = bytes "/e/" ++ b64 := ⟨_, rfl⟩
  have hxord : Ordinary x := by
    rw [hx, hb64]
    refine Ordinary.append ?_ (ordinary_encodeLoop _)
    exact ⟨by decide, by decide, by decide⟩
  have hxp : ch '%' ∉ x := by
    rw [hx, hb64, List.mem_append, not_or]
    exact ⟨by decide, not_mem_encodeLoop _ (by simp)⟩
  obtain ⟨hpath, -, hfind, -⟩ := hb.url_parts (q := none) h.ev hxord
    (by rw [huri, hx, ReqConfig.queryPartText, List.append_nil])
  have hdecoded : cstr (svr.ev.uridecode (svr.ev.uriPath hr.uri))
      = pfx ++ (sigil ++ (decimal cfg.protoMinor ++ ch '/' :: ch 'e' :: ch '/' :: b64)) := by
    have hno : ch '%' ∉ base ++ x := by
      rw [List.mem_append, not_or]
      exact ⟨hb.no_percent, hxp⟩
    rw [hpath, h.ev.uridecode, percentDecode_eq_self hno, cstr_eq_self (hb.ordinary.append hxord).2.2,
      hb.eq, hx, show bytes "/e/" = [ch '/', ch 'e', ch '/'] by decide]
    simp
  have hparse := Req.parsePath_eq hb.selector h.minor (show ch 'e' ≠ ch '/' by decide)
    (Or.inr rfl) hdecoded
  obtain ⟨r₁, hr₁⟩ : ∃ r₁ : Req, r₁ = { Req.ofHttp hr with
    protoMinor := cfg.protoMinor, function := [ch 'e'], pathInfo := ch '/' :: b64 } := ⟨_, rfl⟩
  rw [← hr₁] at hparse
  have hdecode : r₁.decodeQuery svr hr = r₁.decodeEnvelope svr := by
    unfold Req.decodeQuery
    rw [if_pos (by rw [hr₁]; rfl)]
  obtain ⟨hopen, hlarge⟩ := Req.decodeEnvelope_eq (r := r₁) h.na hsm hkey hks hpos hle
    (show 0 < requestPadding by decide) hnonce (by rw [hr₁, hb64])
  have hnpos : (cfg.urlstem req).length < npos := by
    have : 2 ^ 63 < npos := by decide
    omega
  have hkeep : req.EnvelopeSurvives cfg → (Delivered svr hr req ↔ req.QuerySurvives true cfg) := by
    intro henv
    have hsplit := henv.splitEnvelope h.wf h.minor hnpos { r₁ with envelopeSid := sid }
    rw [← hopen henv.recordsz, ← hdecode] at hsplit
    obtain ⟨inm64, hiff⟩ := h.delivered_iff hparse (by rw [hr₁]) hsplit rfl rfl (by rw [hr₁]; rfl) hfind
    rw [hiff]
    refine dispatch_iff h.ev h.minor h.wf.within rfl (by rw [hr₁]; rfl) (by rw [hr₁]; rfl) ?_ ?_
    · show ((cfg.queryText req).getD []).length < sizeMod
      have hlen := congrArg List.length (cfg.urlstem_eq req)
      have hmod : npos < sizeMod := by decide
      cases hq : cfg.queryText req with
      | none => exact Nat.lt_of_le_of_lt (Nat.zero_le _) hmod
      | some q =>
        rw [hq] at hlen
        simp only [ReqConfig.queryPartText, List.length_cons, List.length_append] at hlen
        simp only [Option.getD_some]
        omega
    · intro q hq
      show (cfg.queryText req).getD [] = _
      rw [hq]
      rfl
  constructor
  · intro hd
    have henv : req.EnvelopeSurvives cfg := by
      obtain ⟨r, inm64, esid, -, -, hcall, hfun, hinfo⟩ := hd
      obtain ⟨r₁', r₂, hp', hq', hf', hi', -⟩ := Req.parse_frame (parseAndHandle_inr_iff.mp hcall)
      rw [hparse, Except.ok.injEq] at hp'
      subst hp'
      rw [hdecode] at hq'
      have hrec : recordSize requestPadding (cfg.urlstem req).length < 2 ^ 32 - 16 := by
        by_contra hge
        exact hlarge (not_lt.mp hge) r₂ hq'
      rw [hopen hrec] at hq'
      obtain ⟨hsafe, hslash, hquest⟩ := Request.envelope_of_splitEnvelope h.wf h.minor hnpos hq'
        (hf'.symm.trans hfun) (hi'.symm.trans hinfo)
      exact ⟨hsafe, hslash, hquest, hrec⟩
    exact ⟨(hkeep henv).mp hd, henv⟩
  · intro hs
    exact (hkeep hs.2).mpr hs.1

/-- A request is delivered as it was built exactly if it survives the transport. -/
theorem delivered_iff_survives (h : Exchange cl svr cfg pfx req hr) :
    Delivered svr hr req ↔ req.Survives cl.encryptRequests cfg := by
  unfold Request.Survives
  cases henc : cl.encryptRequests with
  | false => simpa using h.plain_iff henc
  | true => simpa using h.encrypted_iff henc

end Exchange

/-- A client and a server without secrets. -/
def plainEnd : Client := ⟨sodiumHi, none, true, false⟩

@[inherit_doc plainEnd] def plainServer : Server := ⟨sodiumHi, libevent, none, true, []⟩

/-- A plain GET of a uri. -/
def plainGet (uri : Bytes) : HttpRequest := ⟨uri, .GET, none, none, []⟩

private theorem plain_exchange {cfg : ReqConfig} {req : Request} {uri : Bytes} (hwf : req.Wf)
    (hminor : cfg.protoMinor = 2 ∨ cfg.protoMinor = 3)
    (huri : uri = cstr (bytes "/fs123/7/" ++ decimal cfg.protoMinor ++ cfg.urlstem req))
    (hlen : uri.length < sizeMod) : Exchange plainEnd plainServer cfg [] req (plainGet uri) where
  minor := hminor
  wf := hwf
  url := ⟨by simp, ⟨by decide, by decide⟩⟩
  uri := by
    refine ⟨bytes "/fs123/7/" ++ decimal cfg.protoMinor, cfg.urlstem req, ?_, rfl, huri⟩
    unfold ReqConfig.addSigilVersion
    rw [if_neg (by decide), show bytes "/fs123/7/" = [] ++ bytes "/fs123/" ++ decimal 7 ++ bytes "/" by
      decide]
  uri_lt := hlen
  get := rfl
  ev := libevent_lawful
  na := Sodium.ofTable_lawful _ _ _
  same_na := rfl
  accept := fun h => absurd h (by decide)
  esid := ⟨[], rfl⟩
  plain := fun _ h => absurd h (by decide)
  shared := fun h => absurd h (by decide)

/-- A name with a space and a percent sign arrives in plain text. -/
theorem delivered_iff_survives_attr :
    Delivered plainServer (plainGet (bytes "/fs123/7/3/a/50%25%20off")) (.attr (bytes "/50% off")) := by
  have hwf : (Request.attr (bytes "/50% off")).Wf := by
    refine ⟨Or.inr rfl, by decide, ?_, trivial⟩
    rintro ⟨a, b, hab, -⟩
    exact absurd (show bytes "/.." <:+: bytes "/50% off" from ⟨a, b, hab.symm⟩) (by decide)
  have hex : Exchange plainEnd plainServer ⟨3, 0⟩ [] (.attr (bytes "/50% off"))
      (plainGet (bytes "/fs123/7/3/a/50%25%20off")) :=
    plain_exchange hwf (Or.inr rfl) (by decide) (by decide)
  exact (delivered_iff_survives hex).mpr ⟨trivial, fun h => absurd h (by decide)⟩

/-- With a cachetag the first chunk of a directory is asked for with the start `;5`. -/
theorem cachetag_not_delivered :
    Exchange plainEnd plainServer ⟨3, 5⟩ [] (.dir (bytes "/etc") 128 [])
        (plainGet (bytes "/fs123/7/3/d/etc?128;;5"))
      ∧ ¬ Delivered plainServer (plainGet (bytes "/fs123/7/3/d/etc?128;;5"))
        (.dir (bytes "/etc") 128 []) := by
  have hwf : (Request.dir (bytes "/etc") 128 []).Wf := by
    refine ⟨Or.inr rfl, by decide, ?_, show 128 ≤ maxReplySize / 1024 by decide⟩
    rintro ⟨a, b, hab, -⟩
    exact absurd (show bytes "/.." <:+: bytes "/etc" from ⟨a, b, hab.symm⟩) (by decide)
  have hex : Exchange plainEnd plainServer ⟨3, 5⟩ [] (.dir (bytes "/etc") 128 [])
      (plainGet (bytes "/fs123/7/3/d/etc?128;;5")) :=
    plain_exchange hwf (Or.inr rfl) (by decide) (by decide)
  refine ⟨hex, ?_⟩
  rw [hex.plain_iff rfl]
  intro h
  exact absurd h.1 (by decide)

end Fs123
