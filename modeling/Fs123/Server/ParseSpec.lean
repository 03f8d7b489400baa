import Fs123.Server.Handed

/-!
# What parsing finds

One equation for each part of `parse_and_handle`. `parsePath_eq` says what is found in a decoded path with
a prefix, the sigil and a function; `splitEnvelope_eq` and its companions what is found in a decrypted
stem; `parse_eq` puts the checks between them and the dispatch.
-/

namespace Fs123

open Cxx

/-! ## The sigil -/

/-- A selector in front of the sigil, as `add_sigil_version` accepts it. -/
structure Selector (pfx : Bytes) : Prop where
  no_infix : ¬ bytes "/fs123/" <:+: pfx
  no_suffix : ¬ bytes "/fs123" <:+ pfx

/-- The text `/fs123/` overlaps with itself in its last byte only. -/
theorem fs123_overlap {k : ℕ} (hpos : 0 < k) (hlt : k < 7)
    (h : (bytes "/fs123/").drop k <+: bytes "/fs123/") : k = 6 := by
  interval_cases k <;> revert h <;> decide

theorem Selector.not_prefix {pfx : Bytes} (hpfx : Selector pfx) (rest : Bytes) {j : ℕ}
    (hj : j < pfx.length) : ¬ bytes "/fs123/" <+: (pfx ++ (bytes "/fs123/" ++ rest)).drop j := by
  intro h
  rw [List.drop_append_of_le_length hj.le] at h
  obtain ⟨s, hs⟩ : ∃ s, s = pfx.drop j := ⟨_, rfl⟩
  have hslen : s.length = pfx.length - j := by rw [hs, List.length_drop]
  have hsuf : s <:+ pfx := hs ▸ List.drop_suffix j pfx
  rw [← hs] at h
  have hlen7 : (bytes "/fs123/").length = 7 := by decide
  by_cases hlong : 7 ≤ s.length
  · -- The occurrence lies in the selector.
    have hin : bytes "/fs123/" <+: s :=
      List.prefix_of_prefix_length_le h (List.prefix_append _ _) (by omega)
    exact hpfx.no_infix (hin.isInfix.trans hsuf.isInfix)
  · -- It begins in the selector and overlaps with the text after it.
    have hsp : s <+: bytes "/fs123/" :=
      List.prefix_of_prefix_length_le (List.prefix_append _ _) h (by omega)
    obtain ⟨t, ht⟩ := hsp
    have hdrop : (bytes "/fs123/").drop s.length = t := by rw [← ht, List.drop_left]
    have htp : t <+: bytes "/fs123/" := by
      have h' : s ++ t <+: s ++ (bytes "/fs123/" ++ rest) := by rw [ht]; exact h
      rw [List.prefix_append_right_inj] at h'
      refine List.prefix_of_prefix_length_le h' (List.prefix_append _ _) ?_
      have := congrArg List.length ht
      rw [List.length_append] at this
      omega
    have hk := fs123_overlap (by omega) (by omega) (hdrop ▸ htp)
    have hs6 : s = bytes "/fs123" := by
      rw [show bytes "/fs123" = (bytes "/fs123/").take 6 by decide, ← ht, ← hk, List.take_left]
    exact hpfx.no_suffix (hs6 ▸ hsuf)

theorem Selector.findStr_fs123 {pfx : Bytes} (hpfx : Selector pfx) (rest : Bytes) :
    findStr (bytes "/fs123/") (pfx ++ (bytes "/fs123/" ++ rest)) = some pfx.length := by
  refine findStr_eq_some (by simp) ?_ fun j hj => hpfx.not_prefix rest hj
  rw [List.drop_left]
  exact List.prefix_append _ _

theorem Selector.findStr_sigil {pfx : Bytes} (hpfx : Selector pfx) (rest : Bytes) :
    findStr sigil (pfx ++ (sigil ++ rest)) = some pfx.length := by
  have hsigil : sigil = bytes "/fs123/" ++ bytes "7/" := by decide
  refine findStr_eq_some (by simp) ?_ ?_
  · rw [List.drop_left]
    exact List.prefix_append _ _
  · intro j hj h
    rw [hsigil, List.append_assoc] at h
    exact hpfx.not_prefix _ hj ((List.prefix_append _ _).trans h)

/-! ## The path -/

/-- A path as `validate_path` wants it to begin. -/
def PathForm (p : Bytes) : Prop := p = [] ∨ p.head? = some (ch '/')

theorem splitFunction_eq (a : Bytes) {l : UInt8} (hl : l ≠ ch '/') {p : Bytes} (hp : PathForm p) :
    splitFunction (a ++ l :: p) a.length = ([l], p) := by
  have hmem : ch '/' ∉ [l] := by simpa using hl.symm
  unfold splitFunction
  rw [findChar_append_length, show l :: p = [l] ++ p from rfl, findChar_append_of_not_mem hmem]
  rcases hp with rfl | hp
  · simp [findChar]
  · obtain ⟨rest, rfl⟩ : ∃ rest, p = ch '/' :: rest := by
      cases p with
      | nil => simp at hp
      | cons c rest => exact ⟨rest, by simpa using hp⟩
    rw [findChar_cons_self]
    simp [slice, Nat.add_comm]

namespace Req

variable {svr : Server} {hr : HttpRequest}

/-- What is found in a path with one selector, one sigil and a one-letter function. -/
theorem parsePath_eq {pfx p : Bytes} {minor : ℕ} {l : UInt8} (hpfx : Selector pfx)
    (hmin : minor = 2 ∨ minor = 3) (hl : l ≠ ch '/') (hp : PathForm p)
    (hpath : cstr (svr.ev.uridecode (svr.ev.uriPath hr.uri))
      = pfx ++ (sigil ++ (decimal minor ++ ch '/' :: l :: p))) :
    parsePath svr hr
      = .ok { ofHttp hr with protoMinor := minor, function := [l], pathInfo := p } := by
  obtain ⟨upath, hupath⟩ : ∃ upath, upath = cstr (svr.ev.uridecode (svr.ev.uriPath hr.uri)) := ⟨_, rfl⟩
  have hlen : (decimal minor).length = 1 := by
    rcases hmin with rfl | rfl <;> decide
  have h9 : sigil.length = 9 := by decide
  have hscan : scanintS 32 0 true upath (pfx.length + sigil.length)
      = .ok ((minor : ℤ), pfx.length + sigil.length + (decimal minor).length) := by
    have hdrop : upath.drop (pfx.length + sigil.length)
        = decimalInt (minor : ℤ) ++ ch '/' :: l :: p := by
      rw [hupath, hpath, ← List.append_assoc, List.drop_left' (by simp)]
      rfl
    refine scanintS_decimalInt (by decide) ?_ ?_ hdrop ?_
    · rcases hmin with rfl | rfl <;> decide
    · rcases hmin with rfl | rfl <;> decide
    · exact EndsNumber.cons _ ⟨by decide, by decide, by decide⟩
  unfold parsePath
  dsimp only
  rw [← hupath]
  have hfind : findStr sigil upath = some pfx.length := by
    rw [hupath, hpath]
    exact hpfx.findStr_sigil _
  rw [hfind]
  dsimp only
  rw [hscan]
  simp only [bind, Except.bind]
  rw [if_neg, if_neg, if_neg]
  · have hsplit : splitFunction upath (pfx.length + sigil.length + (decimal minor).length + 1)
        = ([l], p) := by
      have := splitFunction_eq (pfx ++ sigil ++ decimal minor ++ [ch '/']) hl hp
      rw [hupath, hpath]
      simpa [Nat.add_assoc] using this
    rw [hsplit]
  · rw [hupath, hpath]
    simp only [List.length_append, List.length_cons, not_or, not_le, not_not, hlen, h9,
      Nat.add_sub_cancel]
    refine ⟨by omega, ?_⟩
    rw [← List.append_assoc, ← List.append_assoc]
    exact getElem?_append_cons _ _ _ (by simp [hlen, h9])
  · rw [protocolMinorMax]
    rcases hmin with rfl | rfl <;> decide
  · rw [protocolMinorMin]
    rcases hmin with rfl | rfl <;> decide

/-! ## The stem in an envelope -/

section Stem

variable {r : Req} {l : UInt8} {p q : Bytes}

/-- The search for the end of the function starts behind the first slash. -/
theorem findChar_stem (hl : l ≠ ch '/') (rest : Bytes) :
    findChar (ch '/' :: l :: rest) (ch '/') 1 = (findChar rest (ch '/') 0).map (· + 2) := by
  have h : findChar ([ch '/', l] ++ rest) (ch '/') 1
      = (([l] ++ rest).findIdx? (· == ch '/')).map (· + 1) := rfl
  rw [show ch '/' :: l :: rest = [ch '/', l] ++ rest from rfl, h]
  simp [findChar, List.findIdx?_cons, hl]

/-- A stem without a query. -/
theorem splitEnvelope_bare (hl : l ≠ ch '/') (hlq : l ≠ ch '?') (hp : PathForm p) (hpq : ch '?' ∉ p)
    (hlen : p.length + 2 < npos) :
    r.splitEnvelope (ch '/' :: l :: p)
      = .ok { r with query := [], function := [l], pathInfo := p } := by
  have hlast : findLastOf (ch '?') (ch '/' :: l :: p) = none := by
    apply findLastOf_eq_none
    simp only [List.mem_cons, not_or]
    exact ⟨by decide, hlq.symm, hpq⟩
  have hnpos : npos < sizeMod := by decide
  unfold splitEnvelope
  rw [if_neg (by simp)]
  simp only [hlast, findChar_stem hl, Option.getD_none]
  rcases hp with rfl | hp
  · simp only [findChar, List.drop_nil, List.findIdx?_nil, Option.map_none]
    rw [subW_eq (by omega) hnpos]
    rfl
  · obtain ⟨rest, rfl⟩ := List.head?_eq_some_iff.mp hp
    rw [findChar_cons_self]
    simp only [Option.map_some, Nat.zero_add]
    rw [subW_eq (by omega) hnpos]
    have hs : slice (ch '/' :: l :: ch '/' :: rest) 2 (npos - 2) = ch '/' :: rest := by
      show List.take (npos - 2) (ch '/' :: rest) = _
      apply List.take_of_length_le
      omega
    rw [hs]
    rfl

/-- The last question mark of a stem with a query. -/
theorem findLastOf_stem (l : UInt8) (p q : Bytes) :
    findLastOf (ch '?') (ch '/' :: l :: (p ++ ch '?' :: q))
      = some (p.length + 2 + ((findLastOf (ch '?') q).map (· + 1)).getD 0) := by
  have hq : findLastOf (ch '?') (ch '?' :: q)
      = some (((findLastOf (ch '?') q).map (· + 1)).getD 0) := by
    rw [findLastOf]
    cases findLastOf (ch '?') q with
    | none => simp
    | some i => simp
  have happ := findLastOf_append (ch '?') (ch '/' :: l :: p) (ch '?' :: q)
  rw [hq] at happ
  rw [show ch '/' :: l :: (p ++ ch '?' :: q) = (ch '/' :: l :: p) ++ (ch '?' :: q) from rfl, happ]
  simp only [Option.map_some, Option.some_or, List.length_cons]
  congr 1
  omega

/-- A stem with a query that has no further question mark, and no slash if the path is empty. -/
theorem splitEnvelope_query (hl : l ≠ ch '/') (hp : PathForm p) (hq : ch '?' ∉ q)
    (hslash : p = [] → ch '/' ∉ q) (hlen : p.length + q.length + 3 < npos) :
    r.splitEnvelope (ch '/' :: l :: (p ++ ch '?' :: q))
      = .ok { r with query := q, function := [l], pathInfo := p } := by
  have hlast : findLastOf (ch '?') (ch '/' :: l :: (p ++ ch '?' :: q)) = some (p.length + 2) := by
    rw [findLastOf_stem, findLastOf_eq_none hq]
    rfl
  have hnpos : npos < sizeMod := by decide
  have hquery : (ch '/' :: l :: (p ++ ch '?' :: q)).drop (p.length + 2 + 1) = q := by
    rw [show ch '/' :: l :: (p ++ ch '?' :: q) = (ch '/' :: l :: p ++ [ch '?']) ++ q by simp]
    exact List.drop_left' (by simp)
  unfold splitEnvelope
  rw [if_neg (by simp)]
  simp only [hlast, findChar_stem hl, Option.getD_some, hquery]
  rcases hp with rfl | hp
  · have hnone : findChar ([] ++ ch '?' :: q) (ch '/') 0 = none := by
      apply findChar_none_of_not_mem
      simp only [List.nil_append, List.mem_cons, not_or]
      exact ⟨by decide, hslash rfl⟩
    rw [hnone]
    simp only [Option.map_none, List.length_nil]
    rw [subW_eq (by omega) (by omega)]
    rfl
  · obtain ⟨rest, rfl⟩ := List.head?_eq_some_iff.mp hp
    rw [List.cons_append, findChar_cons_self]
    simp only [Option.map_some, Nat.zero_add]
    rw [subW_eq (by omega) (by omega), Nat.add_sub_cancel]
    have hs : slice (ch '/' :: l :: ch '/' :: (rest ++ ch '?' :: q)) 2 (ch '/' :: rest).length
        = ch '/' :: rest := by
      show List.take _ ((ch '/' :: rest) ++ ch '?' :: q) = _
      exact List.take_left
    rw [hs]
    rfl

/-- A further question mark moves the end of the path, or of the function if the path is empty; then a
slash in the query does that, too. -/
theorem splitEnvelope_cut (hl : l ≠ ch '/') (hp : PathForm p)
    (hcut : ch '?' ∈ q ∨ (p = [] ∧ ch '/' ∈ q)) (hlen : p.length + q.length + 3 < npos) {r' : Req}
    (h : r.splitEnvelope (ch '/' :: l :: (p ++ ch '?' :: q)) = .ok r') :
    r'.function ≠ [l] ∨ p.length < r'.pathInfo.length := by
  obtain ⟨k, hk, hkq⟩ : ∃ k, findLastOf (ch '?') (ch '/' :: l :: (p ++ ch '?' :: q))
      = some (p.length + 2 + k) ∧ k ≤ q.length ∧ (ch '?' ∈ q → 0 < k) := by
    refine ⟨_, findLastOf_stem l p q, ?_⟩
    by_cases hq : ch '?' ∈ q
    · obtain ⟨i, hi, hlt⟩ := findLastOf_of_mem hq
      rw [hi]
      simp only [Option.map_some, Option.getD_some]
      exact ⟨hlt, fun _ => Nat.succ_pos i⟩
    · rw [findLastOf_eq_none hq]
      exact ⟨Nat.zero_le _, fun hq' => absurd hq' hq⟩
  have hnpos : npos < sizeMod := by decide
  unfold splitEnvelope at h
  rw [if_neg (by simp)] at h
  simp only [hk, findChar_stem hl, Option.getD_some] at h
  rcases hp with rfl | hp
  · left
    by_cases hslash : ch '/' ∈ q
    · -- The function reaches to the slash in the query.
      obtain ⟨i, hi, hlt⟩ := findChar_of_mem hslash
      have hfind : findChar ([] ++ ch '?' :: q) (ch '/') 0 = some (i + 1) := by
        have := findChar_append_of_not_mem (b := q) (show ch '/' ∉ [ch '?'] by decide)
        rw [hi] at this
        exact this
      rw [hfind] at h
      simp only [Option.map_some, Except.ok.injEq] at h
      subst h
      intro hf
      have := congrArg List.length hf
      rw [slice_length] at this
      simp only [List.length_cons, List.length_nil, List.nil_append] at this
      omega
    · have hnone : findChar ([] ++ ch '?' :: q) (ch '/') 0 = none := by
        apply findChar_none_of_not_mem
        simp only [List.nil_append, List.mem_cons, not_or]
        exact ⟨by decide, hslash⟩
      rw [hnone] at h
      simp only [Option.map_none, Except.ok.injEq] at h
      subst h
      intro hf
      have hk0 := hkq.2 (hcut.resolve_right fun hc => hslash hc.2)
      have hk1 := hkq.1
      have := congrArg List.length hf
      simp only [slice_length, List.length_cons, List.length_nil, List.nil_append, Nat.zero_add]
        at this hlen
      rw [subW_eq (by omega) (by omega)] at this
      omega
  · right
    obtain ⟨rest, rfl⟩ := List.head?_eq_some_iff.mp hp
    have hk0 := hkq.2 (hcut.resolve_right fun hc => by simp at hc)
    have hk1 := hkq.1
    rw [List.cons_append, findChar_cons_self] at h
    simp only [Option.map_some, Nat.zero_add, Except.ok.injEq] at h
    subst h
    rw [slice_length, subW_eq (by omega) (by omega)]
    simp only [List.length_cons, List.length_append]
    omega

end Stem

section Envelope

variable {r : Req} {sm : SecretManager} {sid secret nonce stem : Bytes} {al : ℕ}

/-- The envelope of a stem is opened and taken apart, if its record is not too long to be opened. -/
theorem decodeEnvelope_eq (hna : svr.na.Lawful) (hsm : svr.secretManager = some sm)
    (hkey : sm.getSharedkey sid = .ok secret) (hlen : secretboxKeybytes ≤ secret.length)
    (hpos : 0 < sid.length) (hle : sid.length ≤ 255) (hal : 0 < al)
    (hnonce : nonce.length = secretboxNoncebytes)
    (hpath : r.pathInfo = ch '/' :: encodeLoop (envelope svr.na sid secret nonce al stem)) :
    (recordSize al stem.length < 2 ^ 32 - 16 →
        r.decodeEnvelope svr = { r with envelopeSid := sid }.splitEnvelope stem)
      ∧ (2 ^ 32 - 16 ≤ recordSize al stem.length → ∀ r', r.decodeEnvelope svr ≠ .ok r') := by
  obtain ⟨env, henv⟩ : ∃ env, env = envelope svr.na sid secret nonce al stem := ⟨_, rfl⟩
  have hne : env ≠ [] := by
    intro hnil
    have hsize : (envelope svr.na sid secret nonce al stem).length = _ :=
      envelope_length hna hal hlen hnonce stem
    rw [← henv, hnil, offsetofKeyid] at hsize
    simp at hsize
  have hdec : base64Decode (r.pathInfo.drop 1) = .ok env := by
    rw [hpath, ← henv]
    exact base64Decode_encodeLoop hne
  have hhdr : SecretboxHeader.ofWire env = .ok (envelopeHeader sid nonce al stem.length) := by
    rw [henv, envelope]
    exact (envelopeHeader_valid hpos hle hnonce al stem.length).ofWire_wire _
  have hmem : env = [] ++ envelope svr.na sid secret nonce al stem ++ [] := by rw [henv]; simp
  unfold decodeEnvelope
  rw [if_neg (by rw [hpath]; simp), hsm]
  simp only [bind, Except.bind, hdec, hhdr]
  constructor
  · intro hrec
    obtain ⟨dec, mem', hdecode, hbytes⟩ := decode_envelope hna hpos hle hal hkey hlen hnonce hrec
      (show (⟨0, env.length, 0, env.length⟩ : PaddedUcharSpan).data = ([] : Bytes).length from rfl)
      (show env.length = (envelope svr.na sid secret nonce al stem).length by rw [henv])
    rw [← hmem] at hdecode
    rw [hdecode]
    simp only [hbytes]
    rfl
  · intro hrec r'
    obtain ⟨e, he⟩ := decode_envelope_throws hna hpos hle hal hkey hlen hnonce hrec
      (show (⟨0, env.length, 0, env.length⟩ : PaddedUcharSpan).data = ([] : Bytes).length from rfl)
      (show env.length = (envelope svr.na sid secret nonce al stem).length by rw [henv])
    rw [← hmem] at he
    rw [he]
    simp

end Envelope

end Req

/-! ## The checks -/

/-- A component of the path is `..`. -/
def HasDotDot (p : Bytes) : Prop := ∃ a b, p = a ++ bytes "/.." ++ b ∧ PathForm b

theorem validatePath_eq_ok {p : Bytes} (hp : PathForm p) (hnul : 0 ∉ p) (hdd : ¬ HasDotDot p) :
    validatePath p = .ok () := by
  unfold validatePath
  split
  · rfl
  · next hne =>
    rw [if_neg (not_not.mpr (hp.resolve_left hne)), findChar_none_of_not_mem hnul,
      if_neg (by simp), if_neg, if_neg]
    · intro hend
      obtain ⟨a, ha⟩ := List.isSuffixOf_iff_suffix.mp hend
      exact hdd ⟨a, [], by rw [List.append_nil, ha], Or.inl rfl⟩
    · rw [findStr_isSome_iff]
      rintro ⟨a, b, hab⟩
      refine hdd ⟨a, ch '/' :: b, ?_, Or.inr rfl⟩
      rw [← hab]
      simp [show bytes "/../" = bytes "/.." ++ [ch '/'] by decide]

theorem parseQuotedEtag_ne_oob (et : Bytes) : parseQuotedEtag et ≠ .error .oob := by
  unfold parseQuotedEtag
  split
  · simp [throwE]
  · split
    · simp [throwE]
    · next qidx _ _ =>
      rcases hs : scanintU 64 10 false et (qidx + 1) with (e | _) | a
      · simp [bind, Except.bind]
      · exact absurd hs (scanintU_ten_inBounds _ _ _)
      · simp only [bind, Except.bind]
        split <;> simp [throwE]

/-- A header that cannot be parsed is as good as none. -/
theorem inmDemangle_ok (inm esid : Bytes) : ∃ inm64, inmDemangle inm esid = .ok inm64 := by
  unfold inmDemangle
  split
  · exact ⟨0, rfl⟩
  · rcases hp : parseQuotedEtag inm with (e | _) | etag
    · exact ⟨0, rfl⟩
    · exact absurd hp (parseQuotedEtag_ne_oob inm)
    · exact ⟨_, rfl⟩

/-- What the validator accepts. -/
theorem validatePath_eq_ok_iff {p : Bytes} :
    validatePath p = .ok () ↔ PathForm p ∧ 0 ∉ p ∧ ¬ HasDotDot p := by
  refine ⟨fun h => ?_, fun ⟨hp, hnul, hdd⟩ => validatePath_eq_ok hp hnul hdd⟩
  unfold validatePath at h
  split at h
  · next hnil =>
    refine ⟨Or.inl hnil, by simp [hnil], ?_⟩
    rintro ⟨a, b, hab, -⟩
    simp [hnil, show bytes "/.." = [ch '/', ch '.', ch '.'] from rfl] at hab
  · split_ifs at h with hhead hnul hmid hend
    · simp [httpthrow] at h
    · simp [httpthrow] at h
    · simp [httpthrow] at h
    · simp [httpthrow] at h
    · refine ⟨Or.inr (not_not.mp hhead), fun hmem => hnul ?_, ?_⟩
      · obtain ⟨i, hi, -⟩ := findChar_of_mem hmem
        rw [hi]
        rfl
      · rintro ⟨a, b, rfl, rfl | hb⟩
        · exact hend (List.isSuffixOf_iff_suffix.mpr ⟨a, by rw [List.append_nil]⟩)
        · obtain ⟨b, rfl⟩ := List.head?_eq_some_iff.mp hb
          refine hmid ((findStr_isSome_iff _ _).mpr ⟨a, b, ?_⟩)
          simp [show bytes "/../" = bytes "/.." ++ [ch '/'] by decide]

/-! ## The whole -/

namespace Req

variable {svr : Server} {hr : HttpRequest}

/-- The request that is handed to the dispatch: the echo and the `If-None-Match` are noted. -/
def noted (hr : HttpRequest) (r : Req) (i : ℕ) : Req :=
  { r.addKv keyRequest (hr.uri.drop i) with inm := headInm hr }

/-- What is left of `parse` once the function, the path and the query of a GET request are known. -/
theorem parse_eq {r₁ r₂ : Req} {i : ℕ} {esid : Bytes} {inm64 : ℕ} (hpath : parsePath svr hr = .ok r₁)
    (haccept : r₁.mayUseSecrets svr = true → r₁.acceptEncoding = ceFs123Secretbox)
    (hquery : r₁.decodeQuery svr hr = .ok r₂) (hp : r₂.function ≠ bytes "p") (hget : r₂.method = .GET)
    (hfind : findStr (bytes "/fs123/") hr.uri = some i) (hesid : svr.encodeSid = .ok esid)
    (hinm : inmDemangle (headInm hr) esid = .ok inm64) :
    parse svr hr = validatePath r₂.pathInfo >>= fun _ => (r₂.noted hr i).dispatch svr hr inm64 := by
  have hno : ¬ (r₁.mayUseSecrets svr = true ∧ r₁.acceptEncoding ≠ ceFs123Secretbox) := by
    rintro ⟨hsec, hne⟩
    exact hne (haccept hsec)
  unfold parse
  rw [hpath]
  simp only [bind, Except.bind]
  rw [if_neg hno, hquery]
  simp only
  rw [checkUnlessP, if_neg hp, checkRequest, if_neg (by rw [hget]; simp), hfind]
  cases validatePath r₂.pathInfo with
  | error f => rfl
  | ok u =>
    simp only [bind, Except.bind, hesid, hinm]
    rfl

/-- A `/p` request is handed on with its path and its query. -/
theorem parse_eq_p {r₁ : Req} {esid : Bytes} {inm64 : ℕ} (hpath : parsePath svr hr = .ok r₁)
    (hp : r₁.function = bytes "p") (hesid : svr.encodeSid = .ok esid)
    (hinm : inmDemangle (headInm hr) esid = .ok inm64) :
    parse svr hr = .ok ({ r₁ with query := (svr.ev.uriQuery hr.uri).getD [], inm := headInm hr },
      .p inm64 hr.body) := by
  have hsec : r₁.mayUseSecrets svr = false := by
    unfold mayUseSecrets
    rw [hp]
    simp
  unfold parse
  rw [hpath]
  simp only [bind, Except.bind]
  rw [if_neg (by simp [hsec]), decodeQuery, if_neg (by rw [hp]; decide), plainQuery,
    if_neg (by simp [hsec])]
  dsimp only
  rw [checkUnlessP, if_pos hp]
  simp only [hesid, hinm]
  unfold dispatch
  dsimp only
  rw [hp]
  rfl

/-- The dispatch changes neither the function nor the path nor the query. -/
theorem dispatch_frame {r r' : Req} {inm64 : ℕ} {call : HandlerCall}
    (h : r.dispatch svr hr inm64 = .ok (r', call)) :
    r'.function = r.function ∧ r'.pathInfo = r.pathInfo ∧ r'.query = r.query := by
  unfold dispatch at h
  have hsame : ∀ {call' : HandlerCall}, (.ok (r, call') : Res (Req × HandlerCall)) = .ok (r', call) →
      r'.function = r.function ∧ r'.pathInfo = r.pathInfo ∧ r'.query = r.query := by
    intro call' h
    rw [Except.ok.injEq, Prod.mk.injEq] at h
    rw [← h.1]
    exact ⟨rfl, rfl, rfl⟩
  split_ifs at h
  · exact hsame h
  · unfold dispatchDir at h
    obtain ⟨⟨lenkib, off⟩, -, h⟩ := bind_eq_ok_iff.mp h
    obtain ⟨-, -, h⟩ := bind_eq_ok_iff.mp h
    obtain ⟨start, -, h⟩ := bind_eq_ok_iff.mp h
    obtain ⟨r₁, halloc, h⟩ := bind_eq_ok_iff.mp h
    obtain ⟨start', -, h⟩ := bind_eq_ok_iff.mp h
    obtain ⟨-, -, rfl⟩ := allocatePbuf_eq_ok_iff.mp halloc
    rw [Except.ok.injEq, Prod.mk.injEq] at h
    rw [← h.1]
    exact ⟨rfl, rfl, rfl⟩
  · unfold dispatchFile at h
    obtain ⟨⟨lenkib, offsetkib⟩, -, h⟩ := bind_eq_ok_iff.mp h
    obtain ⟨-, -, h⟩ := bind_eq_ok_iff.mp h
    obtain ⟨r₁, halloc, h⟩ := bind_eq_ok_iff.mp h
    obtain ⟨buf, -, h⟩ := bind_eq_ok_iff.mp h
    obtain ⟨-, -, rfl⟩ := allocatePbuf_eq_ok_iff.mp halloc
    split at h
    · simp [httpthrow] at h
    · rw [Except.ok.injEq, Prod.mk.injEq] at h
      rw [← h.1]
      exact ⟨rfl, rfl, rfl⟩
  · exact hsame h
  · exact hsame h
  · rw [dispatchXattr_req h]
    exact ⟨rfl, rfl, rfl⟩
  · exact hsame h
  · exact hsame h
  · simp [httpthrow] at h

/-- The function, the path and the query that the handler sees are those that were decoded. -/
theorem parse_frame {r : Req} {call : HandlerCall} (h : parse svr hr = .ok (r, call)) :
    ∃ r₁ r₂, parsePath svr hr = .ok r₁ ∧ r₁.decodeQuery svr hr = .ok r₂
      ∧ r.function = r₂.function ∧ r.pathInfo = r₂.pathInfo ∧ r.query = r₂.query := by
  unfold parse at h
  obtain ⟨r₁, hpath, h⟩ := bind_eq_ok_iff.mp h
  split at h
  · simp [httpthrow] at h
  · obtain ⟨r₂, hquery, h⟩ := bind_eq_ok_iff.mp h
    obtain ⟨r₃, hcheck, h⟩ := bind_eq_ok_iff.mp h
    obtain ⟨esid, -, h⟩ := bind_eq_ok_iff.mp h
    obtain ⟨inm64, -, h⟩ := bind_eq_ok_iff.mp h
    have hsame : r₃.function = r₂.function ∧ r₃.pathInfo = r₂.pathInfo ∧ r₃.query = r₂.query := by
      unfold checkUnlessP at hcheck
      split at hcheck
      · rw [Except.ok.injEq] at hcheck
        rw [hcheck]
        exact ⟨rfl, rfl, rfl⟩
      · unfold checkRequest at hcheck
        split at hcheck
        · simp [httpthrow] at hcheck
        · obtain ⟨-, -, hcheck⟩ := bind_eq_ok_iff.mp hcheck
          split at hcheck
          · simp [httpthrow] at hcheck
          · rw [Except.ok.injEq] at hcheck
            rw [← hcheck]
            exact ⟨rfl, rfl, rfl⟩
    obtain ⟨hf, hp, hq⟩ := dispatch_frame h
    exact ⟨r₁, r₂, hpath, hquery, hf.trans hsame.1, hp.trans hsame.2.1, hq.trans hsame.2.2⟩

end Req

end Fs123
