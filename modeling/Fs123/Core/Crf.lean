import Fs123.Core.Netstring
import Fs123.Core.Numeral

/-!
# The CDB record format

The model of `core123/crf.hpp`. `svscanCrf` passes every record to its callback when the record is complete, so
the calls that it makes are part of its result also when it throws. Each of its steps keeps the offset inside
the input, which is what its recursion ends by.
-/

namespace Fs123

open Cxx

/-! ## The scanner -/

/-- `detail::expect(in, c, where)`. -/
def expect (sv : Bytes) (c : UInt8) (pos : ℕ) : Res ℕ := do
  let b ← at? sv pos
  if b ≠ c then
    throwE .runtimeError (bytes "crf.hpp: detail::expect(str_view, c='" ++ [c] ++ bytes "') got '" ++ [b] ++ bytes "'")
  else .ok (addW pos 1)

/-- `detail::paranoid_decimal_scanuint(in, vptr, offset)`. -/
def paranoidDecimalScanuint (sv : Bytes) (offset : ℕ) : Res (ℕ × ℕ) := do
  let (v, ret) ← scanintU 64 10 false sv offset
  if sv.length < ret ∨ ret ≤ offset then
    throwE .logicError
      (bytes "scanint returned an offset outside in.range().  THERE'S A BUG IN scanint.  FIX IT!!")
  else .ok (v, ret)

/-- The key and the data of a record, as the callback gets them. -/
abbrev CrfRecord := View × View

/-- `detail::svscan_crf_onerecord(in, f, start)`: what `f` is called with, and the offset behind the record. -/
def svscanCrfOnerecord (sv : Bytes) (start : ℕ) : Res (CrfRecord × ℕ) := do
  let next ← expect sv (ch '+') start
  let (klen, next) ← paranoidDecimalScanuint sv next
  let next ← expect sv (ch ',') next
  let (dlen, next) ← paranoidDecimalScanuint sv next
  let next ← expect sv (ch ':') next
  let k ← substrView sv next klen
  if k.data.length ≠ klen then throwE .outOfRange (bytes "klen too large")
  else
    let next ← expect sv (ch '-') (addW next k.data.length)
    let next ← expect sv (ch '>') next
    let d ← substrView sv next dlen
    if d.data.length ≠ dlen then throwE .outOfRange (bytes "dlen too large")
    else
      let next ← expect sv (ch '\n') (addW next d.data.length)
      .ok ((k, d), next)

/-- One record, as `format_crf` writes it. -/
def formatCrfRecord (p : Bytes × Bytes) : Bytes :=
  [ch '+'] ++ decimal p.1.length ++ [ch ','] ++ decimal p.2.length ++ [ch ':'] ++ p.1 ++ bytes "->" ++ p.2
    ++ [ch '\n']

/-- `format_crf(b, e)`. -/
def formatCrf (pairs : List (Bytes × Bytes)) : Bytes := pairs.flatMap formatCrfRecord ++ [ch '\n']

/-! ## The form of a record -/

/-- A record with the lengths as they are written. -/
def crfText (klen dlen : Numeral) (key data : Bytes) : Bytes :=
  ch '+' :: (klen.text ++ ch ',' :: (dlen.text ++ ch ':' :: (key ++ ch '-' :: ch '>' :: (data ++ [ch '\n']))))

/-- The text is a record: leading zeros are allowed in its lengths. -/
def IsCrfRecord (text key data : Bytes) : Prop :=
  ∃ klen dlen : Numeral, klen.value = key.length ∧ dlen.value = data.length ∧ text = crfText klen dlen key data

theorem formatCrfRecord_isCrfRecord (p : Bytes × Bytes) : IsCrfRecord (formatCrfRecord p) p.1 p.2 := by
  refine ⟨.ofNat p.1.length, .ofNat p.2.length, Numeral.value_ofNat _, Numeral.value_ofNat _, ?_⟩
  have harrow : bytes "->" = [ch '-', ch '>'] := by decide
  simp [formatCrfRecord, crfText, harrow]

variable {sv : Bytes} {start pos e n : ℕ} {c : UInt8} {rest key data : Bytes}

/-! ## The steps of the scanner -/

theorem digitRun_drop (l : Bytes) : digitRun 10 (l.drop (digitRun 10 l).length) = [] := by
  induction l with
  | nil => rfl
  | cons c l ih =>
    by_cases hc : digitcvt 10 c = 10
    · have hnil : digitRun 10 (c :: l) = [] := by rw [digitRun, if_pos hc]
      rw [hnil]
      exact hnil
    · have hcons : digitRun 10 (c :: l) = digitcvt 10 c :: digitRun 10 l := by rw [digitRun, if_neg hc]
      rw [hcons, List.length_cons, List.drop_succ_cons]
      exact ih

theorem paranoidDecimalScanuint_eq_ok_iff :
    paranoidDecimalScanuint sv pos = .ok (n, e)
      ↔ ∃ m : Numeral, sv.drop pos = m.text ++ sv.drop (pos + m.text.length)
        ∧ digitRun 10 (sv.drop (pos + m.text.length)) = [] ∧ n = m.value ∧ n < 2 ^ 64
        ∧ e = pos + m.text.length := by
  unfold paranoidDecimalScanuint
  rw [bind_eq_ok_iff]
  constructor
  · rintro ⟨⟨v, ret⟩, hscan, h⟩
    dsimp only at h
    split at h
    · exact absurd h (throwE_ne_ok _ _ _)
    · cases h
      obtain ⟨hne, hv, hlt, he⟩ := (scanintU_ten_eq_ok_iff _ _ _ _).mp hscan
      refine ⟨⟨digitRun 10 (sv.drop pos), hne, fun _ => digitRun_lt⟩, ?_, ?_, hv, hlt, ?_⟩
      · rw [Numeral.text_length, ← List.drop_drop]
        exact digitRun_prefix (sv.drop pos)
      · rw [Numeral.text_length, ← List.drop_drop]
        exact digitRun_drop (sv.drop pos)
      · rw [he, Numeral.text_length]
  · rintro ⟨m, hdrop, hrest, rfl, hlt, rfl⟩
    have hrun : digitRun 10 (sv.drop pos) = m.digits := by rw [hdrop, m.digitRun_text hrest]
    refine ⟨_, (scanintU_ten_eq_ok_iff _ _ _ _).mpr ⟨hrun ▸ m.ne_nil, rfl, ?_, rfl⟩, ?_⟩
    · rwa [hrun]
    · have hpos : 0 < m.text.length := List.length_pos_iff.mpr m.text_ne_nil
      have hlen := congrArg List.length hdrop
      rw [List.length_append, List.length_drop, List.length_drop] at hlen
      dsimp only
      rw [hrun, ← m.text_length, if_neg (by omega)]
      rfl

theorem substrView_eq_ok_iff {v : View} :
    substrView sv pos n = .ok v ↔ pos ≤ sv.length ∧ v = ⟨pos, slice sv pos n⟩ := by
  unfold substrView
  rw [bind_eq_ok_iff]
  constructor
  · rintro ⟨data, hdata, h⟩
    obtain ⟨hle, rfl⟩ := substr_eq_ok_iff.mp hdata
    exact ⟨hle, (Except.ok.inj h).symm⟩
  · rintro ⟨hle, rfl⟩
    exact ⟨_, substr_eq_ok_iff.mpr ⟨hle, rfl⟩, rfl⟩

theorem substrView_of_drop {a b : Bytes} (h : sv.drop pos = a ++ b) (hle : pos ≤ sv.length) :
    substrView sv pos a.length = .ok ⟨pos, a⟩ :=
  substrView_eq_ok_iff.mpr ⟨hle, by rw [slice_of_drop_append h]⟩

/-- A view of all the bytes that were asked for. -/
theorem slice_inside (hle : pos ≤ sv.length) (hlen : (slice sv pos n).length = n) :
    View.Inside ⟨pos, slice sv pos n⟩ sv := by
  have hbound := hlen
  rw [slice, List.length_take, List.length_drop] at hbound
  constructor
  · dsimp only
    rw [hlen]
    omega
  · dsimp only
    rw [hlen]

section Small

variable (hsv : sv.length < sizeMod)
include hsv

theorem expect_eq_ok_iff : expect sv c pos = .ok e ↔ sv.drop pos = c :: sv.drop (pos + 1) ∧ e = pos + 1 := by
  unfold expect
  rw [bind_eq_ok_iff]
  constructor
  · rintro ⟨b, hb, h⟩
    rw [at?_eq_ok_iff] at hb
    obtain ⟨l, hl⟩ := exists_drop_of_getElem? hb
    have hlt := lt_of_drop_cons hl
    split at h
    · exact absurd h (throwE_ne_ok _ _ _)
    · next hbc =>
      rw [not_not] at hbc
      rw [addW_eq (by omega), Except.ok.injEq] at h
      exact ⟨by rw [drop_of_drop_cons hl, hl, hbc], h.symm⟩
  · rintro ⟨hl, rfl⟩
    have hlt := lt_of_drop_cons hl
    refine ⟨c, at?_eq_ok_iff.mpr (getElem?_of_drop hl), ?_⟩
    rw [if_neg (not_not.mpr rfl), addW_eq (by omega)]

/-- What is scanned is a record, and the views are of its key and data. -/
theorem svscanCrfOnerecord_inv {k d : View} (h : svscanCrfOnerecord sv start = .ok ((k, d), e)) :
    ∃ text, IsCrfRecord text k.data d.data ∧ sv.drop start = text ++ sv.drop e ∧ e = start + text.length
      ∧ k.Inside sv ∧ d.Inside sv := by
  unfold svscanCrfOnerecord at h
  obtain ⟨next, h₁, h⟩ := bind_eq_ok_iff.mp h
  obtain ⟨hplus, rfl⟩ := (expect_eq_ok_iff hsv).mp h₁
  obtain ⟨⟨klen, next⟩, h₂, h⟩ := bind_eq_ok_iff.mp h
  obtain ⟨km, hkm, -, rfl, -, rfl⟩ := paranoidDecimalScanuint_eq_ok_iff.mp h₂
  dsimp only at h
  obtain ⟨next, h₃, h⟩ := bind_eq_ok_iff.mp h
  obtain ⟨hcomma, rfl⟩ := (expect_eq_ok_iff hsv).mp h₃
  obtain ⟨⟨dlen, next⟩, h₄, h⟩ := bind_eq_ok_iff.mp h
  obtain ⟨dm, hdm, -, rfl, -, rfl⟩ := paranoidDecimalScanuint_eq_ok_iff.mp h₄
  dsimp only at h
  obtain ⟨next, h₅, h⟩ := bind_eq_ok_iff.mp h
  obtain ⟨hcolon, rfl⟩ := (expect_eq_ok_iff hsv).mp h₅
  obtain ⟨k', h₆, h⟩ := bind_eq_ok_iff.mp h
  obtain ⟨hkle, rfl⟩ := substrView_eq_ok_iff.mp h₆
  dsimp only at h
  split at h
  · exact absurd h (throwE_ne_ok _ _ _)
  next hklen =>
  rw [not_not] at hklen
  have hkin := slice_inside hkle hklen
  have hkend := hkin.1
  dsimp only at hkend
  obtain ⟨next, h₇, h⟩ := bind_eq_ok_iff.mp h
  rw [addW_eq (by omega), hklen] at h₇
  obtain ⟨hminus, rfl⟩ := (expect_eq_ok_iff hsv).mp h₇
  obtain ⟨next, h₈, h⟩ := bind_eq_ok_iff.mp h
  obtain ⟨hgreater, rfl⟩ := (expect_eq_ok_iff hsv).mp h₈
  obtain ⟨d', h₉, h⟩ := bind_eq_ok_iff.mp h
  obtain ⟨hdle, rfl⟩ := substrView_eq_ok_iff.mp h₉
  dsimp only at h
  split at h
  · exact absurd h (throwE_ne_ok _ _ _)
  next hdlen =>
  rw [not_not] at hdlen
  have hdin := slice_inside hdle hdlen
  have hdend := hdin.1
  dsimp only at hdend
  obtain ⟨next, h₁₀, h⟩ := bind_eq_ok_iff.mp h
  rw [addW_eq (by omega), hdlen] at h₁₀
  obtain ⟨hnewline, rfl⟩ := (expect_eq_ok_iff hsv).mp h₁₀
  cases h
  refine ⟨_, ⟨km, dm, hklen.symm, hdlen.symm, rfl⟩, ?_, ?_, hkin, hdin⟩
  · -- Each part stands where the one before it ends.
    rw [hplus, hkm, hcomma, hdm, hcolon, drop_eq_slice_append sv _ km.value, hminus, hgreater,
      drop_eq_slice_append sv _ dm.value, hnewline]
    simp [crfText]
  · simp only [crfText, List.length_cons, List.length_append, List.length_nil, hklen, hdlen]
    omega

/-- A record is scanned. -/
theorem svscanCrfOnerecord_of_text {text : Bytes} (htext : IsCrfRecord text key data)
    (h : sv.drop start = text ++ rest) :
    ∃ k d, svscanCrfOnerecord sv start = .ok ((k, d), start + text.length) ∧ k.data = key ∧ d.data = data := by
  obtain ⟨km, dm, hkm, hdm, rfl⟩ := htext
  have hle : start ≤ sv.length := by
    have hlt : start < sv.length := by
      have hlen := congrArg List.length h
      rw [List.length_drop, List.length_append, crfText, List.length_cons] at hlen
      omega
    exact hlt.le
  have hend := le_of_drop_append h hle
  have hplus : sv.drop start = ch '+' :: (km.text ++ ch ',' :: (dm.text ++ ch ':' :: (key ++ ch '-' :: ch '>' ::
      (data ++ ch '\n' :: rest)))) := by
    rw [h]
    simp [crfText]
  simp only [crfText, List.length_cons, List.length_append, List.length_nil] at hend ⊢
  -- What stands at each of the offsets.
  have hklen := drop_of_drop_cons hplus
  have hcomma := drop_of_drop_append hklen
  have hdlen := drop_of_drop_cons hcomma
  have hcolon := drop_of_drop_append hdlen
  have hkey := drop_of_drop_cons hcolon
  have hminus := drop_of_drop_append hkey
  have hgreater := drop_of_drop_cons hminus
  have hdata := drop_of_drop_cons hgreater
  have hnewline := drop_of_drop_append hdata
  have hrest := drop_of_drop_cons hnewline
  have hkscan : paranoidDecimalScanuint sv (start + 1) = .ok (key.length, start + 1 + km.text.length) :=
    paranoidDecimalScanuint_eq_ok_iff.mpr ⟨km, by rw [hklen, hcomma], by rw [hcomma]; rfl, hkm.symm,
      by unfold sizeMod at hsv; omega, rfl⟩
  have hdscan : paranoidDecimalScanuint sv (start + 1 + km.text.length + 1)
      = .ok (data.length, start + 1 + km.text.length + 1 + dm.text.length) :=
    paranoidDecimalScanuint_eq_ok_iff.mpr ⟨dm, by rw [hdlen, hcolon], by rw [hcolon]; rfl, hdm.symm,
      by unfold sizeMod at hsv; omega, rfl⟩
  have hkview := substrView_of_drop hkey (by omega)
  have hdview := substrView_of_drop hdata (by omega)
  refine ⟨⟨start + 1 + km.text.length + 1 + dm.text.length + 1, key⟩,
    ⟨start + 1 + km.text.length + 1 + dm.text.length + 1 + key.length + 1 + 1, data⟩, ?_, rfl, rfl⟩
  unfold svscanCrfOnerecord
  refine bind_eq_ok_iff.mpr ⟨_, (expect_eq_ok_iff hsv).mpr ⟨by rw [hplus, hklen], rfl⟩, ?_⟩
  refine bind_eq_ok_iff.mpr ⟨_, hkscan, ?_⟩
  refine bind_eq_ok_iff.mpr ⟨_, (expect_eq_ok_iff hsv).mpr ⟨by rw [hcomma, hdlen], rfl⟩, ?_⟩
  refine bind_eq_ok_iff.mpr ⟨_, hdscan, ?_⟩
  refine bind_eq_ok_iff.mpr ⟨_, (expect_eq_ok_iff hsv).mpr ⟨by rw [hcolon, hkey], rfl⟩, ?_⟩
  refine bind_eq_ok_iff.mpr ⟨_, hkview, ?_⟩
  dsimp only
  rw [if_neg (not_not.mpr rfl), addW_eq (by omega)]
  refine bind_eq_ok_iff.mpr ⟨_, (expect_eq_ok_iff hsv).mpr ⟨by rw [hminus, hgreater], rfl⟩, ?_⟩
  refine bind_eq_ok_iff.mpr ⟨_, (expect_eq_ok_iff hsv).mpr ⟨by rw [hgreater, hdata], rfl⟩, ?_⟩
  refine bind_eq_ok_iff.mpr ⟨_, hdview, ?_⟩
  dsimp only
  rw [if_neg (not_not.mpr rfl), addW_eq (by omega)]
  refine bind_eq_ok_iff.mpr ⟨_, (expect_eq_ok_iff hsv).mpr ⟨by rw [hnewline, hrest], rfl⟩, ?_⟩
  rw [Except.ok.injEq, Prod.mk.injEq]
  exact ⟨rfl, by omega⟩

/-- A record is not empty, and ends inside the input. -/
theorem svscanCrfOnerecord_progress {r : CrfRecord} (h : svscanCrfOnerecord sv start = .ok (r, e)) :
    start < e ∧ e ≤ sv.length := by
  obtain ⟨text, ⟨km, dm, -, -, rfl⟩, hdrop, rfl, -, -⟩ := svscanCrfOnerecord_inv hsv h
  have hlen := congrArg List.length hdrop
  rw [List.length_append, List.length_drop, List.length_drop] at hlen
  have hpos : 0 < (crfText km dm r.1.data r.2.data).length := Nat.succ_pos _
  omega

end Small

theorem svscanCrfOnerecord_inBounds (sv : Bytes) (start : ℕ) : InBounds (svscanCrfOnerecord sv start) := by
  have hexpect : ∀ c pos, InBounds (expect sv c pos) := by
    intro c pos
    refine (at?_inBounds sv pos).bind fun b _ => ?_
    split
    · exact InBounds.throwE _ _
    · exact InBounds.ok _
  have hscan : ∀ pos, InBounds (paranoidDecimalScanuint sv pos) := by
    intro pos
    refine (scanintU_ten_inBounds 64 sv pos).bind fun r _ => ?_
    dsimp only
    split
    · exact InBounds.throwE _ _
    · exact InBounds.ok _
  have hview : ∀ pos n, InBounds (substrView sv pos n) := fun pos n =>
    (substr_inBounds sv pos n).bind fun _ _ => InBounds.ok _
  refine (hexpect _ _).bind fun _ _ => (hscan _).bind fun klen _ => (hexpect _ _).bind fun _ _ =>
    (hscan _).bind fun dlen _ => (hexpect _ _).bind fun _ _ => (hview _ _).bind fun k _ => ?_
  split
  · exact InBounds.throwE _ _
  · refine (hexpect _ _).bind fun _ _ => (hexpect _ _).bind fun _ _ => (hview _ _).bind fun d _ => ?_
    split
    · exact InBounds.throwE _ _
    · exact (hexpect _ _).bind fun _ _ => InBounds.ok _

/-! ## The loop -/

/-- The `while` loop of `svscan_crf`: the calls of `f` that it makes, and how it ends. -/
def svscanCrfLoop (sv : Bytes) (hsv : sv.length < sizeMod) (next : ℕ) : List CrfRecord × Res ℕ :=
  match at? sv next with
  | .error e => ([], .error e)
  | .ok c =>
    if c = ch '\n' then ([], .ok (addW next 1))
    else
      match _h : svscanCrfOnerecord sv next with
      | .error e => ([], .error e)
      | .ok (r, next') =>
        let more := svscanCrfLoop sv hsv next'
        (r :: more.1, more.2)
termination_by sv.length + 1 - next
decreasing_by
  have := svscanCrfOnerecord_progress hsv _h
  omega

/-- The dynamic type is `std::runtime_error` or derived from it. -/
def ExnKind.isRuntimeError : ExnKind → Bool
  | .runtimeError => true
  | .systemError _ _ => true
  | _ => false

/-- `svscan_crf(in, f, start)`. -/
def svscanCrf (sv : Bytes) (hsv : sv.length < sizeMod) (start : ℕ) : List CrfRecord × Res ℕ :=
  let r := svscanCrfLoop sv hsv start
  (r.1, catchE r.2 fun e => .error (.throws (if e.outer.kind.isRuntimeError then
    e.nest .runtimeError (bytes "in svscan_crf") else e)))

/-- A sequence of records, with their keys and data. -/
inductive IsCrfRecords : Bytes → List (Bytes × Bytes) → Prop
  | nil : IsCrfRecords [] []
  | cons {text key data more : Bytes} {pairs : List (Bytes × Bytes)} : IsCrfRecord text key data →
      IsCrfRecords more pairs → IsCrfRecords (text ++ more) ((key, data) :: pairs)

/-- What the callback sees. -/
def CrfRecord.pair (r : CrfRecord) : Bytes × Bytes := (r.1.data, r.2.data)

/-- What `format_crf` writes in front of the last newline is a sequence of records. -/
theorem formatCrf_isCrfRecords (pairs : List (Bytes × Bytes)) :
    IsCrfRecords (pairs.flatMap formatCrfRecord) pairs := by
  induction pairs with
  | nil => exact .nil
  | cons p pairs ih => exact .cons (formatCrfRecord_isCrfRecord p) ih

/-- A record begins with a plus. -/
theorem IsCrfRecord.not_newline {text more : Bytes} (h : IsCrfRecord text key data) :
    ¬ text <+: ch '\n' :: more := by
  obtain ⟨km, dm, -, -, rfl⟩ := h
  rintro ⟨t, ht⟩
  rw [crfText, List.cons_append] at ht
  exact absurd (List.cons.inj ht).1 (by decide)

section Loop

variable {text more : Bytes} {pairs : List (Bytes × Bytes)} (hsv : sv.length < sizeMod)

theorem svscanCrfLoop_of_record {next next' : ℕ} {r : CrfRecord} (hat : at? sv next = .ok c) (hc : c ≠ ch '\n')
    (hone : svscanCrfOnerecord sv next = .ok (r, next')) :
    svscanCrfLoop sv hsv next = (r :: (svscanCrfLoop sv hsv next').1, (svscanCrfLoop sv hsv next').2) := by
  rw [svscanCrfLoop, hat]
  dsimp only
  rw [if_neg hc]
  split
  · next e he =>
    rw [hone] at he
    cases he
  · next r' next'' hr =>
    rw [hone] at hr
    cases hr
    rfl

/-- Records with a newline behind them are scanned to the end. -/
theorem svscanCrfLoop_of_text (hrecords : IsCrfRecords text pairs) (h : sv.drop start = text ++ ch '\n' :: more) :
    ∃ calls, svscanCrfLoop sv hsv start = (calls, .ok (start + text.length + 1))
      ∧ calls.map CrfRecord.pair = pairs := by
  induction hrecords generalizing start with
  | nil =>
    have hlt := lt_of_drop_cons h
    refine ⟨[], ?_, rfl⟩
    rw [svscanCrfLoop, at?_eq_ok_iff.mpr (getElem?_of_drop h)]
    dsimp only
    rw [if_pos rfl, addW_eq (by omega)]
    rfl
  | @cons text key data more' pairs hrecord hrecords ih =>
    rw [List.append_assoc] at h
    obtain ⟨k, d, hone, rfl, rfl⟩ := svscanCrfOnerecord_of_text hsv hrecord h
    obtain ⟨calls, hloop, hcalls⟩ := ih (drop_of_drop_append h)
    refine ⟨(k, d) :: calls, ?_, by rw [List.map_cons, hcalls]; rfl⟩
    obtain ⟨km, dm, -, -, rfl⟩ := hrecord
    have hplus : at? sv start = .ok (ch '+') := at?_eq_ok_iff.mpr (getElem?_of_drop h)
    rw [svscanCrfLoop_of_record hsv hplus (by decide) hone, hloop, List.length_append, Nat.add_assoc start]

/-- However the loop ends, it has called `f` for all complete records in front of that place. -/
theorem svscanCrfLoop_spec (start : ℕ) :
    (∀ r ∈ (svscanCrfLoop sv hsv start).1, r.1.Inside sv ∧ r.2.Inside sv)
      ∧ ∃ text rest, sv.drop start = text ++ rest
        ∧ IsCrfRecords text ((svscanCrfLoop sv hsv start).1.map CrfRecord.pair)
        ∧ (∀ t key data, IsCrfRecord t key data → ¬ t <+: rest)
        ∧ ((∃ more, rest = ch '\n' :: more ∧ (svscanCrfLoop sv hsv start).2 = .ok (start + text.length + 1))
          ∨ Throws (svscanCrfLoop sv hsv start).2) := by
  induction start using svscanCrfLoop.induct sv hsv with
  | case1 next e hat =>
    have hres : svscanCrfLoop sv hsv next = ([], .error e) := by rw [svscanCrfLoop, hat]
    have hnil : sv.drop next = [] := by
      rw [List.drop_eq_nil_iff]
      by_contra hlt
      rw [at?, List.getElem?_eq_getElem (not_le.mp hlt)] at hat
      cases hat
    rw [hres]
    refine ⟨by simp, [], [], hnil, .nil, ?_, Or.inr ?_⟩
    · intro t key data ht hpre
      obtain ⟨km, dm, -, -, rfl⟩ := ht
      exact absurd (List.prefix_nil.mp hpre) (List.cons_ne_nil _ _)
    · have hin := at?_inBounds sv next
      rw [hat] at hin
      exact hin.throws_error
  | case2 next hat =>
    obtain ⟨l, hl⟩ := exists_drop_of_getElem? (at?_eq_ok_iff.mp hat)
    have hlt := lt_of_drop_cons hl
    have hres : svscanCrfLoop sv hsv next = ([], .ok (next + 1)) := by
      rw [svscanCrfLoop, hat]
      dsimp only
      rw [if_pos rfl, addW_eq (by omega)]
    rw [hres]
    exact ⟨by simp, [], _, hl, .nil, fun _ _ _ ht => ht.not_newline, Or.inl ⟨l, rfl, rfl⟩⟩
  | case3 next c hat hc e hone =>
    have hres : svscanCrfLoop sv hsv next = ([], .error e) := by
      rw [svscanCrfLoop, hat]
      dsimp only
      rw [if_neg hc]
      split
      · next e' he =>
        rw [hone] at he
        cases he
        rfl
      · next r next' hr =>
        rw [hone] at hr
        cases hr
    rw [hres]
    refine ⟨by simp, [], _, rfl, .nil, ?_, Or.inr ?_⟩
    · rintro t key data ht ⟨rest, hrest⟩
      obtain ⟨k, d, hok, -⟩ := svscanCrfOnerecord_of_text hsv ht hrest.symm
      rw [hone] at hok
      cases hok
    · have hin := svscanCrfOnerecord_inBounds sv next
      rw [hone] at hin
      exact hin.throws_error
  | case4 next c hat hc r next' hone ih =>
    obtain ⟨t, ht, hdrop, rfl, hk, hd⟩ := svscanCrfOnerecord_inv hsv hone
    obtain ⟨hinside, text, rest, hsplit, hrecords, hmax, hend⟩ := ih
    rw [svscanCrfLoop_of_record hsv hat hc hone]
    refine ⟨?_, t ++ text, rest, ?_, .cons ht hrecords, hmax, ?_⟩
    · intro r' hr'
      rcases List.mem_cons.mp hr' with rfl | hr'
      · exact ⟨hk, hd⟩
      · exact hinside r' hr'
    · rw [hdrop, hsplit, List.append_assoc]
    · rcases hend with ⟨more, hmore, hok⟩ | hthrows
      · exact Or.inl ⟨more, hmore, by rw [hok, List.length_append, Nat.add_assoc next]⟩
      · exact Or.inr hthrows

theorem svscanCrf_eq_ok_iff : (svscanCrf sv hsv start).2 = .ok e ↔ (svscanCrfLoop sv hsv start).2 = .ok e :=
  catchE_eq_ok_iff fun _ => by simp

end Loop

/-- The scanner reads back what `format_crf` has written; it accepts exactly the records with a newline behind
them; and when it throws, it has called `f` for exactly the records up to there. -/
theorem svscanCrf_exact {sv : Bytes} (hsv : sv.length < sizeMod) :
    (∀ pre post pairs, sv = pre ++ formatCrf pairs ++ post →
      ∃ calls, svscanCrf sv hsv pre.length = (calls, .ok (pre.length + (formatCrf pairs).length))
        ∧ calls.map CrfRecord.pair = pairs)
      ∧ ∀ start, (∀ e, (svscanCrf sv hsv start).2 = .ok e
          ↔ ∃ text pairs more, IsCrfRecords text pairs ∧ sv.drop start = text ++ ch '\n' :: more
            ∧ e = start + text.length + 1)
        ∧ (∀ r ∈ (svscanCrf sv hsv start).1, r.1.Inside sv ∧ r.2.Inside sv)
        ∧ ((∃ e, (svscanCrf sv hsv start).2 = .ok e) ∨ Throws (svscanCrf sv hsv start).2)
        ∧ ∃ text rest, sv.drop start = text ++ rest
          ∧ IsCrfRecords text ((svscanCrf sv hsv start).1.map CrfRecord.pair)
          ∧ ∀ t key data, IsCrfRecord t key data → ¬ t <+: rest := by
  constructor
  · rintro pre post pairs rfl
    have hdrop : (pre ++ formatCrf pairs ++ post).drop pre.length
        = pairs.flatMap formatCrfRecord ++ ch '\n' :: post := by
      rw [List.append_assoc, List.drop_left, formatCrf]
      simp
    obtain ⟨calls, hloop, hcalls⟩ := svscanCrfLoop_of_text hsv (formatCrf_isCrfRecords pairs) hdrop
    refine ⟨calls, ?_, hcalls⟩
    rw [svscanCrf, hloop, formatCrf, List.length_append, List.length_singleton, ← Nat.add_assoc]
    rfl
  · intro start
    obtain ⟨hinside, text, rest, hsplit, hrecords, hmax, hend⟩ := svscanCrfLoop_spec hsv start
    refine ⟨?_, hinside, ?_, text, rest, hsplit, hrecords, hmax⟩
    · intro e
      rw [svscanCrf_eq_ok_iff]
      constructor
      · intro he
        rcases hend with ⟨more, rfl, hok⟩ | ⟨e', hthrows⟩
        · rw [hok, Except.ok.injEq] at he
          exact ⟨text, _, more, hrecords, hsplit, he.symm⟩
        · rw [hthrows] at he
          cases he
      · rintro ⟨text, pairs, more, hrecords, hsplit, rfl⟩
        obtain ⟨calls, hloop, -⟩ := svscanCrfLoop_of_text hsv hrecords hsplit
        rw [hloop]
    · rcases hend with ⟨more, -, hok⟩ | ⟨e', hthrows⟩
      · exact Or.inl ⟨_, (svscanCrf_eq_ok_iff hsv).mpr hok⟩
      · right
        rw [svscanCrf, hthrows]
        exact ⟨_, rfl⟩

/-- Two records, one of them with a newline in its key. -/
theorem svscanCrf_exact_newline :
    let sv := bytes "x" ++ formatCrf [(bytes "a\n", bytes "->"), ([], bytes "+")] ++ bytes "y"
    ∃ (hsv : sv.length < sizeMod) (calls : List CrfRecord), svscanCrf sv hsv 1 = (calls, .ok 23)
      ∧ calls.map CrfRecord.pair = [(bytes "a\n", bytes "->"), ([], bytes "+")] := by
  have hsv : (bytes "x" ++ formatCrf [(bytes "a\n", bytes "->"), ([], bytes "+")] ++ bytes "y").length < sizeMod := by
    decide
  obtain ⟨calls, hscan, hcalls⟩ := (svscanCrf_exact hsv).1 _ _ _ rfl
  have hlen : (bytes "x").length + (formatCrf [(bytes "a\n", bytes "->"), ([], bytes "+")]).length = 23 := by
    decide
  rw [hlen] at hscan
  exact ⟨hsv, calls, hscan, hcalls⟩

end Fs123
