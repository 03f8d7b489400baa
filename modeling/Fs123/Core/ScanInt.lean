import Fs123.Core.Exn
import Mathlib.Tactic.IntervalCases

/-!
# Integer scanning

The model of `core123/scanint.hpp` and of `svto.hpp` at integral types. The C++ templates take the
integer type, the base and a `skip_white` flag; here the type is its width `w` and its signedness is the
choice between `scanintU` and `scanintS`. A scan returns the value and the offset after its text.

The accumulation loop checks for overflow before each digit. `scanuint_eq_ok_iff` says what that amounts
to: the scan succeeds exactly when the longest run of digits is non-empty and its value fits.
-/

namespace Fs123

open Cxx

/-! ## Digits -/

/-- `_digitcvt<base>(c)`: the digit that `c` stands for, or `base` when it is none. The source compares
signed `char`s; bytes from 128 on are digits in neither reading. -/
def digitcvt (base : ℕ) (c : UInt8) : ℕ :=
  let delta : ℤ := c.toNat - 48
  if delta < base ∧ 0 ≤ delta ∧ delta < 10 then delta.toNat
  else if base ≤ 10 then base
  else
    let delta : ℤ := c.toNat - 97
    if delta + 10 < base ∧ 0 ≤ delta then (delta + 10).toNat
    else
      let delta : ℤ := c.toNat - 65
      if delta + 10 < base ∧ 0 ≤ delta then (delta + 10).toNat else base

/-- The whitespace that `_skip_white` and `svscan(sv, nullptr, start)` pass over. -/
def isWhite (c : UInt8) : Bool :=
  c = ch ' ' || c = ch '\n' || c = ch '\t' || c = 12 || c = ch '\r'

/-- `_skip_white(sv, start)`. -/
def skipWhite (sv : Bytes) (start : ℕ) : ℕ :=
  start + ((sv.drop start).takeWhile isWhite).length

/-- The values of the longest run of base-`base` digits at the front of a string. -/
def digitRun (base : ℕ) : Bytes → List ℕ
  | [] => []
  | c :: rest => if digitcvt base c = base then [] else digitcvt base c :: digitRun base rest

/-! ## Unsigned scanning -/

/-- The loop of `_scanuint`: `ret` is the value so far and `n` the number of digits taken. -/
def scanuintLoop (base umax : ℕ) : Bytes → ℕ → ℕ → Res (ℕ × ℕ)
  | [], ret, n => .ok (ret, n)
  | c :: rest, ret, n =>
    let digit := digitcvt base c
    if digit = base then .ok (ret, n)
    else if ret > umax / base ∨ (ret = umax / base ∧ digit > umax % base) then
      throwE .invalidArgument
        (bytes "scanint: overflow: result_so_far=" ++ decimal ret ++ bytes " nextdigit=" ++ decimal digit)
    else scanuintLoop base umax rest (ret * base + digit) (n + 1)

/-- `_scanuint<Utype, base>(sv, valuep, start)` for a `w`-bit `Utype`. -/
def scanuint (w base : ℕ) (sv : Bytes) (start : ℕ) : Res (ℕ × ℕ) := do
  let (ret, n) ← scanuintLoop base (2 ^ w - 1) (sv.drop start) 0 0
  if n = 0 then throwE .invalidArgument (bytes "_scanuint: no digits")
  else .ok (ret, start + n)

/-- `_scanint_rethrow("scanint", sv, start)`. -/
def scanintRethrow {α : Type} (sv : Bytes) (start : ℕ) (e : Exn) : Res α :=
  let pos := if sv.length < start then 0 else start
  let head :=
    if sv.length < start then
      bytes "scanint: error occured with start=" ++ decimal start ++ bytes " > sv.size()="
        ++ decimal sv.length ++ bytes ":  sv[0...]: "
    else bytes "scanint: error occured at pos=" ++ decimal start ++ bytes " sv[pos...]: "
  let l := sv.length - pos
  let tail := if l > 32 then slice sv pos 32 ++ bytes "..." else slice sv pos l
  .error (.throws (e.nest .invalidArgument (head ++ tail)))

/-- The `base == 0` branch of `scanint`: the first characters determine the base. -/
def scanintDetect (w : ℕ) (sv : Bytes) (start : ℕ) : Res (ℕ × ℕ) :=
  match sv.drop start with
  | [] => throwE .invalidArgument
      (bytes "scanint<base=0>(start=" ++ decimal start ++ bytes ", sv.size=" ++ decimal sv.length
        ++ bytes ")")
  | c :: rest =>
    if c = ch '0' then
      match rest with
      | [] => .ok (0, start + 1)
      | x :: rest =>
        if x = ch 'x' ∨ x = ch 'X' then
          match rest with
          | [] => .ok (0, start + 1)
          | d :: _ => if digitcvt 16 d = 16 then .ok (0, start + 1) else scanuint w 16 sv (start + 2)
        else if digitcvt 8 x = 8 then .ok (0, start + 1)
        else scanuint w 8 sv (start + 1)
    else scanuint w 10 sv start

/-- The test for a `0x` before more hex digits when the base is 16. The sum `start+2` is a `size_t`. -/
def hexPrefix (sv : Bytes) (start : ℕ) : Res Bool :=
  if addW start 2 < sv.length then
    match sv[start]?, sv[start + 1]?, sv[start + 2]? with
    | some a, some x, some d =>
      .ok (a = ch '0' && (x = ch 'x' || x = ch 'X') && digitcvt 16 d != 16)
    | _, _, _ => .error .oob
  else .ok false

/-- `scanint<Utype, base, skip_white>(sv, valuep, start)` for an unsigned `w`-bit type. -/
def scanintU (w base : ℕ) (skip : Bool) (sv : Bytes) (start : ℕ) : Res (ℕ × ℕ) :=
  let start := if skip then skipWhite sv start else start
  if base = 0 then catchE (scanintDetect w sv start) (scanintRethrow sv start)
  else do
    let hex ← if base = 16 then hexPrefix sv start else .ok false
    let start := if hex then start + 2 else start
    catchE (scanuint w base sv start) (scanintRethrow sv start)

/-! ## Signed scanning and `svto` -/

/-- `scanint<Itype, base, skip_white>(sv, valuep, start)` for a signed `w`-bit type. -/
def scanintS (w base : ℕ) (skip : Bool) (sv : Bytes) (start : ℕ) : Res (ℤ × ℕ) :=
  let start := if skip then skipWhite sv start else start
  catchE
    (match sv[start]? with
      | none => throwE .invalidArgument (bytes "scanint: no digits")
      | some c => do
        let neg := if c = ch '-' then 1 else 0
        let (u, r) ← scanintU w base false sv (start + neg)
        if u = 0 then .ok (0, r)
        else if u - neg > 2 ^ (w - 1) - 1 then
          throwE .invalidArgument
            (bytes "scanint: " ++ decimal u ++ bytes " exceeds signed maximum")
        else .ok (if neg = 1 then -((u - neg : ℕ) : ℤ) - 1 else (u - neg : ℕ), r))
    (scanintRethrow sv start)

/-- `svscan(sv, nullptr, start)`: the offset of the first non-white character, or the size. -/
def svscanWhite (sv : Bytes) (start : ℕ) : ℕ :=
  if sv.length < start then sv.length else skipWhite sv start

/-- The check that `svto` makes after its scan. -/
def svtoEnd {α : Type} (sv : Bytes) (r : α × ℕ) : Res α :=
  if r.2 ≠ sv.length ∧ svscanWhite sv r.2 ≠ sv.length then do
    let tail ← substr sv r.2 30
    throwE .invalidArgument (bytes "svto: non-whitespace following converted string: " ++ tail)
  else .ok r.1

/-- `svto<T>(sv)` for an unsigned `w`-bit type. -/
def svtoU (w : ℕ) (sv : Bytes) : Res ℕ := scanintU w 0 true sv 0 >>= svtoEnd sv

/-- `svto<T>(sv)` for a signed `w`-bit type. -/
def svtoS (w : ℕ) (sv : Bytes) : Res ℤ := scanintS w 0 true sv 0 >>= svtoEnd sv

/-! ## What the loop computes -/

theorem digitcvt_le (base : ℕ) (c : UInt8) : digitcvt base c ≤ base := by
  unfold digitcvt
  dsimp only
  split_ifs <;> omega

theorem digitRun_lt {base d : ℕ} {l : Bytes} (h : d ∈ digitRun base l) : d < base := by
  induction l with
  | nil => simp [digitRun] at h
  | cons c l ih =>
    simp only [digitRun] at h
    split at h
    · simp at h
    · next hne =>
      rcases List.mem_cons.mp h with rfl | h
      · exact lt_of_le_of_ne (digitcvt_le base c) hne
      · exact ih h

/-- The run is a prefix of the string. -/
theorem digitRun_length_le (base : ℕ) (l : Bytes) : (digitRun base l).length ≤ l.length := by
  induction l with
  | nil => simp [digitRun]
  | cons c l ih =>
    simp only [digitRun]
    split
    · simp
    · simpa using ih

/-- Accumulating more digits never makes the value smaller. -/
theorem le_foldl_digits {base : ℕ} (hb : 0 < base) (ds : List ℕ) (ret : ℕ) :
    ret ≤ ds.foldl (fun r d => r * base + d) ret := by
  induction ds generalizing ret with
  | nil => exact le_rfl
  | cons d ds ih =>
    calc ret ≤ ret * base := Nat.le_mul_of_pos_right _ hb
      _ ≤ ret * base + d := Nat.le_add_right _ _
      _ ≤ _ := ih _

/-- The overflow test of the loop is the comparison it stands for. -/
theorem overflow_iff {base umax ret d : ℕ} (hb : 0 < base) (hd : d < base) :
    (ret > umax / base ∨ (ret = umax / base ∧ d > umax % base)) ↔ umax < ret * base + d := by
  have hdm := Nat.div_add_mod umax base
  have hmod := Nat.mod_lt umax hb
  rcases lt_trichotomy ret (umax / base) with h | h | h
  · have : (ret + 1) * base ≤ umax / base * base := Nat.mul_le_mul_right _ h
    rw [Nat.mul_comm base] at hdm
    rw [Nat.add_mul, Nat.one_mul] at this
    omega
  · subst h
    rw [Nat.mul_comm base] at hdm
    omega
  · have : (umax / base + 1) * base ≤ ret * base := Nat.mul_le_mul_right _ h
    rw [Nat.mul_comm base] at hdm
    rw [Nat.add_mul, Nat.one_mul] at this
    omega

theorem scanuintLoop_eq_ok_iff {base umax : ℕ} (hb : 0 < base) (l : Bytes) (ret n v m : ℕ)
    (hret : ret ≤ umax) :
    scanuintLoop base umax l ret n = .ok (v, m)
      ↔ v = (digitRun base l).foldl (fun r d => r * base + d) ret ∧ v ≤ umax
        ∧ m = n + (digitRun base l).length := by
  induction l generalizing ret n with
  | nil =>
    simp only [scanuintLoop, digitRun, List.foldl_nil, List.length_nil, Nat.add_zero,
      Except.ok.injEq, Prod.mk.injEq]
    constructor
    · rintro ⟨rfl, rfl⟩
      exact ⟨rfl, hret, rfl⟩
    · rintro ⟨rfl, -, rfl⟩
      exact ⟨rfl, rfl⟩
  | cons c l ih =>
    simp only [scanuintLoop, digitRun]
    by_cases hc : digitcvt base c = base
    · simp only [hc, if_true, List.foldl_nil, List.length_nil, Nat.add_zero, Except.ok.injEq,
        Prod.mk.injEq]
      constructor
      · rintro ⟨rfl, rfl⟩
        exact ⟨rfl, hret, rfl⟩
      · rintro ⟨rfl, -, rfl⟩
        exact ⟨rfl, rfl⟩
    · have hd : digitcvt base c < base := lt_of_le_of_ne (digitcvt_le base c) hc
      rw [if_neg hc, if_neg hc]
      simp only [List.foldl_cons, List.length_cons]
      by_cases hov : umax < ret * base + digitcvt base c
      · -- The code throws here; the final value can only be larger.
        rw [if_pos ((overflow_iff hb hd).mpr hov)]
        have hle := le_foldl_digits hb (digitRun base l) (ret * base + digitcvt base c)
        simp only [throwE_ne_ok, false_iff]
        rintro ⟨rfl, hv, -⟩
        omega
      · rw [if_neg (fun h => hov ((overflow_iff hb hd).mp h)), ih _ _ (by omega)]
        have hadd : n + 1 + (digitRun base l).length = n + ((digitRun base l).length + 1) := by
          omega
        rw [hadd]

/-- `_scanuint` succeeds exactly on a non-empty run of digits whose value fits the type. -/
theorem scanuint_eq_ok_iff {w base : ℕ} (hb : 0 < base) (sv : Bytes) (start v e : ℕ) :
    scanuint w base sv start = .ok (v, e)
      ↔ digitRun base (sv.drop start) ≠ [] ∧ v = digitsVal base (digitRun base (sv.drop start))
        ∧ v < 2 ^ w ∧ e = start + (digitRun base (sv.drop start)).length := by
  have hpow : 0 < 2 ^ w := Nat.two_pow_pos w
  unfold scanuint
  rw [bind_eq_ok_iff]
  constructor
  · rintro ⟨⟨ret, n⟩, hloop, hrest⟩
    rw [scanuintLoop_eq_ok_iff hb _ _ _ _ _ (Nat.zero_le _)] at hloop
    obtain ⟨hv, hle, hn⟩ := hloop
    simp only at hrest
    split at hrest
    · simp at hrest
    · next hn0 =>
      simp only [Except.ok.injEq, Prod.mk.injEq] at hrest
      obtain ⟨rfl, rfl⟩ := hrest
      refine ⟨?_, hv, by omega, by omega⟩
      intro hnil
      rw [hnil] at hn
      simp at hn
      omega
  · rintro ⟨hne, hv, hlt, rfl⟩
    have hlen := List.length_pos_iff.mpr hne
    refine ⟨(v, (digitRun base (sv.drop start)).length), ?_, ?_⟩
    · rw [scanuintLoop_eq_ok_iff hb _ _ _ _ _ (Nat.zero_le _)]
      exact ⟨hv, by omega, by omega⟩
    · simp only
      rw [if_neg (by omega)]

/-- In base 10 and without skipping whitespace there is nothing before the digits. -/
theorem scanintU_ten_eq_ok_iff {w : ℕ} (sv : Bytes) (start v e : ℕ) :
    scanintU w 10 false sv start = .ok (v, e)
      ↔ digitRun 10 (sv.drop start) ≠ [] ∧ v = digitsVal 10 (digitRun 10 (sv.drop start))
        ∧ v < 2 ^ w ∧ e = start + (digitRun 10 (sv.drop start)).length := by
  rw [← scanuint_eq_ok_iff (by norm_num)]
  simp only [scanintU, Bool.false_eq_true, if_false]
  exact catchE_eq_ok_iff (fun _ => by simp [scanintRethrow])

/-! ## Failures -/

theorem scanuintLoop_inBounds (base umax : ℕ) (l : Bytes) (ret n : ℕ) :
    InBounds (scanuintLoop base umax l ret n) := by
  induction l generalizing ret n with
  | nil => exact InBounds.ok _
  | cons c l ih =>
    simp only [scanuintLoop]
    split_ifs
    · exact InBounds.ok _
    · exact InBounds.throwE _ _
    · exact ih _ _

theorem scanuint_inBounds (w base : ℕ) (sv : Bytes) (start : ℕ) : InBounds (scanuint w base sv start) := by
  refine (scanuintLoop_inBounds _ _ _ _ _).bind fun a _ => ?_
  dsimp only
  split
  · exact InBounds.throwE _ _
  · exact InBounds.ok _

/-- In base 10 no prefix is looked for. -/
theorem scanintU_ten_inBounds (w : ℕ) (sv : Bytes) (start : ℕ) : InBounds (scanintU w 10 false sv start) :=
  (scanuint_inBounds w 10 sv start).catchE fun _ => InBounds.throws _

/-! ## Reading back decimal text -/

theorem digitcvt_digitByte {d : ℕ} (h : d < 10) : digitcvt 10 (digitByte d) = d := by
  simp only [digitcvt, digitByte_toNat h]
  rw [if_pos (by omega)]
  omega

/-- A byte that is no digit does not occur in a decimal text. -/
theorem not_mem_decimal {c : UInt8} (h : digitcvt 10 c = 10) (n : ℕ) : c ∉ decimal n := by
  intro hmem
  obtain ⟨d, hd, rfl⟩ := List.mem_map.mp hmem
  have hlt := decimalDigits_lt hd
  rw [digitcvt_digitByte hlt] at h
  omega

theorem not_mem_decimalInt {c : UInt8} (hd : digitcvt 10 c = 10) (hm : c ≠ ch '-') (z : ℤ) :
    c ∉ decimalInt z := by
  cases z with
  | ofNat n => exact not_mem_decimal hd n
  | negSucc n =>
    rw [decimalInt, List.mem_cons, not_or]
    exact ⟨hm, not_mem_decimal hd _⟩

/-- A text that may follow a number without changing how it is read in base 0 or 10. -/
def EndsNumber (rest : Bytes) : Prop :=
  ∀ c, rest.head? = some c → digitcvt 10 c = 10 ∧ c ≠ ch 'x' ∧ c ≠ ch 'X'

theorem EndsNumber.digitRun_eq_nil {rest : Bytes} (h : EndsNumber rest) : digitRun 10 rest = [] := by
  cases rest with
  | nil => rfl
  | cons c rest => simp [digitRun, (h c rfl).1]

@[simp] theorem EndsNumber.nil : EndsNumber [] := by
  intro c hc
  simp at hc

theorem EndsNumber.cons {c : UInt8} (rest : Bytes)
    (h : digitcvt 10 c = 10 ∧ c ≠ ch 'x' ∧ c ≠ ch 'X') : EndsNumber (c :: rest) := by
  intro c' hc
  obtain rfl : c = c' := by simpa using hc
  exact h

theorem digitRun_map_digitByte (ds : List ℕ) (hds : ∀ d ∈ ds, d < 10) (rest : Bytes) :
    digitRun 10 (ds.map digitByte ++ rest) = ds ++ digitRun 10 rest := by
  induction ds with
  | nil => rfl
  | cons d ds ih =>
    have hd : d < 10 := hds d (by simp)
    simp only [List.map_cons, List.cons_append, digitRun, digitcvt_digitByte hd]
    rw [if_neg (by omega), ih (fun d' h' => hds d' (by simp [h']))]

theorem digitRun_decimal (n : ℕ) {rest : Bytes} (hrest : digitRun 10 rest = []) :
    digitRun 10 (decimal n ++ rest) = decimalDigits n := by
  rw [decimal, digitRun_map_digitByte _ (fun d hd => decimalDigits_lt hd), hrest, List.append_nil]

/-- Scanning a decimal text in base 10 gives the number back. -/
theorem scanuint_decimal {w n start : ℕ} {sv rest : Bytes} (hn : n < 2 ^ w)
    (hsv : sv.drop start = decimal n ++ rest) (hrest : digitRun 10 rest = []) :
    scanuint w 10 sv start = .ok (n, start + (decimal n).length) := by
  rw [scanuint_eq_ok_iff (by norm_num), hsv, digitRun_decimal n hrest]
  exact ⟨decimalDigits_ne_nil n, (digitsVal_decimalDigits n).symm, hn, by rw [decimal_length]⟩

/-- In base 10 without skipping whitespace. -/
theorem scanintU_ten_decimal {w n start : ℕ} {sv rest : Bytes} (hn : n < 2 ^ w)
    (hsv : sv.drop start = decimal n ++ rest) (hrest : digitRun 10 rest = []) :
    scanintU w 10 false sv start = .ok (n, start + (decimal n).length) := by
  rw [scanintU_ten_eq_ok_iff, ← scanuint_eq_ok_iff (by norm_num)]
  exact scanuint_decimal hn hsv hrest

/-- The first byte of a decimal text is a digit, and `0` only for the number zero. -/
theorem decimal_cons (n : ℕ) :
    ∃ d ds, decimal n = digitByte d :: ds ∧ d < 10 ∧ (d = 0 ↔ n = 0) ∧ (n = 0 → ds = []) := by
  cases hd : decimalDigits n with
  | nil => exact absurd hd (decimalDigits_ne_nil n)
  | cons d ds =>
    refine ⟨d, ds.map digitByte, by simp [decimal, hd],
      decimalDigits_lt (hd ▸ List.mem_cons_self), ?_, ?_⟩
    · constructor
      · intro h0
        by_contra hn
        exact decimalDigits_head_ne_zero hn hd h0
      · rintro rfl
        simp only [decimalDigits, if_true, List.cons.injEq] at hd
        exact hd.1.symm
    · rintro rfl
      simp only [decimalDigits, if_true, List.cons.injEq] at hd
      simp [← hd.2]

theorem isWhite_digitByte {d : ℕ} (h : d < 10) : isWhite (digitByte d) = false := by
  interval_cases d <;> decide

/-- Base detection reads a decimal text in base 10: it has no leading zero. -/
theorem scanintDetect_decimal {w n start : ℕ} {sv rest : Bytes} (hn : n < 2 ^ w)
    (hsv : sv.drop start = decimal n ++ rest) (hrest : EndsNumber rest) :
    scanintDetect w sv start = .ok (n, start + (decimal n).length) := by
  obtain ⟨d, ds, hdec, hd, h0, hds⟩ := decimal_cons n
  unfold scanintDetect
  rw [hsv, hdec]
  simp only [List.cons_append]
  by_cases hn0 : n = 0
  · have hdz : d = 0 := h0.mpr hn0
    have hdsz : ds = [] := hds hn0
    subst hn0 hdz hdsz
    rw [if_pos (by decide)]
    cases rest with
    | nil => rfl
    | cons c rest =>
      obtain ⟨hc, hx, hX⟩ := hrest c rfl
      have h8 : digitcvt 8 c = 8 := by
        by_contra h8
        unfold digitcvt at h8 hc
        dsimp only at h8 hc
        split_ifs at h8 hc <;> omega
      simp [hx, hX, h8]
  · have hne : digitByte d ≠ ch '0' := by
      intro heq
      have := congrArg UInt8.toNat heq
      rw [digitByte_toNat hd] at this
      have hd0 : d ≠ 0 := fun h => hn0 (h0.mp h)
      have hch : (ch '0').toNat = 48 := by decide
      omega
    rw [if_neg hne, ← hdec]
    exact scanuint_decimal hn hsv hrest.digitRun_eq_nil

/-- No whitespace is skipped in front of a decimal text. -/
theorem skipWhite_decimal {n start : ℕ} {sv rest : Bytes}
    (hsv : sv.drop start = decimal n ++ rest) : skipWhite sv start = start := by
  obtain ⟨d, ds, hdec, hd, -, -⟩ := decimal_cons n
  unfold skipWhite
  rw [hsv, hdec, List.cons_append, List.takeWhile_cons, isWhite_digitByte hd]
  simp

/-- `svscan` of an unsigned integer reads a decimal text back. -/
theorem scanintU_decimal {w n start : ℕ} {sv rest : Bytes} (skip : Bool) (hn : n < 2 ^ w)
    (hsv : sv.drop start = decimal n ++ rest) (hrest : EndsNumber rest) :
    scanintU w 0 skip sv start = .ok (n, start + (decimal n).length) := by
  have hstart : (if skip then skipWhite sv start else start) = start := by
    rw [skipWhite_decimal hsv, ite_self]
  simp only [scanintU, if_true]
  rw [hstart, scanintDetect_decimal hn hsv hrest, catchE_ok]

/-- `svscan` of a signed integer reads a decimal text back. -/
theorem scanintS_decimalInt {w start : ℕ} {z : ℤ} {sv rest : Bytes} (hw : 0 < w)
    (hlo : -2 ^ (w - 1) ≤ z) (hhi : z < 2 ^ (w - 1))
    (hsv : sv.drop start = decimalInt z ++ rest) (hrest : EndsNumber rest) :
    scanintS w 0 true sv start = .ok (z, start + (decimalInt z).length) := by
  have hpow : 2 ^ w = 2 * 2 ^ (w - 1) := by
    rw [← Nat.pow_succ', Nat.succ_eq_add_one, Nat.sub_add_cancel hw]
  have hhead : ∀ c l, sv.drop start = c :: l → sv[start]? = some c := by
    intro c l h
    have := congrArg List.head? h
    simpa using this
  cases z with
  | ofNat n =>
    have hn : n < 2 ^ (w - 1) := by
      rw [Int.ofNat_eq_natCast] at hhi
      exact_mod_cast hhi
    simp only [decimalInt] at hsv ⊢
    obtain ⟨d, ds, hdec, hd, h0, -⟩ := decimal_cons n
    have hget : sv[start]? = some (digitByte d) := hhead _ (ds ++ rest) (by rw [hsv, hdec]; rfl)
    have hneg : digitByte d ≠ ch '-' := by interval_cases d <;> decide
    unfold scanintS
    simp only [if_true, skipWhite_decimal hsv, hget, if_neg hneg, Nat.add_zero, Nat.sub_zero]
    rw [scanintU_decimal false (by omega) hsv hrest]
    simp only [bind, Except.bind]
    by_cases hn0 : n = 0
    · subst hn0
      simp
    · rw [if_neg hn0, if_neg (by omega)]
      simp
  | negSucc n =>
    have hn : n < 2 ^ (w - 1) := by
      have : ((n : ℤ)) < 2 ^ (w - 1) := by
        rw [Int.negSucc_eq] at hlo
        omega
      exact_mod_cast this
    simp only [decimalInt, List.cons_append] at hsv ⊢
    have hget : sv[start]? = some (ch '-') := hhead _ _ hsv
    have hdrop : sv.drop (start + 1) = decimal (n + 1) ++ rest := by
      rw [← List.drop_drop, hsv]
      simp
    have hskip : skipWhite sv start = start := by
      unfold skipWhite
      rw [hsv]
      simp [isWhite, ch]
    unfold scanintS
    simp only [if_true, hskip, hget]
    rw [scanintU_decimal false (by omega) hdrop hrest]
    simp only [bind, Except.bind, Nat.add_one_ne_zero, if_false, Nat.add_sub_cancel]
    rw [if_neg (by omega)]
    simp only [catchE_ok, Except.ok.injEq, Prod.mk.injEq, List.length_cons]
    refine ⟨?_, by omega⟩
    rw [Int.negSucc_eq]
    omega

/-- `svto` inverts `to_string` on unsigned values. -/
theorem svtoU_decimal {w n : ℕ} (hn : n < 2 ^ w) : svtoU w (decimal n) = .ok n := by
  have hsv : (decimal n).drop 0 = decimal n ++ [] := by simp
  unfold svtoU
  rw [scanintU_decimal true hn hsv EndsNumber.nil]
  simp [bind, Except.bind, svtoEnd]

/-- `svto` inverts `to_string` on signed values. -/
theorem svtoS_decimalInt {w : ℕ} {z : ℤ} (hw : 0 < w) (hlo : -2 ^ (w - 1) ≤ z)
    (hhi : z < 2 ^ (w - 1)) : svtoS w (decimalInt z) = .ok z := by
  have hsv : (decimalInt z).drop 0 = decimalInt z ++ [] := by simp
  unfold svtoS
  rw [scanintS_decimalInt hw hlo hhi hsv EndsNumber.nil]
  simp [bind, Except.bind, svtoEnd]

theorem scanintRethrow_ne_ok {α : Type} (sv : Bytes) (start : ℕ) (e : Exn) (a : α) :
    scanintRethrow sv start e ≠ .ok a := by
  simp [scanintRethrow]

/-- The signed scan of an unsigned decimal text. -/
theorem scanintS_decimal_iff {w n start e : ℕ} {z : ℤ} {sv rest : Bytes} (hw : 0 < w) (hn : n < 2 ^ w)
    (hsv : sv.drop start = decimal n ++ rest) (hrest : EndsNumber rest) :
    scanintS w 0 true sv start = .ok (z, e)
      ↔ n < 2 ^ (w - 1) ∧ z = n ∧ e = start + (decimal n).length := by
  by_cases hlt : n < 2 ^ (w - 1)
  · have hz : (n : ℤ) < 2 ^ (w - 1) := by exact_mod_cast hlt
    have hlo : -2 ^ (w - 1) ≤ (n : ℤ) := le_trans (Int.neg_nonpos_of_nonneg (by positivity)) (by omega)
    rw [scanintS_decimalInt hw hlo hz (by rw [hsv]; rfl) hrest, Except.ok.injEq, Prod.mk.injEq]
    constructor
    · intro h
      exact ⟨hlt, h.1.symm, h.2.symm⟩
    · intro h
      exact ⟨h.2.1.symm, h.2.2.symm⟩
  · have hpow := Nat.two_pow_pos (w - 1)
    obtain ⟨d, ds, hdec, hd, -, -⟩ := decimal_cons n
    have hget : sv[start]? = some (digitByte d) := by
      have := congrArg List.head? hsv
      rw [hdec] at this
      simpa using this
    have hneg : digitByte d ≠ ch '-' := by interval_cases d <;> decide
    unfold scanintS
    simp only [if_true, skipWhite_decimal hsv, hget, if_neg hneg, Nat.add_zero, Nat.sub_zero]
    rw [catchE_eq_ok_iff (fun _ => scanintRethrow_ne_ok _ _ _ _), scanintU_decimal false hn hsv hrest]
    simp only [bind, Except.bind]
    rw [if_neg (by omega), if_pos (by omega)]
    simp [hlt]

/-- `svto` of an unsigned decimal text. -/
theorem svtoS_decimal_iff {w n : ℕ} {z : ℤ} (hw : 0 < w) (hn : n < 2 ^ w) :
    svtoS w (decimal n) = .ok z ↔ n < 2 ^ (w - 1) ∧ z = n := by
  have hsv : (decimal n).drop 0 = decimal n ++ [] := by simp
  unfold svtoS
  rw [bind_eq_ok_iff]
  constructor
  · intro h
    obtain ⟨⟨z', e⟩, hscan, hend⟩ := h
    obtain ⟨hlt, rfl, rfl⟩ := (scanintS_decimal_iff hw hn hsv EndsNumber.nil).mp hscan
    rw [svtoEnd, if_neg (by simp), Except.ok.injEq] at hend
    exact ⟨hlt, hend.symm⟩
  · intro h
    obtain ⟨hlt, rfl⟩ := h
    refine ⟨_, (scanintS_decimal_iff hw hn hsv EndsNumber.nil).mpr ⟨hlt, rfl, rfl⟩, ?_⟩
    rw [svtoEnd, if_neg (by simp)]

/-- `svto` does not accept anything behind the number. -/
theorem svtoS_decimal_cons {w n : ℕ} {c : UInt8} {rest : Bytes} (hw : 0 < w) (hn : n < 2 ^ w)
    (hc : EndsNumber (c :: rest)) (hwhite : isWhite c = false) (z : ℤ) :
    svtoS w (decimal n ++ c :: rest) ≠ .ok z := by
  intro h
  unfold svtoS at h
  obtain ⟨⟨z', e⟩, hscan, hend⟩ := bind_eq_ok_iff.mp h
  have hsv : (decimal n ++ c :: rest).drop 0 = decimal n ++ c :: rest := rfl
  obtain ⟨-, -, rfl⟩ := (scanintS_decimal_iff hw hn hsv hc).mp hscan
  have hne : (decimal n).length ≠ (decimal n ++ c :: rest).length := by
    simp
  have hscan : svscanWhite (decimal n ++ c :: rest) (decimal n).length = (decimal n).length := by
    rw [svscanWhite, if_neg (by simp), skipWhite, List.drop_left, List.takeWhile_cons, hwhite]
    rfl
  unfold svtoEnd at hend
  rw [Nat.zero_add, if_pos ⟨hne, by rwa [hscan]⟩, bind_eq_ok_iff] at hend
  obtain ⟨tail, -, hend⟩ := hend
  exact throwE_ne_ok _ _ _ hend

/-- `svto` does not accept a text that does not begin like a number. -/
theorem svtoS_cons_ne_ok {w : ℕ} {c : UInt8} {rest : Bytes} (hdigit : digitcvt 10 c = 10)
    (hminus : c ≠ ch '-') (hwhite : isWhite c = false) (z : ℤ) : svtoS w (c :: rest) ≠ .ok z := by
  intro h
  unfold svtoS at h
  obtain ⟨⟨z', e⟩, hscan, -⟩ := bind_eq_ok_iff.mp h
  have hskip : skipWhite (c :: rest) 0 = 0 := by
    simp [skipWhite, hwhite]
  have hzero : c ≠ ch '0' := by
    rintro rfl
    exact absurd hdigit (by decide)
  unfold scanintS at hscan
  simp only [if_true, hskip, List.getElem?_cons_zero, if_neg hminus] at hscan
  rw [catchE_eq_ok_iff (fun _ => scanintRethrow_ne_ok _ _ _ _)] at hscan
  obtain ⟨⟨u, r⟩, hscan, -⟩ := bind_eq_ok_iff.mp hscan
  unfold scanintU at hscan
  simp only [if_true, Bool.false_eq_true, if_false, Nat.add_zero] at hscan
  rw [catchE_eq_ok_iff (fun _ => scanintRethrow_ne_ok _ _ _ _)] at hscan
  simp only [scanintDetect, List.drop_zero, if_neg hzero] at hscan
  rw [scanuint_eq_ok_iff (by norm_num)] at hscan
  exact hscan.1 (by simp [digitRun, hdigit])

end Fs123
