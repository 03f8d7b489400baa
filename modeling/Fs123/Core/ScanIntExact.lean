import Fs123.Core.ScanInt

/-!
# Integer scanning is exact

`DigitsAt` says what the header of `scanint.hpp` calls a number in a base: digits of its radix, behind a `0x` where that
is allowed. `scanint` reads exactly the numbers with a value in its type. For `bool` the words `true` and `false` are
looked for first, in any base (`boolWord`).
-/

namespace Fs123

open Cxx

/-! ## The scanner at every integral type -/

/-- An integral type: one of `w` bits, or `bool`. -/
inductive ScanType where
  | unsigned (w : ℕ)
  | signed (w : ℕ) (h : 0 < w)
  | bool

/-- The value is one of the type. -/
def ScanType.Fits : ScanType → ℤ → Prop
  | .unsigned w, v => 0 ≤ v ∧ v < 2 ^ w
  | .signed w _, v => -2 ^ (w - 1) ≤ v ∧ v < 2 ^ (w - 1)
  | .bool, v => 0 ≤ v ∧ v < 2

/-- The text begins with the word, in any case of its letters: `_casecmp` at each of them. -/
def casecmp (text word : Bytes) : Bool := (text.take word.length).map (· ||| 0x20) = word

/-- The test for a word in the scanner of a `bool`. The sum with its length is a `size_t`. -/
def wordAt (sv : Bytes) (start : ℕ) (word : Bytes) : Res Bool :=
  if addW start word.length ≤ sv.length then
    if start + word.length ≤ sv.length then .ok (casecmp (sv.drop start) word) else .error .oob
  else .ok false

/-- `scanint<bool, base, skip_white>(sv, valuep, start)`. -/
def scanintB (base : ℕ) (skip : Bool) (sv : Bytes) (start : ℕ) : Res (Bool × ℕ) :=
  let start := if skip then skipWhite sv start else start
  catchE (do
    let t ← wordAt sv start (bytes "true")
    if t then .ok (true, start + 4)
    else
      let f ← wordAt sv start (bytes "false")
      if f then .ok (false, start + 5)
      else
        let (us, ret) ← scanintU 16 base false sv start
        if 1 < us then
          throwE .invalidArgument (bytes "scanint<bool,...>: unsigned short conversion must be 0 or 1")
        else .ok (us = 1, ret))
    (scanintRethrow sv start)

/-- `scanint<T, base, skip_white>(sv, valuep, start)`: the value that is stored, and the result. -/
def scanint (T : ScanType) (base : ℕ) (skip : Bool) (sv : Bytes) (start : ℕ) : Res (ℤ × ℕ) :=
  match T with
  | .unsigned w => (scanintU w base skip sv start).map fun r => ((r.1 : ℤ), r.2)
  | .signed w _ => scanintS w base skip sv start
  | .bool => (scanintB base skip sv start).map fun r => (if r.1 then 1 else 0, r.2)

/-- `*valuep` afterwards and the result: it is stored when nothing can throw any more. -/
def scanintTo (T : ScanType) (base : ℕ) (skip : Bool) (sv : Bytes) (start : ℕ) (old : ℤ) : ℤ × Res ℕ :=
  match scanint T base skip sv start with
  | .ok (v, e) => (v, .ok e)
  | .error e => (old, .error e)

/-! ## Numbers in a base -/

/-- `0x` with a hex digit behind it. -/
def hexAhead : Bytes → Bool
  | z :: x :: d :: _ => z = ch '0' && (x = ch 'x' || x = ch 'X') && digitcvt 16 d != 16
  | _ => false

/-- The radix of the digits: for base 0 it depends on the first characters. -/
def radixAt (base : ℕ) (text : Bytes) : ℕ :=
  if base = 0 then if hexAhead text then 16 else if text.head? = some (ch '0') then 8 else 10 else base

/-- The length of the `0x` that is ignored. -/
def markAt (base : ℕ) (text : Bytes) : ℕ := if (base = 0 ∨ base = 16) ∧ hexAhead text then 2 else 0

/-- The longest run of digits. -/
def digitsAt (base : ℕ) (text : Bytes) : List ℕ := digitRun (radixAt base text) (text.drop (markAt base text))

/-- The text begins with a number in the base, of value `u` and of `len` characters. -/
structure DigitsAt (base : ℕ) (text : Bytes) (u len : ℕ) : Prop where
  ne_nil : digitsAt base text ≠ []
  value : u = digitsVal (radixAt base text) (digitsAt base text)
  len_eq : len = markAt base text + (digitsAt base text).length

@[simp] theorem digitsAt_nil (base : ℕ) : digitsAt base [] = [] := by
  rw [digitsAt, List.drop_nil]
  rfl

/-- The length of the sign, which only signed types have. -/
def ScanType.signAt (T : ScanType) (text : Bytes) : ℕ :=
  match T with
  | .signed _ _ => if text.head? = some (ch '-') then 1 else 0
  | _ => 0

/-- The text begins with a number in the base whose value is one of the type. -/
structure ScanType.NumberAt (T : ScanType) (base : ℕ) (text : Bytes) (v : ℤ) (len : ℕ) : Prop where
  number : ∃ u l, DigitsAt base (text.drop (T.signAt text)) u l ∧ v = (if T.signAt text = 1 then -(u : ℤ) else u)
    ∧ len = T.signAt text + l
  fits : T.Fits v

/-- Without a sign there is only the number. -/
theorem ScanType.numberAt_iff {T : ScanType} {base len : ℕ} {text : Bytes} {v : ℤ} (h : T.signAt text = 0) :
    T.NumberAt base text v len ↔ ∃ u : ℕ, DigitsAt base text u len ∧ v = u ∧ T.Fits v := by
  constructor
  · rintro ⟨⟨u, l, hd, hv, hlen⟩, hfits⟩
    rw [h, List.drop_zero] at hd
    rw [h, Nat.zero_add] at hlen
    rw [h, if_neg (by norm_num)] at hv
    exact ⟨u, hlen ▸ hd, hv, hfits⟩
  · rintro ⟨u, hd, hv, hfits⟩
    refine ⟨⟨u, len, ?_, ?_, ?_⟩, hfits⟩
    · rwa [h, List.drop_zero]
    · rwa [h, if_neg (by norm_num)]
    · rw [h, Nat.zero_add]

/-- The value of `true` and `false`, with their lengths. -/
def boolWord (text : Bytes) : Option (ℤ × ℕ) :=
  if casecmp text (bytes "true") then some (1, 4) else if casecmp text (bytes "false") then some (0, 5) else none

/-- What is read: a number, and for `bool` before that one of the words. -/
def ScanType.Reads (T : ScanType) (base : ℕ) (text : Bytes) (v : ℤ) (len : ℕ) : Prop :=
  match T with
  | .bool => boolWord text = some (v, len) ∨ boolWord text = none ∧ ScanType.NumberAt .bool base text v len
  | T => T.NumberAt base text v len

variable {w base : ℕ} {sv text : Bytes} {start : ℕ}

/-! ## Unsigned types -/

/-- With a radix and a length of a mark that are found, the scan of the digits is `DigitsAt`. -/
theorem scanuint_digitsAt {radix mark v e : ℕ} (hpos : 0 < radix) (hradix : radixAt base (sv.drop start) = radix)
    (hmark : markAt base (sv.drop start) = mark) :
    scanuint w radix sv (start + mark) = .ok (v, e)
      ↔ ∃ len, DigitsAt base (sv.drop start) v len ∧ v < 2 ^ w ∧ e = start + len := by
  have hdigits : digitsAt base (sv.drop start) = digitRun radix (sv.drop (start + mark)) := by
    rw [digitsAt, hradix, hmark, List.drop_drop]
  rw [scanuint_eq_ok_iff hpos, ← hdigits]
  constructor
  · rintro ⟨hne, hv, hlt, he⟩
    exact ⟨_, ⟨hne, by rw [hradix, hv], rfl⟩, hlt, by rw [he, hmark, Nat.add_assoc]⟩
  · rintro ⟨len, ⟨hne, hv, rfl⟩, hlt, rfl⟩
    exact ⟨hne, by rw [hv, hradix], hlt, by rw [hmark, Nat.add_assoc]⟩

theorem digitcvt_zero {radix : ℕ} (h : 0 < radix) : digitcvt radix (ch '0') = 0 := by
  have h48 : (ch '0').toNat = 48 := rfl
  rw [digitcvt, h48]
  dsimp only
  rw [if_pos (by omega)]
  rfl

theorem digitcvt_eight_x {c : UInt8} (h : c = ch 'x' ∨ c = ch 'X') : digitcvt 8 c = 8 := by
  rcases h with rfl | rfl <;> decide

/-- A zero that is no mark is read as an octal digit. -/
theorem digitsAt_octal {rest : Bytes} {u len : ℕ} (hhex : hexAhead (ch '0' :: rest) = false) :
    DigitsAt 0 (ch '0' :: rest) u len
      ↔ u = digitsVal 8 (digitRun 8 rest) ∧ len = 1 + (digitRun 8 rest).length := by
  have hradix : radixAt 0 (ch '0' :: rest) = 8 := by simp [radixAt, hhex]
  have hmark : markAt 0 (ch '0' :: rest) = 0 := by simp [markAt, hhex]
  have hdigits : digitsAt 0 (ch '0' :: rest) = 0 :: digitRun 8 rest := by
    rw [digitsAt, hradix, hmark, List.drop_zero, digitRun, digitcvt_zero (by norm_num), if_neg (by norm_num)]
  constructor
  · rintro ⟨-, hv, rfl⟩
    rw [hv, hradix, hmark, hdigits, List.length_cons]
    exact ⟨rfl, by omega⟩
  · rintro ⟨rfl, rfl⟩
    refine ⟨by rw [hdigits]; exact List.cons_ne_nil _ _, by rw [hradix, hdigits]; rfl, ?_⟩
    rw [hmark, hdigits, List.length_cons]
    omega

/-- Where the code stops at a zero, no octal digits are behind it. -/
theorem zero_iff {rest : Bytes} {v e : ℕ} (hhex : hexAhead (ch '0' :: rest) = false) (hrun : digitRun 8 rest = []) :
    (.ok (0, start + 1) : Res (ℕ × ℕ)) = .ok (v, e)
      ↔ ∃ len, DigitsAt 0 (ch '0' :: rest) v len ∧ v < 2 ^ w ∧ e = start + len := by
  have hpow := Nat.two_pow_pos w
  simp only [digitsAt_octal hhex, hrun, Except.ok.injEq, Prod.mk.injEq]
  constructor
  · rintro ⟨rfl, rfl⟩
    exact ⟨1, ⟨rfl, rfl⟩, hpow, rfl⟩
  · rintro ⟨len, ⟨rfl, rfl⟩, -, rfl⟩
    exact ⟨rfl, rfl⟩

theorem scanintDetect_eq_ok_iff {v e : ℕ} :
    scanintDetect w sv start = .ok (v, e)
      ↔ ∃ len, DigitsAt 0 (sv.drop start) v len ∧ v < 2 ^ w ∧ e = start + len := by
  unfold scanintDetect
  split
  · next htext =>
    rw [htext]
    refine iff_of_false (throwE_ne_ok _ _ _) ?_
    rintro ⟨len, ⟨hne, -, -⟩, -⟩
    exact hne rfl
  next c rest htext =>
  split
  · next hc =>
    subst hc
    split
    · rw [htext]
      exact zero_iff rfl rfl
    next x rest =>
    split
    · next hx =>
      have hrun : digitRun 8 (x :: rest) = [] := by rw [digitRun, if_pos (digitcvt_eight_x hx)]
      split
      · rw [htext]
        exact zero_iff rfl hrun
      next d rest =>
      split
      · next hd =>
        rw [htext]
        exact zero_iff (by simp [hexAhead, hd]) hrun
      · next hd =>
        have hhex : hexAhead (sv.drop start) = true := by
          rw [htext]
          simpa [hexAhead, hd] using hx
        exact scanuint_digitsAt (by norm_num) (by simp [radixAt, hhex]) (by simp [markAt, hhex])
    · next hx =>
      have hhex : hexAhead (ch '0' :: x :: rest) = false := by
        cases rest with
        | nil => rfl
        | cons d rest =>
          rw [not_or] at hx
          simp [hexAhead, hx]
      split
      · next h8 =>
        rw [htext]
        exact zero_iff hhex (by rw [digitRun, if_pos h8])
      · next h8 =>
        have hdrop : sv.drop (start + 1) = x :: rest := by
          rw [← List.drop_drop, htext]
          rfl
        rw [scanuint_eq_ok_iff (by norm_num), htext, hdrop]
        simp only [digitsAt_octal hhex]
        constructor
        · rintro ⟨-, hv, hlt, he⟩
          exact ⟨_, ⟨hv, rfl⟩, hlt, by rw [he, Nat.add_assoc]⟩
        · rintro ⟨len, ⟨hv, rfl⟩, hlt, rfl⟩
          refine ⟨?_, hv, hlt, (Nat.add_assoc _ _ _).symm⟩
          rw [digitRun, if_neg h8]
          exact List.cons_ne_nil _ _
  · next hc =>
    have hhex : hexAhead (sv.drop start) = false := by
      rw [htext]
      rcases rest with _ | ⟨x, _ | ⟨d, rest⟩⟩
      · rfl
      · rfl
      · simp [hexAhead, hc]
    have hhead : (sv.drop start).head? ≠ some (ch '0') := by
      rw [htext]
      simpa using hc
    have hradix : radixAt 0 (sv.drop start) = 10 := by
      rw [radixAt, if_pos rfl, hhex, if_neg Bool.false_ne_true, if_neg hhead]
    have hmark : markAt 0 (sv.drop start) = 0 := by simp [markAt, hhex]
    exact scanuint_digitsAt (by norm_num) hradix hmark

theorem hexPrefix_eq (hstart : start + 2 < sizeMod) : hexPrefix sv start = .ok (hexAhead (sv.drop start)) := by
  have hget : ∀ i, sv[start + i]? = (sv.drop start)[i]? := fun i => List.getElem?_drop.symm
  have hlen : (sv.drop start).length = sv.length - start := List.length_drop
  have hzero := hget 0
  rw [Nat.add_zero] at hzero
  rw [hexPrefix, addW_eq hstart, hget, hget, hzero]
  rcases htext : sv.drop start with _ | ⟨z, _ | ⟨x, _ | ⟨d, rest⟩⟩⟩
  · rw [if_neg (by simp [htext] at hlen; omega)]
    rfl
  · rw [if_neg (by simp [htext] at hlen; omega)]
    rfl
  · rw [if_neg (by simp [htext] at hlen; omega)]
    rfl
  · rw [if_pos (by simp [htext] at hlen; omega)]
    rfl

/-- In a base that is given, the scan begins behind the mark. -/
theorem scanintU_of_ne_zero (hbase : base ≠ 0) (hstart : start + 2 < sizeMod) :
    scanintU w base false sv start = catchE (scanuint w base sv (start + markAt base (sv.drop start)))
      (scanintRethrow sv (start + markAt base (sv.drop start))) := by
  unfold scanintU
  rw [if_neg hbase]
  by_cases h16 : base = 16
  · subst h16
    rw [if_pos rfl]
    simp only [Bool.false_eq_true, if_false]
    rw [hexPrefix_eq hstart, markAt]
    cases hexAhead (sv.drop start) with
    | false => rfl
    | true => rfl
  · have hmark : markAt base (sv.drop start) = 0 := if_neg fun h => h.1.elim hbase h16
    rw [if_neg h16, hmark]
    rfl

theorem scanintU_digitsAt (hstart : start + 2 < sizeMod) {v e : ℕ} :
    scanintU w base false sv start = .ok (v, e)
      ↔ ∃ len, DigitsAt base (sv.drop start) v len ∧ v < 2 ^ w ∧ e = start + len := by
  by_cases hzero : base = 0
  · subst hzero
    refine Iff.trans ?_ scanintDetect_eq_ok_iff
    exact catchE_eq_ok_iff fun ex => scanintRethrow_ne_ok _ _ ex _
  · rw [scanintU_of_ne_zero hzero hstart, catchE_eq_ok_iff fun ex => scanintRethrow_ne_ok _ _ ex _]
    exact scanuint_digitsAt (Nat.pos_of_ne_zero hzero) (if_neg hzero) rfl

theorem scanintU_inBounds (hstart : start + 2 < sizeMod) : InBounds (scanintU w base false sv start) := by
  have hdetect : InBounds (scanintDetect w sv start) := by
    unfold scanintDetect
    split
    · exact InBounds.throwE _ _
    split
    · split
      · exact InBounds.ok _
      split
      · split
        · exact InBounds.ok _
        split
        · exact InBounds.ok _
        · exact scanuint_inBounds _ _ _ _
      · split
        · exact InBounds.ok _
        · exact scanuint_inBounds _ _ _ _
    · exact scanuint_inBounds _ _ _ _
  by_cases hzero : base = 0
  · subst hzero
    exact hdetect.catchE fun _ => InBounds.throws _
  · rw [scanintU_of_ne_zero hzero hstart]
    exact (scanuint_inBounds _ _ _ _).catchE fun _ => InBounds.throws _

/-! ## Signed types -/

theorem scanintS_numberAt {w : ℕ} (hw : 0 < w) (hsv : sv.length < 2 ^ 63) {v : ℤ} {e : ℕ} :
    scanintS w base false sv start = .ok (v, e)
      ↔ ∃ len, (ScanType.signed w hw).NumberAt base (sv.drop start) v len ∧ e = start + len := by
  have hpow : 2 ^ w = 2 * 2 ^ (w - 1) := by
    rw [← Nat.pow_succ', Nat.succ_eq_add_one, Nat.sub_add_cancel hw]
  have hone : 0 < 2 ^ (w - 1) := Nat.two_pow_pos _
  have hmod : (2 : ℕ) ^ 63 + 3 < sizeMod := by decide
  unfold scanintS
  simp only [Bool.false_eq_true, if_false]
  rw [catchE_eq_ok_iff fun ex => scanintRethrow_ne_ok _ _ _ _]
  have hhead : (sv.drop start).head? = sv[start]? := List.head?_drop
  split
  · next hnone =>
    have htext : sv.drop start = [] := List.drop_eq_nil_iff.mpr (List.getElem?_eq_none_iff.mp hnone)
    refine iff_of_false (throwE_ne_ok _ _ _) ?_
    rintro ⟨len, ⟨⟨u, l, hd, -⟩, -⟩, -⟩
    rw [htext, List.drop_nil] at hd
    exact hd.ne_nil (digitsAt_nil base)
  next c hc =>
  have hlt : start < sv.length := by
    by_contra hge
    rw [List.getElem?_eq_none (not_lt.mp hge)] at hc
    cases hc
  have hsign : (ScanType.signed w hw).signAt (sv.drop start) = if c = ch '-' then 1 else 0 := by
    simp only [ScanType.signAt, hhead, hc, Option.some.injEq]
  have hle : (if c = ch '-' then 1 else 0) ≤ 1 := by split <;> omega
  generalize (if c = ch '-' then 1 else 0) = neg at hsign hle
  have hcast : (2 : ℤ) ^ (w - 1) = (2 ^ (w - 1) : ℕ) := by push_cast; rfl
  -- The value of the magnitude `u` behind the sign, and when it is representable.
  have hvalue : ∀ u : ℕ, u ≠ 0 → u - neg ≤ 2 ^ (w - 1) - 1 →
      (if neg = 1 then -((u - neg : ℕ) : ℤ) - 1 else ((u - neg : ℕ) : ℤ)) = if neg = 1 then -(u : ℤ) else u := by
    intro u hu _
    split <;> omega
  have hfits : ∀ u : ℕ, u ≠ 0 →
      ((ScanType.signed w hw).Fits (if neg = 1 then -(u : ℤ) else u) ↔ u - neg ≤ 2 ^ (w - 1) - 1) := by
    intro u hu
    simp only [ScanType.Fits, hcast]
    split <;> omega
  rw [bind_eq_ok_iff]
  constructor
  · rintro ⟨⟨u, r⟩, hscan, h⟩
    obtain ⟨l, hd, hu, rfl⟩ := (scanintU_digitsAt (by omega)).mp hscan
    rw [← List.drop_drop, ← hsign] at hd
    dsimp only at h
    rw [ite_eq_iff] at h
    rcases h with ⟨hzero, h⟩ | ⟨hzero, h⟩
    · cases h
      refine ⟨_, ⟨⟨u, l, hd, ?_, rfl⟩, ?_⟩, ?_⟩
      · rw [hzero]
        simp
      · exact ⟨by simp, by positivity⟩
      · rw [hsign, Nat.add_assoc]
    · split at h
      · exact absurd h (throwE_ne_ok _ _ _)
      next hmax =>
      cases h
      rw [not_lt] at hmax
      rw [hvalue u hzero hmax]
      refine ⟨_, ⟨⟨u, l, hd, by rw [hsign], rfl⟩, (hfits u hzero).mpr hmax⟩, ?_⟩
      rw [hsign, Nat.add_assoc]
  · rintro ⟨len, ⟨⟨u, l, hd, rfl, rfl⟩, hfit⟩, rfl⟩
    rw [hsign] at hd hfit ⊢
    rw [List.drop_drop] at hd
    by_cases hzero : u = 0
    · refine ⟨(u, start + neg + l), (scanintU_digitsAt (by omega)).mpr ⟨l, hd, by omega, rfl⟩, ?_⟩
      rw [if_pos hzero, hzero, Nat.add_assoc]
      simp
    · have hmax := (hfits u hzero).mp hfit
      refine ⟨(u, start + neg + l), (scanintU_digitsAt (by omega)).mpr ⟨l, hd, by omega, rfl⟩, ?_⟩
      rw [if_neg hzero, if_neg (not_lt.mpr hmax), hvalue u hzero hmax, Nat.add_assoc]

theorem scanintS_inBounds (hsv : sv.length < 2 ^ 63) : InBounds (scanintS w base false sv start) := by
  have hmod : (2 : ℕ) ^ 63 + 3 < sizeMod := by decide
  unfold scanintS
  refine InBounds.catchE ?_ fun _ => InBounds.throws _
  simp only [Bool.false_eq_true, if_false]
  split
  · exact InBounds.throwE _ _
  next c hc =>
  have hlt : start < sv.length := by
    by_contra hge
    rw [List.getElem?_eq_none (not_lt.mp hge)] at hc
    cases hc
  have hle : (if c = ch '-' then 1 else 0) ≤ 1 := by split <;> omega
  generalize (if c = ch '-' then 1 else 0) = neg at hle
  refine (scanintU_inBounds (by omega)).bind fun r _ => ?_
  split
  · exact InBounds.ok _
  split
  · exact InBounds.throwE _ _
  · exact InBounds.ok _

/-! ## `bool` -/

theorem casecmp_of_short {word : Bytes} (h : text.length < word.length) : casecmp text word = false := by
  refine decide_eq_false fun heq => ?_
  have hlen := congrArg List.length heq
  rw [List.length_map, List.length_take] at hlen
  omega

theorem wordAt_eq {word : Bytes} (hword : 0 < word.length) (hstart : start + word.length < sizeMod) :
    wordAt sv start word = .ok (casecmp (sv.drop start) word) := by
  rw [wordAt, addW_eq hstart]
  split
  · rfl
  · next hlt => rw [casecmp_of_short (by rw [List.length_drop]; omega)]

theorem scanintB_eq (hstart : start + 5 < sizeMod) :
    scanintB base false sv start = catchE
      (match boolWord (sv.drop start) with
        | some (v, len) => .ok (decide (v = 1), start + len)
        | none => scanintU 16 base false sv start >>= fun r =>
          if 1 < r.1 then throwE .invalidArgument (bytes "scanint<bool,...>: unsigned short conversion must be 0 or 1")
          else .ok (decide (r.1 = 1), r.2))
      (scanintRethrow sv start) := by
  have htrue : (bytes "true").length = 4 := rfl
  have hfalse : (bytes "false").length = 5 := rfl
  unfold scanintB boolWord
  simp only [Bool.false_eq_true, if_false]
  rw [wordAt_eq (by decide) (by omega), wordAt_eq (by decide) (by omega)]
  cases casecmp (sv.drop start) (bytes "true") with
  | true => rfl
  | false =>
    cases casecmp (sv.drop start) (bytes "false") with
    | true => rfl
    | false => rfl

theorem boolWord_eq {r : ℤ × ℕ} (h : boolWord text = some r) : r = (1, 4) ∨ r = (0, 5) := by
  unfold boolWord at h
  split at h
  · exact .inl (Option.some.inj h).symm
  split at h
  · exact .inr (Option.some.inj h).symm
  · cases h

/-- The two values of a `bool`. -/
theorem ScanType.Reads.eq_ite {v : ℤ} {len : ℕ} (h : ScanType.bool.Reads base text v len) :
    ∃ b : Bool, (if b then 1 else 0) = v := by
  rcases h with hword | ⟨-, -, hfits⟩
  · rcases boolWord_eq hword with heq | heq
    · exact ⟨true, (Prod.mk.inj heq).1.symm⟩
    · exact ⟨false, (Prod.mk.inj heq).1.symm⟩
  · have hv : v = 0 ∨ v = 1 := by
      have hlo := hfits.1
      have hhi := hfits.2
      omega
    rcases hv with rfl | rfl
    · exact ⟨false, rfl⟩
    · exact ⟨true, rfl⟩

theorem scanintB_reads (hstart : start + 5 < sizeMod) {b : Bool} {e : ℕ} :
    scanintB base false sv start = .ok (b, e)
      ↔ ∃ len, ScanType.bool.Reads base (sv.drop start) (if b then 1 else 0) len ∧ e = start + len := by
  rw [scanintB_eq hstart, catchE_eq_ok_iff fun ex => scanintRethrow_ne_ok _ _ ex _]
  have hfits : ∀ u : ℕ, ScanType.bool.Fits u ↔ u ≤ 1 := by
    intro u
    simp only [ScanType.Fits]
    omega
  cases hword : boolWord (sv.drop start) with
  | some r =>
    have hreads : ∀ v len, ScanType.bool.Reads base (sv.drop start) v len ↔ r = (v, len) := by
      intro v len
      simp [ScanType.Reads, hword]
    simp only [hreads]
    rcases boolWord_eq hword with rfl | rfl
    · cases b <;> simp [eq_comm]
    · cases b <;> simp [eq_comm]
  | none =>
    have hreads : ∀ v len, ScanType.bool.Reads base (sv.drop start) v len
        ↔ ∃ u : ℕ, DigitsAt base (sv.drop start) u len ∧ v = u ∧ u ≤ 1 := by
      intro v len
      simp only [ScanType.Reads, hword, reduceCtorEq, false_or, true_and]
      rw [ScanType.numberAt_iff rfl]
      refine exists_congr fun u => and_congr_right fun _ => and_congr_right ?_
      rintro rfl
      exact hfits u
    simp only [hreads, bind_eq_ok_iff]
    constructor
    · rintro ⟨⟨u, r⟩, hscan, h⟩
      obtain ⟨len, hd, -, rfl⟩ := (scanintU_digitsAt (by omega)).mp hscan
      dsimp only at h
      split at h
      · exact absurd h (throwE_ne_ok _ _ _)
      next hle =>
      cases h
      refine ⟨len, ⟨u, hd, ?_, not_lt.mp hle⟩, rfl⟩
      have hu : u = 0 ∨ u = 1 := by omega
      rcases hu with rfl | rfl <;> rfl
    · rintro ⟨len, ⟨u, hd, hv, hle⟩, rfl⟩
      refine ⟨(u, start + len), (scanintU_digitsAt (by omega)).mpr ⟨len, hd, by omega, rfl⟩, ?_⟩
      rw [if_neg (not_lt.mpr hle)]
      have hu : u = 0 ∨ u = 1 := by omega
      rcases hu with rfl | rfl <;> cases b <;> simp at hv ⊢

/-! ## Every type -/

theorem map_eq_ok_iff {α β : Type} {x : Res α} {f : α → β} {b : β} :
    x.map f = .ok b ↔ ∃ a, x = .ok a ∧ f a = b := by
  cases x <;> simp [Except.map]

theorem scanint_skip (T : ScanType) (base : ℕ) (skip : Bool) (sv : Bytes) (start : ℕ) :
    scanint T base skip sv start = scanint T base false sv (if skip then skipWhite sv start else start) := by
  cases T <;> cases skip <;> rfl

theorem scanint_reads (T : ScanType) (hsv : sv.length < 2 ^ 63) (hstart : start + 5 < sizeMod) {v : ℤ} {e : ℕ} :
    scanint T base false sv start = .ok (v, e)
      ↔ ∃ len, T.Reads base (sv.drop start) v len ∧ e = start + len := by
  cases T with
  | unsigned w =>
    have hnumber : ∀ len, (ScanType.unsigned w).Reads base (sv.drop start) v len
        ↔ ∃ u : ℕ, DigitsAt base (sv.drop start) u len ∧ v = u ∧ (ScanType.unsigned w).Fits v :=
      fun len => ScanType.numberAt_iff rfl
    simp only [scanint, map_eq_ok_iff, Prod.exists, Prod.mk.injEq, hnumber]
    constructor
    · rintro ⟨u, r, hscan, rfl, rfl⟩
      obtain ⟨len, hd, hu, rfl⟩ := (scanintU_digitsAt (by omega)).mp hscan
      exact ⟨len, ⟨u, hd, rfl, ⟨by omega, by exact_mod_cast hu⟩⟩, rfl⟩
    · rintro ⟨len, ⟨u, hd, rfl, hfit⟩, rfl⟩
      exact ⟨u, _, (scanintU_digitsAt (by omega)).mpr ⟨len, hd, by exact_mod_cast hfit.2, rfl⟩, rfl, rfl⟩
  | signed w hw => exact scanintS_numberAt hw hsv
  | bool =>
    simp only [scanint, map_eq_ok_iff, Prod.exists, Prod.mk.injEq]
    constructor
    · rintro ⟨b, r, hscan, rfl, rfl⟩
      exact (scanintB_reads hstart).mp hscan
    · rintro ⟨len, hreads, rfl⟩
      obtain ⟨b, rfl⟩ := hreads.eq_ite
      exact ⟨b, _, (scanintB_reads hstart).mpr ⟨len, hreads, rfl⟩, rfl, rfl⟩

theorem scanint_inBounds (T : ScanType) (hsv : sv.length < 2 ^ 63) (hstart : start + 5 < sizeMod) :
    InBounds (scanint T base false sv start) := by
  have hmap : ∀ {α β : Type} {x : Res α} (f : α → β), InBounds x → InBounds (x.map f) := by
    rintro α β (e | a) f hx
    · rcases e with e | _
      · exact InBounds.throws e
      · exact absurd rfl hx
    · exact InBounds.ok _
  cases T with
  | unsigned w => exact hmap _ (scanintU_inBounds (by omega))
  | signed w hw => exact scanintS_inBounds hsv
  | bool =>
    refine hmap _ ?_
    rw [scanintB_eq hstart]
    refine InBounds.catchE ?_ fun _ => InBounds.throws _
    split
    · exact InBounds.ok _
    · refine (scanintU_inBounds (by omega)).bind fun r _ => ?_
      split
      · exact InBounds.throwE _ _
      · exact InBounds.ok _

/-! ## Reading back `std::to_string` -/

variable {rest : Bytes}

theorem digitsAt_decimal (hrest : digitRun 10 rest = []) (n : ℕ) :
    DigitsAt 10 (decimal n ++ rest) n (decimal n).length := by
  have hradix : radixAt 10 (decimal n ++ rest) = 10 := rfl
  have hmark : markAt 10 (decimal n ++ rest) = 0 := if_neg (by norm_num)
  have hdigits : digitsAt 10 (decimal n ++ rest) = decimalDigits n := by
    rw [digitsAt, hradix, hmark, List.drop_zero, digitRun_decimal n hrest]
  refine ⟨?_, ?_, ?_⟩
  · rw [hdigits]
    exact decimalDigits_ne_nil n
  · rw [hradix, hdigits, digitsVal_decimalDigits]
  · rw [hmark, hdigits, decimal_length, Nat.zero_add]

/-- The text of a number begins with a digit or a minus sign. -/
theorem decimalInt_cons (v : ℤ) :
    ∃ c l, decimalInt v = c :: l ∧ ((0 ≤ v ∧ ∃ d < 10, c = digitByte d) ∨ (v < 0 ∧ c = ch '-')) := by
  cases v with
  | ofNat n =>
    obtain ⟨d, ds, hdec, hd, -, -⟩ := decimal_cons n
    exact ⟨_, ds, hdec, .inl ⟨Int.natCast_nonneg n, d, hd, rfl⟩⟩
  | negSucc n => exact ⟨_, _, rfl, .inr ⟨Int.negSucc_lt_zero n, rfl⟩⟩

theorem signAt_decimalInt_of_nonneg (T : ScanType) {v : ℤ} (hv : 0 ≤ v) : T.signAt (decimalInt v ++ rest) = 0 := by
  obtain ⟨c, l, hcons, ⟨-, d, hd, rfl⟩ | ⟨hneg, -⟩⟩ := decimalInt_cons v
  · cases T with
    | signed w hw =>
      have hne : digitByte d ≠ ch '-' := by interval_cases d <;> decide
      rw [ScanType.signAt, hcons]
      simp [hne]
    | unsigned w => rfl
    | bool => rfl
  · omega

theorem numberAt_decimalInt {T : ScanType} (hrest : digitRun 10 rest = []) {v : ℤ} (hfits : T.Fits v) :
    T.NumberAt 10 (decimalInt v ++ rest) v (decimalInt v).length := by
  cases v with
  | ofNat n =>
    have hsign : T.signAt (decimalInt (.ofNat n) ++ rest) = 0 :=
      signAt_decimalInt_of_nonneg T (Int.natCast_nonneg n)
    rw [ScanType.numberAt_iff hsign]
    exact ⟨n, digitsAt_decimal hrest n, rfl, hfits⟩
  | negSucc n =>
    have hneg := Int.negSucc_lt_zero n
    cases T with
    | unsigned w => exact absurd hfits.1 (by omega)
    | bool => exact absurd hfits.1 (by omega)
    | signed w hw =>
      have hsign : (ScanType.signed w hw).signAt (decimalInt (.negSucc n) ++ rest) = 1 := by
        simp [ScanType.signAt, decimalInt]
      refine ⟨⟨n + 1, (decimal (n + 1)).length, ?_, ?_, ?_⟩, hfits⟩
      · rw [hsign]
        exact digitsAt_decimal hrest (n + 1)
      · rw [hsign]
        rfl
      · rw [hsign, decimalInt, List.length_cons, Nat.add_comm]

theorem boolWord_decimalInt {v : ℤ} (hv : 0 ≤ v) : boolWord (decimalInt v ++ rest) = none := by
  obtain ⟨c, l, hcons, ⟨-, d, hd, rfl⟩ | ⟨hneg, -⟩⟩ := decimalInt_cons v
  · have hne : ∀ (word : Bytes) (a : UInt8), digitByte d ||| 0x20 ≠ a →
        casecmp (digitByte d :: (l ++ rest)) (a :: word) = false := by
      intro word a ha
      refine decide_eq_false fun heq => ha ?_
      exact (List.cons.inj heq).1
    have htrue : casecmp (digitByte d :: (l ++ rest)) (bytes "true") = false :=
      hne _ (ch 't') (by interval_cases d <;> decide)
    have hfalse : casecmp (digitByte d :: (l ++ rest)) (bytes "false") = false :=
      hne _ (ch 'f') (by interval_cases d <;> decide)
    rw [hcons, List.cons_append, boolWord, htrue, hfalse]
    rfl
  · omega

theorem reads_decimalInt {T : ScanType} (hrest : digitRun 10 rest = []) {v : ℤ} (hfits : T.Fits v) :
    T.Reads 10 (decimalInt v ++ rest) v (decimalInt v).length := by
  cases T with
  | unsigned w => exact numberAt_decimalInt hrest hfits
  | signed w hw => exact numberAt_decimalInt hrest hfits
  | bool => exact .inr ⟨boolWord_decimalInt hfits.1, numberAt_decimalInt hrest hfits⟩

theorem skipWhite_decimalInt {v : ℤ} (htext : sv.drop start = decimalInt v ++ rest) : skipWhite sv start = start := by
  obtain ⟨c, l, hcons, hc⟩ := decimalInt_cons v
  have hwhite : isWhite c = false := by
    rcases hc with ⟨-, d, hd, rfl⟩ | ⟨-, rfl⟩
    · exact isWhite_digitByte hd
    · decide
  rw [skipWhite, htext, hcons, List.cons_append, List.takeWhile_cons_of_neg (by simp [hwhite])]
  rfl

/-! ## The result -/

theorem scanintTo_eq_ok_iff {T : ScanType} {skip : Bool} {old v : ℤ} {e : ℕ} :
    scanintTo T base skip sv start old = (v, .ok e) ↔ scanint T base skip sv start = .ok (v, e) := by
  rw [scanintTo]
  rcases scanint T base skip sv start with f | ⟨v', e'⟩ <;> simp

/-- `scanint` reads exactly the numbers of its base with a value in its type, for `bool` also the two words, behind
white space if that is skipped; else it throws and stores nothing. It reads back what `std::to_string` writes. The
offset is one for which the sums in the code do not wrap round. -/
theorem scanint_exact (T : ScanType) (base : ℕ) (skip : Bool) {sv : Bytes} (hsv : sv.length < 2 ^ 63) {start : ℕ}
    (hstart : start + 5 < sizeMod) :
    (∀ old v e, scanintTo T base skip sv start old = (v, .ok e)
        ↔ ∃ len, T.Reads base (sv.drop (if skip then skipWhite sv start else start)) v len
          ∧ e = (if skip then skipWhite sv start else start) + len)
      ∧ (∀ old, (∀ e, (scanintTo T base skip sv start old).2 ≠ .ok e) →
          Throws (scanintTo T base skip sv start old).2 ∧ (scanintTo T base skip sv start old).1 = old)
      ∧ ∀ v rest, T.Fits v → sv.drop start = decimalInt v ++ rest → digitRun 10 rest = [] → ∀ old,
          scanintTo T 10 skip sv start old = (v, .ok (start + (decimalInt v).length)) := by
  have hmod : (2 : ℕ) ^ 63 + 5 < sizeMod := by decide
  have hpoint : (if skip then skipWhite sv start else start) + 5 < sizeMod := by
    have hle := (List.takeWhile_prefix (p := isWhite) (l := sv.drop start)).length_le
    rw [List.length_drop] at hle
    unfold skipWhite
    split <;> omega
  have hscan : ∀ base old v e, scanintTo T base skip sv start old = (v, .ok e)
      ↔ ∃ len, T.Reads base (sv.drop (if skip then skipWhite sv start else start)) v len
        ∧ e = (if skip then skipWhite sv start else start) + len := by
    intro base old v e
    rw [scanintTo_eq_ok_iff, scanint_skip, scanint_reads T hsv hpoint]
  refine ⟨hscan base, ?_, ?_⟩
  · intro old hnot
    have hin : InBounds (scanint T base skip sv start) := by
      rw [scanint_skip]
      exact scanint_inBounds T hsv hpoint
    unfold scanintTo at hnot ⊢
    rcases hres : scanint T base skip sv start with f | ⟨v, e⟩
    · rw [hres] at hin
      exact ⟨hin.throws_error, rfl⟩
    · rw [hres] at hnot
      exact absurd rfl (hnot e)
  · intro v rest hfits htext hrest old
    have hsame : (if skip then skipWhite sv start else start) = start := by
      rw [skipWhite_decimalInt htext, ite_self]
    rw [hscan 10, hsame, htext]
    exact ⟨_, reads_decimalInt hrest hfits, rfl⟩

/-- The smallest value of an `int8_t`. -/
theorem scanint_exact_int8 :
    scanintTo (.signed 8 (by decide)) 10 true (bytes "x-128 ") 1 0 = (-128, .ok 5) := by
  have hfits : (ScanType.signed 8 (by decide)).Fits (-128) := by
    simp only [ScanType.Fits]
    decide
  have hlen : (bytes "x-128 ").length < 2 ^ 63 := by decide
  have hstart : 1 + 5 < sizeMod := by decide
  exact (scanint_exact (.signed 8 (by decide)) 10 true hlen hstart).2.2 (-128) (bytes " ") hfits (by decide)
    (by decide) 0

/-- A word is no number, and is read into a `bool`. -/
theorem scanint_true : scanintTo .bool 10 true (bytes "true") 0 0 = (1, .ok 4)
    ∧ digitsAt 10 (bytes "true") = [] ∧ ¬ ∃ len, ScanType.bool.NumberAt 10 (bytes "true") 1 len := by
  have hdigits : digitsAt 10 (bytes "true") = [] := by decide
  refine ⟨by decide, hdigits, ?_⟩
  rintro ⟨len, ⟨u, l, hd, -, -⟩, -⟩
  exact hd.ne_nil hdigits

end Fs123
