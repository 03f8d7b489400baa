import Mathlib.Data.List.Basic
import Mathlib.Data.Nat.Digits.Lemmas

/-!
# Byte strings and 64-bit offsets

A C++ `std::string` or `string_view` is a list of bytes. Offsets and lengths are `ℕ`, and every sum or
difference that the code computes in `size_t` goes through `addW` and `subW`, which wrap at `2^64`.
The searching members of `string_view` return `Option ℕ`; where the code goes on to compute with the
returned `npos` the option is read back with `getD npos`.
-/

namespace Cxx

/-- A byte string. -/
abbrev Bytes := List UInt8

/-- The bytes of a string literal (all literals used here are ASCII). -/
def bytes (s : String) : Bytes := s.toList.map fun c => UInt8.ofNat c.toNat

/-- The byte of a character literal. -/
def ch (c : Char) : UInt8 := UInt8.ofNat c.toNat

@[simp] theorem bytes_append (s t : String) : bytes (s ++ t) = bytes s ++ bytes t := by
  simp [bytes]

/-! ## `size_t` arithmetic -/

/-- `size_t` values are below this bound. -/
def sizeMod : ℕ := 2 ^ 64

/-- `std::string::npos`. -/
def npos : ℕ := sizeMod - 1

/-- `size_t` addition. -/
def addW (a b : ℕ) : ℕ := (a + b) % sizeMod

/-- `size_t` subtraction, for operands that are `size_t` values. -/
def subW (a b : ℕ) : ℕ := (a + (sizeMod - b)) % sizeMod

/-- The conversion of a `size_t` to `ssize_t`. -/
def toSsize (a : ℕ) : ℤ := if a < 2 ^ 63 then a else a - sizeMod

theorem toSsize_eq {a : ℕ} (h : a < 2 ^ 63) : toSsize a = a := if_pos h

theorem addW_eq {a b : ℕ} (h : a + b < sizeMod) : addW a b = a + b := Nat.mod_eq_of_lt h

theorem addW_wrap {a b : ℕ} (h : sizeMod ≤ a + b) (ha : a < sizeMod) (hb : b < sizeMod) :
    addW a b = a + b - sizeMod := by
  unfold addW
  rw [Nat.mod_eq_sub_mod h, Nat.mod_eq_of_lt (by omega)]

theorem addW_addW (a b c : ℕ) : addW (addW a b) c = (a + b + c) % sizeMod := by
  unfold addW
  rw [Nat.mod_add_mod]

theorem addW_lt (a b : ℕ) : addW a b < sizeMod := Nat.mod_lt _ (by decide)

theorem subW_eq {a b : ℕ} (hb : b ≤ a) (ha : a < sizeMod) : subW a b = a - b := by
  unfold subW
  rw [Nat.mod_eq_sub_mod (by omega), Nat.mod_eq_of_lt (by omega)]
  omega

/-! ## Searching and slicing -/

/-- `n` bytes from offset `pos`, clipped at the end: the bytes of `substr`, which throws when `pos`
is past the end. -/
def slice (sv : Bytes) (pos n : ℕ) : Bytes := (sv.drop pos).take n

/-- The characters before the first NUL: what is left of a string passed as `const char*`. -/
def cstr (sv : Bytes) : Bytes := sv.takeWhile (· ≠ 0)

/-- The offset of the first byte equal to `c` at or after `pos`: `sv.find(c, pos)`. -/
def findChar (sv : Bytes) (c : UInt8) (pos : ℕ) : Option ℕ :=
  ((sv.drop pos).findIdx? (· == c)).map (· + pos)

/-- The offset of the last byte equal to `c`: `sv.find_last_of(c)`. -/
def findLastOf (c : UInt8) : Bytes → Option ℕ
  | [] => none
  | b :: rest =>
    match findLastOf c rest with
    | some i => some (i + 1)
    | none => if b = c then some 0 else none

/-- The offset of the first occurrence of `needle`: `sv.find(needle)`. -/
def findStr (needle : Bytes) : Bytes → Option ℕ
  | [] => if needle = [] then some 0 else none
  | b :: rest =>
    if needle <+: b :: rest then some 0 else (findStr needle rest).map (· + 1)

/-- A byte string starts with `needle`. -/
def startswith (sv needle : Bytes) : Bool := needle.isPrefixOf sv

/-- A byte string ends with `needle`. -/
def endswith (sv needle : Bytes) : Bool := needle.isSuffixOf sv

@[simp] theorem slice_zero (sv : Bytes) (n : ℕ) : slice sv 0 n = sv.take n := rfl

theorem slice_append_mid (a b c : Bytes) {pos n : ℕ} (hpos : pos = a.length) (hn : n = b.length) :
    slice (a ++ b ++ c) pos n = b := by
  subst hpos hn
  simp [slice, List.append_assoc]

/-- The byte after a first part. -/
theorem getElem?_append_cons (a b : Bytes) (x : UInt8) {i : ℕ} (hi : i = a.length) :
    (a ++ x :: b)[i]? = some x := by
  subst hi
  simp

theorem slice_length (sv : Bytes) (pos n : ℕ) :
    (slice sv pos n).length = min n (sv.length - pos) := by
  simp [slice]

/-- A string without NUL is its own C string. -/
theorem cstr_eq_self {sv : Bytes} (h : (0 : UInt8) ∉ sv) : cstr sv = sv := by
  induction sv with
  | nil => rfl
  | cons b sv ih =>
    simp only [List.mem_cons, not_or] at h
    simp only [cstr] at ih ⊢
    rw [List.takeWhile_cons, if_pos (by simpa using Ne.symm h.1), ih h.2]

/-- A first part without `c` only shifts the search. -/
theorem findChar_append_of_not_mem {a b : Bytes} {c : UInt8} (h : c ∉ a) :
    findChar (a ++ b) c 0 = (findChar b c 0).map (· + a.length) := by
  have hnone : a.findIdx? (· == c) = none := by
    rw [List.findIdx?_eq_none_iff]
    intro x hx
    simp only [beq_eq_false_iff_ne, ne_eq]
    rintro rfl
    exact h hx
  simp [findChar, List.findIdx?_append, hnone, Function.comp_def]

theorem findChar_cons_self (b : Bytes) (c : UInt8) : findChar (c :: b) c 0 = some 0 := by
  simp [findChar, List.findIdx?_cons]

theorem findChar_none_of_not_mem {a : Bytes} {c : UInt8} (h : c ∉ a) : findChar a c 0 = none := by
  have := findChar_append_of_not_mem (b := []) h
  simpa [findChar] using this

/-- The search from `pos` is the search in what is left after `pos` bytes. -/
theorem findChar_append_length (a b : Bytes) (c : UInt8) :
    findChar (a ++ b) c a.length = (findChar b c 0).map (· + a.length) := by
  simp [findChar]

theorem findLastOf_append (c : UInt8) (a b : Bytes) :
    findLastOf c (a ++ b)
      = ((findLastOf c b).map (· + a.length)).or (findLastOf c a) := by
  induction a with
  | nil => simp [findLastOf]
  | cons x a ih =>
    simp only [List.cons_append, findLastOf, ih]
    cases findLastOf c b with
    | none => simp
    | some i => simp; omega

theorem findLastOf_eq_none {c : UInt8} {a : Bytes} (h : c ∉ a) : findLastOf c a = none := by
  induction a with
  | nil => rfl
  | cons x a ih =>
    simp only [List.mem_cons, not_or] at h
    simp [findLastOf, ih h.2, Ne.symm h.1]

theorem findLastOf_cons_self {c : UInt8} {a : Bytes} (h : c ∉ a) :
    findLastOf c (c :: a) = some 0 := by
  simp [findLastOf, findLastOf_eq_none h]

theorem findLastOf_of_mem {c : UInt8} {a : Bytes} (h : c ∈ a) :
    ∃ i, findLastOf c a = some i ∧ i < a.length := by
  induction a with
  | nil => simp at h
  | cons x a ih =>
    simp only [findLastOf]
    by_cases hc : c ∈ a
    · obtain ⟨i, hi, hlt⟩ := ih hc
      exact ⟨i + 1, by rw [hi], by simpa using hlt⟩
    · have hx : x = c := (List.mem_cons.mp h).elim Eq.symm fun hc' => absurd hc' hc
      exact ⟨0, by rw [findLastOf_eq_none hc, if_pos hx], by simp⟩

theorem findChar_of_mem {c : UInt8} {a : Bytes} (h : c ∈ a) :
    ∃ i, findChar a c 0 = some i ∧ i < a.length := by
  cases hfind : a.findIdx? (· == c) with
  | none =>
    rw [List.findIdx?_eq_none_iff] at hfind
    simpa using hfind c h
  | some i =>
    have hlt := (List.findIdx?_eq_some_iff_findIdx_eq.mp hfind).1
    exact ⟨i, by simp [findChar, hfind], hlt⟩

/-- What stands before the byte that is found does not contain it. -/
theorem findChar_eq_some {sv : Bytes} {c : UInt8} {pos i : ℕ} (h : findChar sv c pos = some i) :
    ∃ k, i = pos + k ∧ c ∉ (sv.drop pos).take k ∧ (sv.drop pos)[k]? = some c := by
  unfold findChar at h
  obtain ⟨k, hk, rfl⟩ := Option.map_eq_some_iff.mp h
  obtain ⟨hlt, hc, hbefore⟩ := List.findIdx?_eq_some_iff_getElem.mp hk
  refine ⟨k, Nat.add_comm k pos, ?_, ?_⟩
  · intro hmem
    obtain ⟨j, hj, rfl⟩ := List.mem_iff_getElem.mp hmem
    rw [List.length_take] at hj
    have := hbefore j (by omega)
    rw [List.getElem_take] at this
    simp at this
  · rw [List.getElem?_eq_getElem hlt, beq_iff_eq.mp hc]

theorem findChar_eq_none {sv : Bytes} {c : UInt8} {pos : ℕ} (h : findChar sv c pos = none) :
    c ∉ sv.drop pos := by
  unfold findChar at h
  rw [Option.map_eq_none_iff, List.findIdx?_eq_none_iff] at h
  intro hmem
  simpa using h c hmem

/-- A byte string around the last occurrence of a byte. -/
theorem findLastOf_eq_some {c : UInt8} {a : Bytes} {i : ℕ} (h : findLastOf c a = some i) :
    a = a.take i ++ c :: a.drop (i + 1) ∧ c ∉ a.drop (i + 1) := by
  induction a generalizing i with
  | nil => simp [findLastOf] at h
  | cons x a ih =>
    rw [findLastOf] at h
    split at h
    · next j hj =>
      rw [Option.some.injEq] at h
      subst h
      obtain ⟨hsplit, hrest⟩ := ih hj
      refine ⟨?_, by simpa using hrest⟩
      rw [List.take_succ_cons, List.drop_succ_cons, List.cons_append, ← hsplit]
    · next hnone =>
      split_ifs at h with hx
      rw [Option.some.injEq] at h
      subst h hx
      refine ⟨by simp, fun hmem => ?_⟩
      obtain ⟨i, hi, -⟩ := findLastOf_of_mem hmem
      rw [List.drop_succ_cons, List.drop_zero, hnone] at hi
      simp at hi

theorem findStr_isSome_iff (needle sv : Bytes) : (findStr needle sv).isSome ↔ needle <:+: sv := by
  induction sv with
  | nil =>
    simp only [findStr, List.infix_nil]
    split <;> simp_all
  | cons b sv ih =>
    simp only [findStr, List.infix_cons_iff]
    split
    · next h => simp [h]
    · next h => simp [h, ih]

/-- The first occurrence is the one that `findStr` finds. -/
theorem findStr_eq_some {needle sv : Bytes} {i : ℕ} (hle : i ≤ sv.length) (hi : needle <+: sv.drop i)
    (hmin : ∀ j < i, ¬ needle <+: sv.drop j) : findStr needle sv = some i := by
  induction sv generalizing i with
  | nil =>
    obtain rfl : i = 0 := by simpa using hle
    have : needle = [] := by simpa using hi
    simp [findStr, this]
  | cons b sv ih =>
    cases i with
    | zero => simp only [findStr, if_pos (show needle <+: b :: sv from hi)]
    | succ i =>
      rw [findStr, if_neg (show ¬ needle <+: b :: sv from hmin 0 (by omega)), ih (by simpa using hle) hi]
      · rfl
      · intro j hj
        exact hmin (j + 1) (by omega)

/-! ## What stands at an offset -/

section Offset

variable {sv a b : Bytes} {n : ℕ} {c : UInt8}

theorem getElem?_of_drop (h : sv.drop n = c :: a) : sv[n]? = some c := by
  have := congrArg List.head? h
  simpa using this

theorem exists_drop_of_getElem? (h : sv[n]? = some c) : ∃ l, sv.drop n = c :: l := by
  obtain ⟨hlt, hc⟩ := List.getElem?_eq_some_iff.mp h
  exact ⟨sv.drop (n + 1), by rw [List.drop_eq_getElem_cons hlt, hc]⟩

theorem drop_of_drop_append (h : sv.drop n = a ++ b) : sv.drop (n + a.length) = b := by
  rw [← List.drop_drop, h, List.drop_left]

theorem drop_of_drop_cons (h : sv.drop n = c :: a) : sv.drop (n + 1) = a :=
  drop_of_drop_append (a := [c]) h

theorem le_of_drop_append (h : sv.drop n = a ++ b) (hle : n ≤ sv.length) : n + a.length ≤ sv.length := by
  have := congrArg List.length h
  rw [List.length_drop, List.length_append] at this
  omega

theorem lt_of_drop_cons (h : sv.drop n = c :: a) : n < sv.length := by
  have := congrArg List.length h
  rw [List.length_drop, List.length_cons] at this
  omega

theorem slice_of_drop_append (h : sv.drop n = a ++ b) : slice sv n a.length = a := by
  rw [slice, h, List.take_left]

theorem drop_eq_slice_append (sv : Bytes) (n k : ℕ) : sv.drop n = slice sv n k ++ sv.drop (n + k) := by
  rw [slice, ← List.drop_drop, List.take_append_drop]

end Offset

end Cxx
