import Fs123.Common.Bytes

/-!
# Decimal text of natural numbers

`decimal n` is `std::to_string(n)`. Reading goes the other way: `digitsVal base ds` is the value that a
left-to-right accumulation `r = r * base + d` gives to a list of digits. The two are inverse
(`digitsVal_decimalDigits`), and a decimal text never starts with `0` unless it is `"0"`.
-/

namespace Cxx

/-- The decimal digits of `n`, most significant first; `[0]` for zero. -/
def decimalDigits (n : ℕ) : List ℕ := if n = 0 then [0] else (Nat.digits 10 n).reverse

/-- The byte that represents the digit `d < 10`. -/
def digitByte (d : ℕ) : UInt8 := UInt8.ofNat (48 + d)

/-- `std::to_string` of an unsigned value. -/
def decimal (n : ℕ) : Bytes := (decimalDigits n).map digitByte

/-- `std::to_string` of a signed value. -/
def decimalInt : ℤ → Bytes
  | .ofNat n => decimal n
  | .negSucc n => ch '-' :: decimal (n + 1)

/-- The value of a digit string in base `base`, accumulated from the left. -/
def digitsVal (base : ℕ) (ds : List ℕ) : ℕ := ds.foldl (fun r d => r * base + d) 0

theorem digitsVal_append (base : ℕ) (ds : List ℕ) (d : ℕ) :
    digitsVal base (ds ++ [d]) = digitsVal base ds * base + d := by
  simp [digitsVal]

theorem digitsVal_reverse (base : ℕ) (ds : List ℕ) :
    digitsVal base ds.reverse = Nat.ofDigits base ds := by
  induction ds with
  | nil => rfl
  | cons d ds ih =>
    rw [List.reverse_cons, digitsVal_append, ih, Nat.ofDigits_cons]
    ring

theorem digitsVal_decimalDigits (n : ℕ) : digitsVal 10 (decimalDigits n) = n := by
  unfold decimalDigits
  split
  · next h => simp [digitsVal, h]
  · rw [digitsVal_reverse, Nat.ofDigits_digits]

theorem decimalDigits_ne_nil (n : ℕ) : decimalDigits n ≠ [] := by
  unfold decimalDigits
  split
  · simp
  · next h => simpa [Nat.digits_eq_nil_iff_eq_zero] using h

theorem decimalDigits_lt {n d : ℕ} (h : d ∈ decimalDigits n) : d < 10 := by
  unfold decimalDigits at h
  split at h
  · simp only [List.mem_singleton] at h
    omega
  · exact Nat.digits_lt_base (by norm_num) (List.mem_reverse.mp h)

/-- The first digit of a positive number is not zero. -/
theorem decimalDigits_head_ne_zero {n d : ℕ} {ds : List ℕ} (hn : n ≠ 0)
    (h : decimalDigits n = d :: ds) : d ≠ 0 := by
  rw [decimalDigits, if_neg hn] at h
  have hne : Nat.digits 10 n ≠ [] := by simpa [Nat.digits_eq_nil_iff_eq_zero] using hn
  have hlast : (Nat.digits 10 n).getLast hne = d := by
    have := congrArg List.head? h
    rw [List.head?_reverse, List.getLast?_eq_some_getLast hne] at this
    simpa using this
  rw [← hlast]
  exact Nat.getLast_digit_ne_zero 10 hn

/-- A digit string without a leading zero is the decimal text of its value. -/
theorem decimalDigits_digitsVal {d : ℕ} {ds : List ℕ} (hlt : ∀ x ∈ d :: ds, x < 10)
    (hlead : d = 0 → ds = []) : decimalDigits (digitsVal 10 (d :: ds)) = d :: ds := by
  by_cases hd : d = 0
  · subst hd
    rw [hlead rfl]
    rfl
  · have hrev : digitsVal 10 (d :: ds) = Nat.ofDigits 10 (d :: ds).reverse := by
      rw [← digitsVal_reverse, List.reverse_reverse]
    have hdig : Nat.digits 10 (digitsVal 10 (d :: ds)) = (d :: ds).reverse := by
      rw [hrev]
      refine Nat.digits_ofDigits 10 (by norm_num) _ ?_ ?_
      · intro x hx
        exact hlt x (List.mem_reverse.mp hx)
      · intro _
        simpa using hd
    unfold decimalDigits
    rw [if_neg, hdig, List.reverse_reverse]
    intro h0
    rw [h0] at hdig
    simp at hdig

theorem decimal_ne_nil (n : ℕ) : decimal n ≠ [] := by
  simp [decimal, decimalDigits_ne_nil]

theorem decimal_length (n : ℕ) : (decimal n).length = (decimalDigits n).length := by
  simp [decimal]

/-- A number below `10^k` has at most `k` digits, for `k ≥ 1`. -/
theorem decimalDigits_length_le {n k : ℕ} (h : n < 10 ^ (k + 1)) :
    (decimalDigits n).length ≤ k + 1 := by
  unfold decimalDigits
  split
  · simp
  · rw [List.length_reverse]
    exact (Nat.digits_length_le_iff (by norm_num) n).mpr h

theorem digitByte_toNat {d : ℕ} (h : d < 10) : (digitByte d).toNat = 48 + d := by
  simp only [digitByte, UInt8.toNat_ofNat']
  omega

end Cxx
