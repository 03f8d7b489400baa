import Fs123.Core.IStream

/-!
# Counter based engines

The model of `core123/counter_based_engine.hpp`. The high bits of the last word of `c` count the blocks that have been
computed, and the first word of `r` is the index of the next value, `Nrange + 1` before the first block. A counter that
has wrapped round to zero is told from a new one by `Nrange + 2`, which `refill` meets only then.
-/

namespace Fs123

open Cxx

/-- An `std::array` of `n` unsigned words of `w` bits. -/
abbrev Words (w n : ℕ) := Vector (BitVec w) n

/-- The parameters of the template `counter_based_engine` and of its `PRF`: the digits of the words of its domain, its
range and its key, and their numbers. The index has a word of the range, and is computed in `unsigned`. No word is of a
character type, which a stream does not write as a number. -/
structure CounterParams where
  W : ℕ
  R : ℕ
  K : ℕ
  BITS : ℕ
  Ndomain : ℕ
  Nrange : ℕ
  Nkey : ℕ
  prf : Words K Nkey → Words W Ndomain → Words R Nrange
  bits_le : BITS ≤ W
  digits_le : W ≤ 64
  digits_gt : 8 < W ∧ 8 < R ∧ 8 < K
  domain_pos : 0 < Ndomain
  range_pos : 0 < Nrange
  sentinel_lt : Nrange + 2 < 2 ^ R
  index_lt : 2 * Nrange < 2 ^ 32

/-- `ullmax`. -/
def ullmax : ℕ := 2 ^ 64 - 1

variable (P : CounterParams)

/-- `counter_based_engine`. `f` is the key of the function. -/
@[ext]
structure Engine where
  f : Words P.K P.Nkey
  c : Words P.W P.Ndomain
  r : Words P.R P.Nrange

namespace Engine

/-- `LeftWB(d)`. -/
def leftWB (d : BitVec P.W) : BitVec P.W := if P.BITS = 0 then 0 else d <<< (P.W - P.BITS)

/-- `RightWB(d)`. -/
def rightWB (d : BitVec P.W) : BitVec P.W := if P.BITS = 0 then 0 else d >>> (P.W - P.BITS)

/-- `ctr_mask`. -/
def ctrMask : BitVec P.W := leftWB P (~~~ 0)

/-- `incr`. -/
def incr : BitVec P.W := leftWB P 1

variable {P}

/-- `c.back()`. -/
def back (c : Words P.W P.Ndomain) : BitVec P.W :=
  getElem c (P.Ndomain - 1) (Nat.sub_lt P.domain_pos Nat.one_pos)

/-- An assignment to `c.back()`. -/
def setBack (c : Words P.W P.Ndomain) (v : BitVec P.W) : Words P.W P.Ndomain :=
  c.set (P.Ndomain - 1) v (Nat.sub_lt P.domain_pos Nat.one_pos)

/-- `r[0]`. -/
def first (r : Words P.R P.Nrange) : BitVec P.R := getElem r 0 P.range_pos

/-- An assignment to `r[0]`. -/
def setFirst (r : Words P.R P.Nrange) (v : BitVec P.R) : Words P.R P.Nrange := r.set 0 v P.range_pos

/-- `lhs == rhs`. -/
def Same (lhs rhs : Engine P) : Prop := lhs.c = rhs.c ∧ first lhs.r = first rhs.r ∧ lhs.f = rhs.f

/-- `reinit(iv)`. -/
def reinit (e : Engine P) (iv : Words P.W P.Ndomain) : Engine P × Res Unit :=
  if back iv &&& ctrMask P ≠ 0 then
    (e, throwE .invalidArgument (bytes "cbgenerator<BITS>::reset:  high BITS of counter not zero"))
  else ({ e with c := iv, r := setFirst e.r (.ofNat P.R (P.Nrange + 1)) }, .ok ())

/-- `seed(prf, iv)`, and the constructor. -/
def seed (e : Engine P) (prf : Words P.K P.Nkey) (iv : Words P.W P.Ndomain) : Engine P × Res Unit :=
  reinit { e with f := prf } iv

/-- `refill()`. -/
def refill (e : Engine P) : Engine P × Res (BitVec P.R) :=
  if back e.c &&& ctrMask P = 0 ∧ (first e.r).toNat ≠ P.Nrange + 2 then
    ({ e with r := setFirst e.r (.ofNat P.R P.Nrange) },
      throwE .outOfRange (bytes "counter_based_engine::refill:  out of counters"))
  else
    let r := P.prf e.f e.c
    ({ e with c := setBack e.c (back e.c + incr P), r := setFirst r 1 }, .ok (first r))

/-- `operator()()`. -/
def call (e : Engine P) : Engine P × Res (BitVec P.R) :=
  let idx := (first e.r).toNat
  let e := { e with r := setFirst e.r (first e.r + 1) }
  if h : idx < P.Nrange then (e, .ok e.r[idx]) else e.refill

/-- The part of `discard` behind the computation of `nfill` and `r0`. -/
def discardFill (e : Engine P) (nfill r0 : ℕ) : Engine P × Res Unit :=
  if nfill = 0 then ({ e with r := setFirst e.r (.ofNat P.R r0) }, .ok ())
  else
    let nfillm1 := BitVec.ofNat P.W (nfill - 1)
    if (rightWB P (leftWB P nfillm1)).toNat ≠ nfill - 1 then
      ({ e with c := setBack e.c (back e.c &&& ~~~ ctrMask P), r := setFirst e.r (.ofNat P.R P.Nrange) },
        throwE .outOfRange (bytes "discard too large"))
    else
      match refill { e with
        c := setBack e.c (back e.c + nfillm1 * incr P), r := setFirst e.r (first e.r + 1) } with
      | (e, .error err) => (e, .error err)
      | (e, .ok _) => ({ e with r := setFirst e.r (.ofNat P.R r0) }, .ok ())

/-- `discard(n)`. -/
def discard (e : Engine P) (n : ℕ) : Engine P × Res Unit :=
  if n = 0 then (e, .ok ())
  else
    let nfill := n / P.Nrange
    let nextra := n % P.Nrange
    let r0 := (if (first e.r).toNat = P.Nrange + 1 then P.Nrange else (first e.r).toNat) + nextra
    if P.Nrange < r0 then e.discardFill (nfill + 1) (r0 - P.Nrange) else e.discardFill nfill r0

variable (P)

/-- `sequence_length()`. -/
def sequenceLength : ℕ :=
  let cmax := (rightWB P (ctrMask P)).toNat
  if ullmax / P.Nrange ≤ cmax then ullmax else P.Nrange * (cmax + 1)

variable {P}

/-- `navail()`. -/
def navail (e : Engine P) : ℕ :=
  let r0 := (first e.r).toNat
  if r0 = P.Nrange + 1 then sequenceLength P
  else
    let ctr := (rightWB P (back e.c)).toNat
    if ctr = 0 then P.Nrange - r0
    else
      let cleft := (rightWB P (ctrMask P)).toNat - ctr + 1
      if ullmax / P.Nrange < cleft then ullmax else (P.Nrange * cleft + (P.Nrange - r0)) % 2 ^ 64

/-! ## Streams

`operator>>` assigns a `range_type` to a `domain_type`, and so it is there only for engines where these are the same.
-/

/-- The words that are written to a stream; the text in front of each is a blank. -/
def putWords {w n : ℕ} (a : Words w n) : Bytes := a.toList.flatMap fun v => ch ' ' :: decimal v.toNat

/-- `os << g`: the text that is written. -/
def put (e : Engine P) : Bytes := putWords e.f ++ putWords e.c ++ ch ' ' :: decimal (first e.r).toNat

/-- `is >> v` for the words of an array; the words that are not assigned are 0 here. -/
def getNumbers (w : ℕ) : ℕ → IStream → List ℕ × IStream
  | 0, inp => ([], inp)
  | n + 1, inp =>
    let (v, inp) := inp.getUnsigned w
    let (more, inp) := getNumbers w n inp
    (v.getD 0 :: more, inp)

/-- The array with these words. -/
def wordsOf (w n : ℕ) (l : List ℕ) : Words w n := Vector.ofFn fun i => BitVec.ofNat w (l.getD i 0)

/-- `is >> g`: `g` and the stream afterwards. -/
def getEngine (inp : IStream) (g : Engine P) : Engine P × IStream :=
  let (inprf, inp) := getNumbers P.K P.Nkey inp
  let (inc, inp) := getNumbers P.R P.Nrange inp
  let (inr0, inp) := inp.getUnsigned P.R
  let inr0 := inr0.getD 0
  let c := wordsOf P.W P.Ndomain inc
  if inp.fail then (g, inp)
  else if P.Nrange + 1 < inr0 ∨ inr0 = P.Nrange + 1 ∧ back c &&& ctrMask P ≠ 0 then (g, { inp with fail := true })
  else
    let f := wordsOf P.K P.Nkey inprf
    let r := P.prf f (setBack c (back c - incr P))
    (⟨f, c, setFirst r (.ofNat P.R inr0)⟩, inp)

/-! ## Words -/

@[simp] theorem back_setBack (c : Words P.W P.Ndomain) (v : BitVec P.W) : back (setBack c v) = v :=
  Vector.getElem_set_self _

@[simp] theorem setBack_setBack (c : Words P.W P.Ndomain) (v w : BitVec P.W) :
    setBack (setBack c v) w = setBack c w := Vector.set_set _ _

@[simp] theorem first_setFirst (r : Words P.R P.Nrange) (v : BitVec P.R) : first (setFirst r v) = v :=
  Vector.getElem_set_self _

@[simp] theorem setFirst_setFirst (r : Words P.R P.Nrange) (v w : BitVec P.R) :
    setFirst (setFirst r v) w = setFirst r w := Vector.set_set _ _

/-- The other words of `r` stay. -/
theorem getElem_setFirst (r : Words P.R P.Nrange) (v : BitVec P.R) {j : ℕ} (hpos : 0 < j) (hj : j < P.Nrange) :
    (setFirst r v)[j] = r[j] := Vector.getElem_set_ne _ _ hpos.ne

/-! ## The counter in the high bits -/

theorem two_pow_bits : 2 ^ P.BITS * 2 ^ (P.W - P.BITS) = 2 ^ P.W := by
  rw [← pow_add, Nat.add_sub_cancel' P.bits_le]

theorem leftWB_toNat (d : BitVec P.W) : (leftWB P d).toNat = d.toNat * 2 ^ (P.W - P.BITS) % 2 ^ P.W := by
  unfold leftWB
  split
  · next h =>
    rw [h, Nat.sub_zero, Nat.mul_mod_left]
    rfl
  · rw [BitVec.toNat_shiftLeft, Nat.shiftLeft_eq]

theorem rightWB_toNat (d : BitVec P.W) : (rightWB P d).toNat = d.toNat / 2 ^ (P.W - P.BITS) := by
  unfold rightWB
  split
  · next h =>
    rw [h, Nat.sub_zero, Nat.div_eq_of_lt d.isLt]
    rfl
  · rw [BitVec.toNat_ushiftRight, Nat.shiftRight_eq_div_pow]

/-- Both functions together keep the low `BITS` bits. -/
theorem rightWB_leftWB_toNat (d : BitVec P.W) : (rightWB P (leftWB P d)).toNat = d.toNat % 2 ^ P.BITS := by
  rw [rightWB_toNat, leftWB_toNat, ← two_pow_bits, Nat.mul_mod_mul_right, Nat.mul_div_cancel _ (Nat.two_pow_pos _)]

theorem ctrMask_toNat : (ctrMask P).toNat = (2 ^ P.BITS - 1) * 2 ^ (P.W - P.BITS) := by
  have hbits := Nat.two_pow_pos P.BITS
  have hones : (~~~ (0 : BitVec P.W)).toNat = 2 ^ P.W - 1 := BitVec.toNat_not
  have hsplit : 2 ^ P.W - 1 = (2 ^ P.BITS - 1) + 2 ^ P.BITS * (2 ^ (P.W - P.BITS) - 1) := by
    have hlow := Nat.two_pow_pos (P.W - P.BITS)
    rw [← two_pow_bits, Nat.mul_sub_one]
    have hle : 2 ^ P.BITS ≤ 2 ^ P.BITS * 2 ^ (P.W - P.BITS) := Nat.le_mul_of_pos_right _ hlow
    omega
  have hmod : (2 ^ P.W - 1) % 2 ^ P.BITS = 2 ^ P.BITS - 1 := by
    rw [hsplit, Nat.add_mul_mod_self_left, Nat.mod_eq_of_lt (by omega)]
  rw [ctrMask, leftWB_toNat, hones, ← hmod, ← Nat.mul_mod_mul_right, two_pow_bits]

theorem incr_eq : incr P = BitVec.ofNat P.W (2 ^ (P.W - P.BITS)) := by
  apply BitVec.eq_of_toNat_eq
  rw [incr, leftWB_toNat, BitVec.toNat_ofNat]
  rcases Nat.eq_zero_or_pos P.W with h | h
  · rw [h]
    simp [Nat.mod_one]
  · have hone : (1 : BitVec P.W).toNat = 1 := BitVec.toNat_one h
    rw [hone, Nat.one_mul]

/-- The bits of the mask are those from `W - BITS` on. -/
theorem testBit_ctrMask (i : ℕ) :
    (ctrMask P).toNat.testBit i = (decide (P.W - P.BITS ≤ i) && decide (i < P.W)) := by
  have hle := P.bits_le
  rw [ctrMask_toNat, ← Nat.shiftLeft_eq, Nat.testBit_shiftLeft, Nat.testBit_two_pow_sub_one]
  rcases Nat.lt_or_ge i (P.W - P.BITS) with h | h
  · simp [Nat.not_le.mpr h]
  · have hiff : i - (P.W - P.BITS) < P.BITS ↔ i < P.W := by omega
    simp [h, hiff]

theorem and_ctrMask_eq_zero_iff (v : BitVec P.W) : v &&& ctrMask P = 0 ↔ v.toNat / 2 ^ (P.W - P.BITS) = 0 := by
  rw [← BitVec.toNat_inj, BitVec.toNat_and, Nat.div_eq_zero_iff_lt (Nat.two_pow_pos _)]
  constructor
  · intro hzero
    apply Nat.lt_pow_two_of_testBit
    intro i hi
    by_cases hlt : i < P.W
    · have hbit := congrArg (Nat.testBit · i) hzero
      simpa [Nat.testBit_and, testBit_ctrMask, hi, hlt] using hbit
    · exact Nat.testBit_lt_two_pow (v.isLt.trans_le (Nat.pow_le_pow_right (by decide) (not_lt.mp hlt)))
  · intro hlt
    apply Nat.eq_of_testBit_eq
    intro i
    by_cases hi : P.W - P.BITS ≤ i
    · have hbit : v.toNat.testBit i = false :=
        Nat.testBit_lt_two_pow (hlt.trans_le (Nat.pow_le_pow_right (by decide) hi))
      simp [Nat.testBit_and, hbit]
    · simp [Nat.testBit_and, testBit_ctrMask, hi]

theorem and_not_ctrMask_toNat (v : BitVec P.W) :
    (v &&& ~~~ ctrMask P).toNat = v.toNat % 2 ^ (P.W - P.BITS) := by
  have hle := P.bits_le
  apply Nat.eq_of_testBit_eq
  intro i
  rw [BitVec.toNat_and, Nat.testBit_and, Nat.testBit_mod_two_pow]
  by_cases hlt : i < P.W
  · have hnot : (~~~ ctrMask P).toNat.testBit i = decide (i < P.W - P.BITS) := by
      have hmask := testBit_ctrMask (P := P) i
      rw [BitVec.testBit_toNat] at hmask ⊢
      rw [BitVec.getLsbD_not, hmask]
      by_cases hi : P.W - P.BITS ≤ i
      · simp [hlt, hi]
      · simp [hlt, hi, not_le.mp hi]
    rw [hnot, Bool.and_comm]
  · have hbit : v.toNat.testBit i = false :=
      Nat.testBit_lt_two_pow (v.isLt.trans_le (Nat.pow_le_pow_right (by decide) (not_lt.mp hlt)))
    simp [hbit]

end Engine

end Fs123
