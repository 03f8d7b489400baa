import Fs123.Core.CounterBasedEngine
import Mathlib.Data.List.GetD

/-!
# The sequence of a counter based engine

An engine with a key and an initial value is at a position of the sequence of the blocks `f(iv with counter 0)`,
`f(iv with counter 1)` and so on (`At`). The position is found in the state (`consumed`). `discard` does not look at the
counter when it adds to it: beyond the end it goes wrong when the counter wraps round without stopping at zero
(`DiscardFits`), and the sum of `navail` can wrap when the range has no power of two of words (`NavailFits`).
-/

namespace Fs123

open Cxx

namespace Engine

variable (P : CounterParams)

/-- The number of values in the sequence. -/
def length : ℕ := P.Nrange * 2 ^ P.BITS

/-- The number of blocks that have been computed for the first values. -/
def blocks : ℕ → ℕ
  | 0 => 0
  | q + 1 => q / P.Nrange + 1

/-- How many values of the last of them have been used. In front of the first block there is a used one. -/
def used : ℕ → ℕ
  | 0 => P.Nrange
  | q + 1 => q % P.Nrange + 1

/-- Discarding `n` values at a position does what `n` calls do. -/
def DiscardFits (p n : ℕ) : Prop := blocks P (p + n) ≤ 2 ^ P.BITS + 1 ∨ 2 ^ P.BITS < blocks P (p + n) - blocks P p

/-- The number of values that are left at a position is computed without an overflow. -/
def NavailFits (p : ℕ) : Prop :=
  p = 0 ∨ 2 ^ 64 ≤ P.Nrange * (2 ^ P.BITS - blocks P p) ∨ length P - p < 2 ^ 64

theorem blocks_mul_add_used (p : ℕ) : blocks P p * P.Nrange + used P p = p + P.Nrange := by
  cases p with
  | zero => simp [blocks, used]
  | succ q =>
    have h := Nat.div_add_mod' q P.Nrange
    rw [blocks, used, Nat.add_mul, Nat.one_mul]
    omega

theorem used_bounds (p : ℕ) : 0 < used P p ∧ used P p ≤ P.Nrange := by
  cases p with
  | zero => exact ⟨P.range_pos, le_refl _⟩
  | succ q => exact ⟨Nat.succ_pos _, Nat.mod_lt q P.range_pos⟩

/-- A position has one number of blocks and one number of used values. -/
theorem eq_blocks_used {p b u : ℕ} (h : b * P.Nrange + u = p + P.Nrange) (hpos : 0 < u) (hle : u ≤ P.Nrange) :
    blocks P p = b ∧ used P p = u := by
  have heq := blocks_mul_add_used P p
  obtain ⟨hpos', hle'⟩ := used_bounds P p
  have hsub : ∀ {b u : ℕ}, 0 < u → u ≤ P.Nrange → (b * P.Nrange + u - 1) / P.Nrange = b := by
    intro b u hpos hle
    rw [Nat.add_sub_assoc hpos, Nat.add_comm, Nat.add_mul_div_right _ _ P.range_pos, Nat.div_eq_of_lt (by omega),
      Nat.zero_add]
  have hb : blocks P p = b := by
    calc blocks P p = (blocks P p * P.Nrange + used P p - 1) / P.Nrange := (hsub hpos' hle').symm
      _ = (b * P.Nrange + u - 1) / P.Nrange := by rw [heq, h]
      _ = b := hsub hpos hle
  refine ⟨hb, ?_⟩
  rw [hb] at heq
  omega

theorem blocks_pos {p : ℕ} (hp : p ≠ 0) : 0 < blocks P p := by
  cases p with
  | zero => exact absurd rfl hp
  | succ q => exact Nat.succ_pos _

theorem blocks_le_iff (p M : ℕ) : blocks P p ≤ M ↔ p ≤ P.Nrange * M := by
  cases p with
  | zero => simp [blocks]
  | succ q =>
    rw [blocks, Nat.succ_le_iff, Nat.div_lt_iff_lt_mul P.range_pos, Nat.mul_comm]
    exact Iff.rfl

/-! ## Positions -/

variable {P}

/-- The counter of a block. The addition of the last one wraps round. -/
def counter (iv : Words P.W P.Ndomain) (b : ℕ) : Words P.W P.Ndomain :=
  setBack iv (back iv + .ofNat P.W (b * 2 ^ (P.W - P.BITS)))

/-- A block of the sequence. -/
def block (key : Words P.K P.Nkey) (iv : Words P.W P.Ndomain) (b : ℕ) : Words P.R P.Nrange := P.prf key (counter iv b)

/-- A value of the sequence. -/
def value (key : Words P.K P.Nkey) (iv : Words P.W P.Ndomain) (p : ℕ) : BitVec P.R :=
  getElem (block key iv (p / P.Nrange)) (p % P.Nrange) (Nat.mod_lt p P.range_pos)

/-- The engine is at a position of the sequence. -/
structure At (key : Words P.K P.Nkey) (iv : Words P.W P.Ndomain) (p : ℕ) (e : Engine P) : Prop where
  le : p ≤ length P
  f : e.f = key
  c : e.c = counter iv (blocks P p)
  index : (first e.r).toNat = if p = 0 then P.Nrange + 1 else used P p
  rest : ∀ j (hj : j < P.Nrange), used P p ≤ j → e.r[j] = (block key iv (blocks P p - 1))[j]

/-- The position that the state stands for. -/
def consumed (e : Engine P) : ℕ :=
  let r0 := (first e.r).toNat
  let ctr := (back e.c).toNat / 2 ^ (P.W - P.BITS)
  if r0 = P.Nrange + 1 then 0 else ((if ctr = 0 then 2 ^ P.BITS else ctr) - 1) * P.Nrange + r0

/-- The exception is an `std::out_of_range`. -/
def OutOfRange {α : Type} (r : Res α) : Prop := ∃ what, r = throwE .outOfRange what

section Counters

variable {iv : Words P.W P.Ndomain}

theorem counter_add (b : ℕ) : setBack (counter iv b) (back (counter iv b) + incr P) = counter iv (b + 1) := by
  rw [counter, setBack_setBack, back_setBack, incr_eq, counter, BitVec.add_assoc, BitVec.ofNat_add_ofNat, Nat.succ_mul]

theorem counter_add_mul (b n : ℕ) :
    setBack (counter iv b) (back (counter iv b) + .ofNat P.W n * incr P) = counter iv (b + n) := by
  rw [counter, setBack_setBack, back_setBack, incr_eq, counter, BitVec.add_assoc, BitVec.ofNat_mul_ofNat,
    BitVec.ofNat_add_ofNat, Nat.add_mul]

theorem counter_sub (b : ℕ) : setBack (counter iv (b + 1)) (back (counter iv (b + 1)) - incr P) = counter iv b := by
  rw [← counter_add, setBack_setBack, back_setBack, BitVec.add_sub_cancel, counter, setBack_setBack, back_setBack]

theorem back_counter_toNat (iv : Words P.W P.Ndomain) (b : ℕ) :
    (back (counter iv b)).toNat = ((back iv).toNat + b * 2 ^ (P.W - P.BITS)) % 2 ^ P.W := by
  rw [counter, back_setBack, BitVec.toNat_add, BitVec.toNat_ofNat, Nat.add_mod_mod]

/-- The high bits count the blocks. -/
theorem counter_hi (hiv : back iv &&& ctrMask P = 0) (b : ℕ) :
    (back (counter iv b)).toNat / 2 ^ (P.W - P.BITS) = b % 2 ^ P.BITS := by
  have hlow := (and_ctrMask_eq_zero_iff _).mp hiv
  rw [back_counter_toNat, ← two_pow_bits, Nat.mod_mul_left_div_self, Nat.add_mul_div_right _ _ (Nat.two_pow_pos _), hlow,
    Nat.zero_add]

theorem counter_zero : counter iv 0 = iv := by
  rw [counter, Nat.zero_mul, BitVec.add_zero]
  exact Vector.set_getElem_self _

/-- With all high bits unset the counter has wrapped round. -/
theorem counter_clear (hiv : back iv &&& ctrMask P = 0) (b : ℕ) :
    setBack (counter iv b) (back (counter iv b) &&& ~~~ ctrMask P) = counter iv (2 ^ P.BITS) := by
  have hlow := (Nat.div_eq_zero_iff_lt (Nat.two_pow_pos _)).mp ((and_ctrMask_eq_zero_iff _).mp hiv)
  have hwrap : BitVec.ofNat P.W (2 ^ P.BITS * 2 ^ (P.W - P.BITS)) = 0 := by
    apply BitVec.eq_of_toNat_eq
    rw [two_pow_bits, BitVec.toNat_ofNat, Nat.mod_self]
    rfl
  have hback : back (counter iv b) &&& ~~~ ctrMask P = back iv := by
    apply BitVec.eq_of_toNat_eq
    rw [and_not_ctrMask_toNat, back_counter_toNat, ← two_pow_bits, Nat.mod_mul_left_mod, Nat.add_mul_mod_self_right,
      Nat.mod_eq_of_lt hlow]
  rw [hback, counter, setBack_setBack, counter, hwrap]
  exact congrArg _ (BitVec.add_zero _).symm

end Counters

section Steps

variable {key : Words P.K P.Nkey} {iv : Words P.W P.Ndomain} {e : Engine P} {p b : ℕ}

theorem At.same {e' : Engine P} (h : At key iv p e) (h' : At key iv p e') : Same e e' := by
  refine ⟨h.c.trans h'.c.symm, ?_, h.f.trans h'.f.symm⟩
  exact BitVec.eq_of_toNat_eq (h.index.trans h'.index.symm)

/-- A state with the same counter and index as one at the end of the sequence. -/
theorem at_length (hf : e.f = key) (hc : e.c = counter iv (2 ^ P.BITS)) (hindex : (first e.r).toNat = P.Nrange) :
    At key iv (length P) e := by
  have hpos : 0 < length P := Nat.mul_pos P.range_pos (Nat.two_pow_pos _)
  have hlen : 2 ^ P.BITS * P.Nrange + P.Nrange = length P + P.Nrange := by rw [length, Nat.mul_comm]
  obtain ⟨hblocks, hused⟩ := eq_blocks_used P hlen P.range_pos (le_refl _)
  refine ⟨le_refl _, hf, ?_, ?_, fun j hj hle => ?_⟩
  · rw [hblocks]
    exact hc
  · rw [if_neg hpos.ne', hused]
    exact hindex
  · omega

/-- The next block is computed, unless the counter is zero and not new. -/
theorem refill_ok (hf : e.f = key) (hc : e.c = counter iv b) (hiv : back iv &&& ctrMask P = 0)
    (h : b % 2 ^ P.BITS ≠ 0 ∨ (first e.r).toNat = P.Nrange + 2) :
    e.refill = (⟨key, counter iv (b + 1), setFirst (block key iv b) 1⟩, .ok (first (block key iv b))) := by
  have hnot : ¬ (back e.c &&& ctrMask P = 0 ∧ (first e.r).toNat ≠ P.Nrange + 2) := by
    rw [and_ctrMask_eq_zero_iff, hc, counter_hi hiv]
    tauto
  rw [refill, if_neg hnot, hf, hc, counter_add]
  rfl

theorem refill_throws (hc : e.c = counter iv b) (hiv : back iv &&& ctrMask P = 0) (hb : b % 2 ^ P.BITS = 0)
    (hindex : (first e.r).toNat ≠ P.Nrange + 2) :
    (e.refill).1 = { e with r := setFirst e.r (.ofNat P.R P.Nrange) } ∧ OutOfRange (e.refill).2 := by
  have hyes : back e.c &&& ctrMask P = 0 ∧ (first e.r).toNat ≠ P.Nrange + 2 := by
    rw [and_ctrMask_eq_zero_iff, hc, counter_hi hiv]
    exact ⟨hb, hindex⟩
  rw [refill, if_pos hyes]
  exact ⟨rfl, _, rfl⟩

theorem toNat_index {n : ℕ} (h : n ≤ P.Nrange + 2) : (BitVec.ofNat P.R n).toNat = n := by
  have hlt := P.sentinel_lt
  rw [BitVec.toNat_ofNat, Nat.mod_eq_of_lt (by omega)]

theorem toNat_add_one {v : BitVec P.R} (h : v.toNat ≤ P.Nrange + 1) : (v + 1).toNat = v.toNat + 1 := by
  have hlt := P.sentinel_lt
  have hdigits := P.digits_gt
  have hone : (1 : BitVec P.R).toNat = 1 := BitVec.toNat_one (by omega)
  rw [BitVec.toNat_add, hone, Nat.mod_eq_of_lt (by omega)]

theorem At.index_le (h : At key iv p e) : (first e.r).toNat ≤ P.Nrange + 1 := by
  have hle := (used_bounds P p).2
  rw [h.index]
  split <;> omega

/-- At the end the counter has counted all blocks. -/
theorem At.blocks_le (h : At key iv p e) : blocks P p ≤ 2 ^ P.BITS := (blocks_le_iff P p _).mpr h.le

/-- Behind a block the sequence goes on with the next one. -/
theorem at_block {p : ℕ} (hle : p ≤ length P) (hp : p ≠ 0) {r : Words P.R P.Nrange} (hr : r = block key iv (blocks P p - 1))
    {v : BitVec P.R} (hv : v.toNat = used P p) :
    At key iv p ⟨key, counter iv (blocks P p), setFirst r v⟩ := by
  refine ⟨hle, rfl, rfl, ?_, fun j hj hused => ?_⟩
  · rw [if_neg hp, first_setFirst, hv]
  · have hpos := (used_bounds P p).1
    rw [getElem_setFirst _ _ (by omega), hr]

theorem value_eq {u : ℕ} (h : p = b * P.Nrange + u) (hu : u < P.Nrange) :
    value key iv p = (block key iv b)[u] := by
  have hdiv : p / P.Nrange = b := by
    rw [h, Nat.add_comm, Nat.add_mul_div_right _ _ P.range_pos, Nat.div_eq_of_lt hu, Nat.zero_add]
  have hmod : p % P.Nrange = u := by
    rw [h, Nat.add_comm, Nat.add_mul_mod_self_right, Nat.mod_eq_of_lt hu]
  unfold value
  simp only [hdiv, hmod]

/-- A call that has no value left in `r` computes the next block. -/
theorem call_of_used (h : At key iv p e) (hused : used P p = P.Nrange) :
    e.call = refill { e with r := setFirst e.r (first e.r + 1) } := by
  have hindex := h.index
  have hge : ¬ (first e.r).toNat < P.Nrange := by
    split at hindex <;> omega
  rw [call]
  dsimp only
  rw [dif_neg hge]

theorem call_ok (hiv : back iv &&& ctrMask P = 0) (h : At key iv p e) (hlt : p < length P) :
    (e.call).2 = .ok (value key iv p) ∧ At key iv (p + 1) (e.call).1 := by
  have heq := blocks_mul_add_used P p
  obtain ⟨hpos, hle⟩ := used_bounds P p
  have hindex := h.index
  have hone := toNat_add_one h.index_le
  rcases Nat.lt_or_ge (used P p) P.Nrange with hused | hused
  · -- The next value is there.
    have hp : p ≠ 0 := by
      intro hp
      rw [hp] at hused
      exact absurd hused (lt_irrefl _)
    have hbpos := blocks_pos P hp
    rw [if_neg hp] at hindex
    have hnext : blocks P p * P.Nrange + (used P p + 1) = (p + 1) + P.Nrange := by omega
    obtain ⟨hb, hu⟩ := eq_blocks_used P hnext (Nat.succ_pos _) hused
    have hsplit : p = (blocks P p - 1) * P.Nrange + used P p := by
      rw [Nat.sub_mul, Nat.one_mul]
      have hge : P.Nrange ≤ blocks P p * P.Nrange := Nat.le_mul_of_pos_left _ hbpos
      omega
    have hcall : e.call = ({ e with r := setFirst e.r (first e.r + 1) }, .ok (value key iv p)) := by
      rw [call]
      dsimp only
      rw [dif_pos (hindex ▸ hused)]
      simp only [hindex]
      rw [getElem_setFirst _ _ hpos, h.rest _ hused (le_refl _), value_eq hsplit hused]
    rw [hcall]
    refine ⟨rfl, hlt, h.f, ?_, ?_, fun j hj hle => ?_⟩
    · rw [hb]
      exact h.c
    · rw [if_neg (Nat.succ_ne_zero p), hu, first_setFirst, hone, hindex]
    · rw [hu] at hle
      rw [hb, getElem_setFirst _ _ (by omega)]
      exact h.rest j hj (by omega)
  · -- A block has been used up, or there was none.
    have hused' : used P p = P.Nrange := le_antisymm hle hused
    have hsplit : p = blocks P p * P.Nrange := by omega
    have hblt : blocks P p < 2 ^ P.BITS := by
      rw [hsplit, length, Nat.mul_comm] at hlt
      exact Nat.lt_of_mul_lt_mul_left hlt
    have hfresh : blocks P p % 2 ^ P.BITS ≠ 0 ∨ (first (setFirst e.r (first e.r + 1))).toNat = P.Nrange + 2 := by
      rw [first_setFirst, hone, hindex, Nat.mod_eq_of_lt hblt]
      by_cases hp : p = 0
      · exact .inr (by rw [if_pos hp])
      · exact .inl (blocks_pos P hp).ne'
    have hnext : (blocks P p + 1) * P.Nrange + 1 = (p + 1) + P.Nrange := by
      rw [Nat.succ_mul]
      omega
    obtain ⟨hb, hu⟩ := eq_blocks_used P hnext Nat.one_pos P.range_pos
    have hrefill := @refill_ok P key iv { e with r := setFirst e.r (first e.r + 1) } (blocks P p) h.f h.c hiv hfresh
    rw [call_of_used h hused', hrefill]
    constructor
    · rw [value_eq hsplit P.range_pos]
      rfl
    · rw [← hb]
      refine at_block hlt (Nat.succ_ne_zero p) ?_ ?_
      · rw [hb, Nat.add_sub_cancel]
      · have hdigits := P.digits_gt
        rw [hu]
        exact BitVec.toNat_one (by omega)

theorem call_throws (hiv : back iv &&& ctrMask P = 0) (h : At key iv (length P) e) :
    OutOfRange (e.call).2 ∧ At key iv (length P) (e.call).1 := by
  have hpos : 0 < length P := Nat.mul_pos P.range_pos (Nat.two_pow_pos _)
  have hlen : 2 ^ P.BITS * P.Nrange + P.Nrange = length P + P.Nrange := by rw [length, Nat.mul_comm]
  obtain ⟨hblocks, hused⟩ := eq_blocks_used P hlen P.range_pos (le_refl _)
  have hone := toNat_add_one h.index_le
  have hindex : (first (setFirst e.r (first e.r + 1))).toNat ≠ P.Nrange + 2 := by
    rw [first_setFirst, hone, h.index, if_neg hpos.ne', hused]
    omega
  have hmod : blocks P (length P) % 2 ^ P.BITS = 0 := by rw [hblocks, Nat.mod_self]
  obtain ⟨hstate, hout⟩ := @refill_throws P iv { e with r := setFirst e.r (first e.r + 1) } _ h.c hiv hmod hindex
  rw [call_of_used h hused]
  refine ⟨hout, ?_⟩
  rw [hstate]
  refine at_length h.f (hblocks ▸ h.c) ?_
  rw [first_setFirst, toNat_index (by omega)]

/-- `n` calls of `operator()`, to the first that throws. -/
def calls : ℕ → Engine P → Engine P × Res Unit
  | 0, e => (e, .ok ())
  | n + 1, e =>
    match e.call with
    | (e, .error err) => (e, .error err)
    | (e, .ok _) => calls n e

theorem calls_ok (hiv : back iv &&& ctrMask P = 0) {n : ℕ} (h : At key iv p e) (hle : p + n ≤ length P) :
    (calls n e).2 = .ok () ∧ At key iv (p + n) (calls n e).1 := by
  induction n generalizing p e with
  | zero => exact ⟨rfl, h⟩
  | succ n ih =>
    obtain ⟨hval, hat⟩ := call_ok hiv h (by omega)
    obtain ⟨e', hcall⟩ : ∃ e', e.call = (e', .ok (value key iv p)) := ⟨_, Prod.ext rfl hval⟩
    rw [hcall] at hat
    have hstep : calls (n + 1) e = calls n e' := by rw [calls, hcall]
    have hnext : p + 1 + n = p + (n + 1) := by omega
    rw [hstep, ← hnext]
    exact ih hat (by omega)

theorem calls_throws (hiv : back iv &&& ctrMask P = 0) {n : ℕ} (h : At key iv p e) (hlt : length P < p + n) :
    OutOfRange (calls n e).2 ∧ At key iv (length P) (calls n e).1 := by
  induction n generalizing p e with
  | zero => exact absurd h.le (by omega)
  | succ n ih =>
    rcases Nat.lt_or_ge p (length P) with hp | hp
    · obtain ⟨hval, hat⟩ := call_ok hiv h hp
      obtain ⟨e', hcall⟩ : ∃ e', e.call = (e', .ok (value key iv p)) := ⟨_, Prod.ext rfl hval⟩
      rw [hcall] at hat
      have hstep : calls (n + 1) e = calls n e' := by rw [calls, hcall]
      rw [hstep]
      exact ih hat (by omega)
    · obtain rfl : p = length P := le_antisymm h.le hp
      obtain ⟨⟨what, hwhat⟩, hat⟩ := call_throws hiv h
      obtain ⟨e', hcall⟩ : ∃ e', e.call = (e', throwE .outOfRange what) := ⟨_, Prod.ext rfl hwhat⟩
      rw [hcall] at hat
      have hstep : calls (n + 1) e = (e', throwE .outOfRange what) := by
        rw [calls, hcall]
        rfl
      rw [hstep]
      exact ⟨⟨what, rfl⟩, hat⟩

/-! ## Discarding -/

/-- `discard(n)` leaves the engine as `n` calls do, and throws when they do. -/
structure DiscardsLike (e : Engine P) (n : ℕ) : Prop where
  same : Same (e.discard n).1 (calls n e).1
  throws : OutOfRange (e.discard n).2 ↔ OutOfRange (calls n e).2

/-- The index, with the one in front of the first block unwound. -/
theorem At.unwound (h : At key iv p e) :
    (if (first e.r).toNat = P.Nrange + 1 then P.Nrange else (first e.r).toNat) = used P p := by
  have hle := (used_bounds P p).2
  rw [h.index]
  by_cases hp : p = 0
  · rw [hp, if_pos rfl, if_pos rfl]
    rfl
  · rw [if_neg hp, if_neg (by omega)]

/-- `discard` splits the values into blocks and a new index. -/
theorem discard_eq (h : At key iv p e) {n : ℕ} (hn : n ≠ 0) :
    ∃ nfill r0, e.discard n = e.discardFill nfill r0 ∧ blocks P (p + n) = blocks P p + nfill
      ∧ used P (p + n) = r0 := by
  have heq := blocks_mul_add_used P p
  obtain ⟨hpos, hle⟩ := used_bounds P p
  have hdiv := Nat.div_add_mod' n P.Nrange
  have hmod := Nat.mod_lt n P.range_pos
  have hunwound := h.unwound
  unfold discard
  rw [if_neg hn]
  dsimp only
  rw [hunwound]
  split
  · next hfull =>
    refine ⟨_, _, rfl, ?_⟩
    refine eq_blocks_used P ?_ (by omega) (by omega)
    rw [Nat.add_mul, Nat.succ_mul]
    omega
  · next hfull =>
    refine ⟨_, _, rfl, ?_⟩
    refine eq_blocks_used P ?_ (by omega) (by omega)
    rw [Nat.add_mul]
    omega

/-- The check that `nfill` is not too large. -/
theorem rightWB_leftWB_ne_iff (m : ℕ) :
    (rightWB P (leftWB P (.ofNat P.W m))).toNat ≠ m ↔ 2 ^ P.BITS ≤ m := by
  have hmod := Nat.mod_lt m (Nat.two_pow_pos P.BITS)
  rw [rightWB_leftWB_toNat, BitVec.toNat_ofNat, Nat.mod_mod_of_dvd _ (pow_dvd_pow 2 P.bits_le)]
  constructor
  · intro hne
    by_contra hlt
    exact hne (Nat.mod_eq_of_lt (by omega))
  · omega

/-- The values are all in `r`. -/
theorem discardFill_zero (h : At key iv p e) {n : ℕ} (hn : 0 < n) (hblocks : blocks P (p + n) = blocks P p) :
    (e.discardFill 0 (used P (p + n))).2 = .ok ()
      ∧ At key iv (p + n) (e.discardFill 0 (used P (p + n))).1 := by
  have hsum := blocks_mul_add_used P (p + n)
  have hsum' := blocks_mul_add_used P p
  obtain ⟨hpos, hle⟩ := used_bounds P (p + n)
  rw [hblocks] at hsum
  refine ⟨rfl, (blocks_le_iff P _ _).mp (hblocks ▸ h.blocks_le), h.f, ?_, ?_, fun j hj hused => ?_⟩
  · rw [hblocks]
    exact h.c
  · rw [if_neg (by omega), discardFill, if_pos rfl, first_setFirst, toNat_index (by omega)]
  · rw [discardFill, if_pos rfl, getElem_setFirst _ _ (by omega), hblocks]
    exact h.rest j hj (by omega)

/-- More blocks than there are counters. -/
theorem discardFill_large (hiv : back iv &&& ctrMask P = 0) (h : At key iv p e) {m r0 : ℕ} (hm : 2 ^ P.BITS ≤ m) :
    OutOfRange (e.discardFill (m + 1) r0).2 ∧ At key iv (length P) (e.discardFill (m + 1) r0).1 := by
  rw [discardFill, if_neg (Nat.succ_ne_zero m)]
  dsimp only
  rw [Nat.add_sub_cancel, if_pos ((rightWB_leftWB_ne_iff m).mpr hm)]
  refine ⟨⟨_, rfl⟩, at_length h.f ?_ ?_⟩
  · dsimp only
    rw [h.c, counter_clear hiv]
  · rw [first_setFirst, toNat_index (by omega)]

/-- The state that `refill` meets in `discard`. -/
theorem discardFill_eq {m r0 : ℕ} (hm : m < 2 ^ P.BITS) : e.discardFill (m + 1) r0 =
    match refill { e with
      c := setBack e.c (back e.c + .ofNat P.W m * incr P), r := setFirst e.r (first e.r + 1) } with
    | (e, .error err) => (e, .error err)
    | (e, .ok _) => ({ e with r := setFirst e.r (.ofNat P.R r0) }, .ok ()) := by
  have hnot : ¬ (rightWB P (leftWB P (.ofNat P.W m))).toNat ≠ m := by
    rw [rightWB_leftWB_ne_iff]
    omega
  rw [discardFill, if_neg (Nat.succ_ne_zero m)]
  dsimp only
  rw [Nat.add_sub_cancel]
  exact if_neg hnot

/-- One block too many: the counter stops at zero. -/
theorem discardFill_end (hiv : back iv &&& ctrMask P = 0) (h : At key iv p e) {m r0 : ℕ} (hm : m < 2 ^ P.BITS)
    (hend : blocks P p + m = 2 ^ P.BITS) :
    OutOfRange (e.discardFill (m + 1) r0).2 ∧ At key iv (length P) (e.discardFill (m + 1) r0).1 := by
  have hp : p ≠ 0 := by
    intro hp
    rw [hp, blocks, Nat.zero_add] at hend
    omega
  have hc : setBack e.c (back e.c + .ofNat P.W m * incr P) = counter iv (2 ^ P.BITS) := by
    rw [h.c, counter_add_mul, hend]
  have hindex : (first (setFirst e.r (first e.r + 1))).toNat ≠ P.Nrange + 2 := by
    have hle := (used_bounds P p).2
    rw [first_setFirst, toNat_add_one h.index_le, h.index, if_neg hp]
    omega
  obtain ⟨e', he'⟩ : ∃ e', e' = (⟨e.f, setBack e.c (back e.c + .ofNat P.W m * incr P),
      setFirst e.r (first e.r + 1)⟩ : Engine P) := ⟨_, rfl⟩
  have hc' : e'.c = counter iv (2 ^ P.BITS) := by rw [he', ← hc]
  have hindex' : (first e'.r).toNat ≠ P.Nrange + 2 := by rwa [he']
  obtain ⟨hstate, what, hout⟩ := refill_throws hc' hiv (Nat.mod_self _) hindex'
  have hrefill : refill e' = ({ e' with r := setFirst e'.r (.ofNat P.R P.Nrange) }, throwE .outOfRange what) :=
    Prod.ext hstate hout
  rw [discardFill_eq hm, ← he', hrefill, he']
  refine ⟨⟨what, rfl⟩, at_length h.f hc ?_⟩
  dsimp only [throwE]
  rw [first_setFirst, toNat_index (by omega)]

/-- Otherwise the last of the blocks is computed, also when the counter has wrapped round. -/
theorem discardFill_ok (hiv : back iv &&& ctrMask P = 0) (h : At key iv p e) {m r0 : ℕ} (hm : m < 2 ^ P.BITS)
    (hend : blocks P p + m ≠ 2 ^ P.BITS) :
    e.discardFill (m + 1) r0 = (⟨key, counter iv (blocks P p + m + 1),
      setFirst (block key iv (blocks P p + m)) (.ofNat P.R r0)⟩, .ok ()) := by
  have hble := h.blocks_le
  have hc : setBack e.c (back e.c + .ofNat P.W m * incr P) = counter iv (blocks P p + m) := by
    rw [h.c, counter_add_mul]
  have hfresh : (blocks P p + m) % 2 ^ P.BITS ≠ 0
      ∨ (first (setFirst e.r (first e.r + 1))).toNat = P.Nrange + 2 := by
    rw [first_setFirst, toNat_add_one h.index_le, h.index]
    by_cases hp : p = 0
    · exact .inr (by rw [if_pos hp])
    · have hpos := blocks_pos P hp
      refine .inl ?_
      rcases Nat.lt_or_ge (blocks P p + m) (2 ^ P.BITS) with hlt | hge
      · rw [Nat.mod_eq_of_lt hlt]
        omega
      · rw [Nat.mod_eq_sub_mod hge, Nat.mod_eq_of_lt (by omega)]
        omega
  have hrefill := @refill_ok P key iv
    ⟨e.f, setBack e.c (back e.c + .ofNat P.W m * incr P), setFirst e.r (first e.r + 1)⟩ _ h.f hc hiv hfresh
  rw [discardFill_eq hm, hrefill]
  dsimp only
  rw [setFirst_setFirst]

/-- What `discard` does at a position. -/
theorem discard_spec (hiv : back iv &&& ctrMask P = 0) (h : At key iv p e) (n : ℕ) :
    (p + n ≤ length P → (e.discard n).2 = .ok () ∧ At key iv (p + n) (e.discard n).1)
      ∧ (length P < p + n → DiscardFits P p n →
        OutOfRange (e.discard n).2 ∧ At key iv (length P) (e.discard n).1)
      ∧ (¬ DiscardFits P p n → (e.discard n).2 = .ok ()) := by
  have hbits := Nat.two_pow_pos P.BITS
  have hble := h.blocks_le
  rcases Nat.eq_zero_or_pos n with rfl | hn
  · refine ⟨fun _ => ⟨rfl, h⟩, fun hlt => absurd h.le (by omega), fun hnot => absurd (Or.inl ?_) hnot⟩
    exact hble.trans (Nat.le_succ _)
  obtain ⟨nfill, r0, heq, hblocks, hused⟩ := discard_eq h hn.ne'
  have hbound := used_bounds P (p + n)
  have hle_iff : blocks P (p + n) ≤ 2 ^ P.BITS ↔ p + n ≤ length P := blocks_le_iff P (p + n) _
  have hne : p + n ≠ 0 := by omega
  rw [heq, ← hused]
  unfold DiscardFits
  cases nfill with
  | zero =>
    have hsame : blocks P (p + n) = blocks P p := hblocks
    exact ⟨fun _ => discardFill_zero h hn hsame, by omega, by omega⟩
  | succ m =>
    rcases Nat.lt_or_ge m (2 ^ P.BITS) with hm | hm
    · by_cases hend : blocks P p + m = 2 ^ P.BITS
      · exact ⟨by omega, fun _ _ => discardFill_end hiv h hm hend, by omega⟩
      · rw [discardFill_ok hiv h hm hend]
        refine ⟨fun hle => ⟨rfl, ?_⟩, by omega, fun _ => rfl⟩
        have hlast : blocks P p + m = blocks P (p + n) - 1 := by omega
        have hnext : blocks P p + m + 1 = blocks P (p + n) := by omega
        rw [hnext, hlast]
        exact at_block hle hne rfl (toNat_index (by omega))
    · exact ⟨by omega, fun _ _ => discardFill_large hiv h hm, by omega⟩

/-- `discard` does what the calls do exactly when the counter does not wrap round. -/
theorem discardsLike_iff (hiv : back iv &&& ctrMask P = 0) (h : At key iv p e) (n : ℕ) :
    DiscardsLike e n ↔ DiscardFits P p n := by
  obtain ⟨hok, hthrows, hwraps⟩ := discard_spec hiv h n
  have hnot : ¬ OutOfRange (.ok () : Res Unit) := by
    intro ⟨what, hwhat⟩
    cases hwhat
  rcases Nat.lt_or_ge (length P) (p + n) with hlt | hle
  · obtain ⟨hout, hat⟩ := calls_throws hiv h hlt
    constructor
    · intro hlike
      by_contra hfits
      have hthrow := hlike.throws.mpr hout
      rw [hwraps hfits] at hthrow
      exact hnot hthrow
    · intro hfits
      obtain ⟨hout', hat'⟩ := hthrows hlt hfits
      exact ⟨hat'.same hat, iff_of_true hout' hout⟩
  · obtain ⟨hval, hat⟩ := calls_ok hiv h hle
    obtain ⟨hval', hat'⟩ := hok hle
    have hfits : DiscardFits P p n := .inl (((blocks_le_iff P _ _).mpr hle).trans (Nat.le_succ _))
    exact iff_of_true ⟨hat'.same hat, by rw [hval, hval']⟩ hfits

/-! ## What is left -/

theorem rightWB_ctrMask_toNat : (rightWB P (ctrMask P)).toNat = 2 ^ P.BITS - 1 := by
  rw [rightWB_toNat, ctrMask_toNat, Nat.mul_div_cancel _ (Nat.two_pow_pos _)]

theorem sequenceLength_eq : sequenceLength P = min (length P) ullmax := by
  have hbits := Nat.two_pow_pos P.BITS
  have hsucc : 2 ^ P.BITS - 1 + 1 = 2 ^ P.BITS := by omega
  unfold sequenceLength
  dsimp only
  rw [rightWB_ctrMask_toNat, hsucc]
  split
  · next hle =>
    have hlt : ullmax / P.Nrange < 2 ^ P.BITS := by omega
    rw [Nat.div_lt_iff_lt_mul P.range_pos, Nat.mul_comm] at hlt
    exact (min_eq_right hlt.le).symm
  · next hlt =>
    have hle : 2 ^ P.BITS ≤ ullmax / P.Nrange := by omega
    rw [Nat.le_div_iff_mul_le P.range_pos, Nat.mul_comm] at hle
    exact (min_eq_left hle).symm

/-- What is left: whole blocks, and the rest of the last one that has been computed. -/
theorem length_sub (hle : p ≤ length P) :
    length P - p = P.Nrange * (2 ^ P.BITS - blocks P p) + (P.Nrange - used P p) := by
  have heq := blocks_mul_add_used P p
  have hbound := (used_bounds P p).2
  have hble := (blocks_le_iff P p (2 ^ P.BITS)).mpr hle
  have hmul : blocks P p * P.Nrange ≤ P.Nrange * 2 ^ P.BITS := by
    rw [Nat.mul_comm]
    exact Nat.mul_le_mul_left _ hble
  rw [Nat.mul_sub, Nat.mul_comm P.Nrange (blocks P p)]
  unfold length
  omega

/-- The number of values that are left is exact when its sum does not wrap round. -/
theorem navail_iff (hiv : back iv &&& ctrMask P = 0) (h : At key iv p e) :
    e.navail = min (length P - p) ullmax ↔ NavailFits P p := by
  have hindex := h.index
  have hbound := (used_bounds P p).2
  have hlarge := P.index_lt
  have hmax : ullmax = 2 ^ 64 - 1 := rfl
  have hctr : (rightWB P (back e.c)).toNat = blocks P p % 2 ^ P.BITS := by
    rw [rightWB_toNat, h.c, counter_hi hiv]
  unfold navail
  dsimp only
  rw [hctr, rightWB_ctrMask_toNat]
  by_cases hp : p = 0
  · rw [if_pos hp] at hindex
    rw [if_pos hindex, sequenceLength_eq, hp, Nat.sub_zero]
    exact iff_of_true rfl (.inl rfl)
  rw [if_neg hp] at hindex
  rw [hindex, if_neg (by omega)]
  have hpos := blocks_pos P hp
  have hleft := length_sub h.le
  rcases Nat.lt_or_ge (blocks P p) (2 ^ P.BITS) with hlt | hge
  · have hcleft : 2 ^ P.BITS - 1 - blocks P p + 1 = 2 ^ P.BITS - blocks P p := by omega
    rw [Nat.mod_eq_of_lt hlt, if_neg hpos.ne', hcleft]
    have hdiv : ullmax / P.Nrange < 2 ^ P.BITS - blocks P p ↔ ullmax < P.Nrange * (2 ^ P.BITS - blocks P p) := by
      rw [Nat.div_lt_iff_lt_mul P.range_pos, Nat.mul_comm]
    unfold NavailFits
    split
    · next hsat =>
      have hge := hdiv.mp hsat
      exact iff_of_true (by omega) (.inr (.inl (by omega)))
    · next hsat =>
      have hle := mt hdiv.mpr hsat
      rw [hleft]
      omega
  · have heq : blocks P p = 2 ^ P.BITS := le_antisymm h.blocks_le hge
    rw [heq, Nat.sub_self, Nat.mul_zero, Nat.zero_add] at hleft
    rw [heq, Nat.mod_self, if_pos rfl, hleft]
    refine iff_of_true (by omega) (.inr (.inr ?_))
    omega

theorem At.consumed_eq (hiv : back iv &&& ctrMask P = 0) (h : At key iv p e) : e.consumed = p := by
  have hindex := h.index
  have hbound := (used_bounds P p).2
  have heq := blocks_mul_add_used P p
  unfold consumed
  dsimp only
  rw [h.c, counter_hi hiv]
  by_cases hp : p = 0
  · rw [if_pos hp] at hindex
    rw [if_pos hindex, hp]
  rw [if_neg hp] at hindex
  have hpos := blocks_pos P hp
  have hdone : (if blocks P p % 2 ^ P.BITS = 0 then 2 ^ P.BITS else blocks P p % 2 ^ P.BITS) = blocks P p := by
    rcases Nat.lt_or_ge (blocks P p) (2 ^ P.BITS) with hlt | hge
    · rw [Nat.mod_eq_of_lt hlt, if_neg hpos.ne']
    · rw [le_antisymm h.blocks_le hge, Nat.mod_self, if_pos rfl]
  have hge : P.Nrange ≤ blocks P p * P.Nrange := Nat.le_mul_of_pos_left _ hpos
  rw [hindex, if_neg (by omega), hdone, Nat.sub_mul, Nat.one_mul]
  omega

end Steps

/-! ## Writing and reading -/

section Streams

variable {w n : ℕ}

theorem getNumbers_flatMap (l : List (BitVec w)) (rest : Bytes) :
    getNumbers w l.length (.of ((l.flatMap fun v => ch ' ' :: decimal v.toNat) ++ ch ' ' :: rest))
      = (l.map BitVec.toNat, .of (ch ' ' :: rest)) := by
  induction l with
  | nil => rfl
  | cons v l ih =>
    obtain ⟨T, hT⟩ : ∃ T, (l.flatMap fun v => ch ' ' :: decimal v.toNat) ++ ch ' ' :: rest = ch ' ' :: T := by
      cases l with
      | nil => exact ⟨_, rfl⟩
      | cons v' l => exact ⟨_, rfl⟩
    have hblank : IStream.isDigitByte (ch ' ') = false := by decide
    have hfirst : (IStream.of (decimal v.toNat ++ ch ' ' :: T)).getUnsigned w = (some v.toNat, .of (ch ' ' :: T)) :=
      IStream.getUnsigned_decimal v.isLt hblank
    rw [List.flatMap_cons, List.append_assoc, List.cons_append, hT, List.length_cons, getNumbers,
      IStream.getUnsigned_of_space, hfirst]
    dsimp only
    rw [← hT, ih]
    rfl

theorem getNumbers_putWords (a : Words w n) (rest : Bytes) :
    getNumbers w n (.of (putWords a ++ ch ' ' :: rest)) = (a.toList.map BitVec.toNat, .of (ch ' ' :: rest)) := by
  have h := getNumbers_flatMap a.toList rest
  rwa [Vector.length_toList] at h

theorem wordsOf_toNat (a : Words w n) : wordsOf w n (a.toList.map BitVec.toNat) = a := by
  apply Vector.ext
  intro i hi
  have hlen : i < (a.toList.map BitVec.toNat).length := by rwa [List.length_map, Vector.length_toList]
  rw [wordsOf, Vector.getElem_ofFn, List.getD_eq_getElem _ _ hlen, List.getElem_map, Vector.getElem_toList,
    BitVec.ofNat_toNat, BitVec.setWidth_eq]

/-- The domain and the range of the function are one type, and so `operator>>` is there. -/
structure Streams (P : CounterParams) : Prop where
  number : P.Ndomain = P.Nrange
  digits : P.W = P.R

variable {key : Words P.K P.Nkey} {iv : Words P.W P.Ndomain} {e : Engine P} {p : ℕ}

/-- The engine that is read from the text of another. -/
theorem getEngine_eq (hs : Streams P) (hiv : back iv &&& ctrMask P = 0) (h : At key iv p e) {rest : Bytes}
    (hrest : ∀ c ∈ rest.head?, IStream.isDigitByte c = false) (g : Engine P) :
    getEngine (.of (e.put ++ rest)) g
      = (⟨e.f, e.c, setFirst (P.prf e.f (setBack e.c (back e.c - incr P))) (first e.r)⟩,
        ⟨rest, rest.isEmpty, false⟩) := by
  obtain ⟨T, hT⟩ : ∃ T, putWords e.c ++ ch ' ' :: (decimal (first e.r).toNat ++ rest) = ch ' ' :: T := by
    obtain ⟨v, l, hl⟩ := List.exists_cons_of_length_pos (Vector.length_toList ▸ P.domain_pos : 0 < e.c.toList.length)
    rw [putWords, hl]
    exact ⟨_, rfl⟩
  have htext : e.put ++ rest = putWords e.f ++ ch ' ' :: T := by
    rw [← hT, put]
    simp only [List.append_assoc, List.cons_append]
  have hkey : getNumbers P.K P.Nkey (.of (e.put ++ rest)) = (e.f.toList.map BitVec.toNat, .of (ch ' ' :: T)) := by
    rw [htext, getNumbers_putWords]
  have hctr : getNumbers P.R P.Nrange (.of (ch ' ' :: T))
      = (e.c.toList.map BitVec.toNat, .of (ch ' ' :: (decimal (first e.r).toNat ++ rest))) := by
    have hsize : ∀ inp, getNumbers P.R P.Nrange inp = getNumbers P.W P.Ndomain inp := by
      intro inp
      rw [hs.digits, hs.number]
    rw [hsize, ← hT, getNumbers_putWords]
  have hindex := IStream.getUnsigned_append (first e.r).isLt hrest
  have hle := h.index_le
  have hfits : ¬ (P.Nrange + 1 < (first e.r).toNat
      ∨ (first e.r).toNat = P.Nrange + 1 ∧ back e.c &&& ctrMask P ≠ 0) := by
    rintro (hgt | ⟨hfresh, hdirty⟩)
    · omega
    · have hp := h.index
      split at hp
      · next hzero =>
        apply hdirty
        rw [h.c, hzero, blocks, counter_zero, hiv]
      · have hused := (used_bounds P p).2
        omega
  unfold getEngine
  simp only [hkey, hctr, IStream.getUnsigned_of_space, hindex, Option.getD_some, wordsOf_toNat]
  rw [if_neg hfits, BitVec.ofNat_toNat, BitVec.setWidth_eq]
  rfl

/-- What is read from the text is an equal engine at the same position. -/
theorem getEngine_put (hs : Streams P) (hiv : back iv &&& ctrMask P = 0) (h : At key iv p e) {rest : Bytes}
    (hrest : ∀ c ∈ rest.head?, IStream.isDigitByte c = false) (g : Engine P) :
    (getEngine (.of (e.put ++ rest)) g).2 = ⟨rest, rest.isEmpty, false⟩
      ∧ Same (getEngine (.of (e.put ++ rest)) g).1 e ∧ At key iv p (getEngine (.of (e.put ++ rest)) g).1 := by
  have hat : At key iv p ⟨e.f, e.c, setFirst (P.prf e.f (setBack e.c (back e.c - incr P))) (first e.r)⟩ := by
    by_cases hp : p = 0
    · refine ⟨h.le, h.f, h.c, ?_, fun j hj hused => ?_⟩
      · rw [first_setFirst]
        exact h.index
      · rw [hp, used] at hused
        omega
    · obtain ⟨b, hb⟩ := Nat.exists_eq_add_of_lt (blocks_pos P hp)
      have hblock : P.prf e.f (setBack e.c (back e.c - incr P)) = block key iv (blocks P p - 1) := by
        rw [h.f, h.c, hb, Nat.zero_add, counter_sub, Nat.add_sub_cancel]
        rfl
      have hindex := h.index
      rw [if_neg hp] at hindex
      have hat := at_block h.le hp hblock hindex
      exact ⟨h.le, h.f, h.c, hat.index, hat.rest⟩
  rw [getEngine_eq hs hiv h hrest g]
  exact ⟨rfl, hat.same h, hat⟩

end Streams

/-! ## Runs -/

variable (key : Words P.K P.Nkey) (iv : Words P.W P.Ndomain)

/-- The engines that are reached from `seed(key, iv)`. -/
inductive Reach : Engine P → Prop
  | seed {e e' : Engine P} : e.seed key iv = (e', .ok ()) → Reach e'
  | call {e : Engine P} : Reach e → Reach e.call.1
  | discard {e : Engine P} (n : ℕ) : Reach e → DiscardFits P e.consumed n → Reach (e.discard n).1
  | read {e : Engine P} (rest : Bytes) (g : Engine P) : Reach e → Streams P →
      (∀ c ∈ rest.head?, IStream.isDigitByte c = false) → Reach (getEngine (.of (e.put ++ rest)) g).1

/-- The engine stands for a position of the sequence. -/
structure Denotes (e : Engine P) (p : ℕ) : Prop where
  le : p ≤ length P
  call_ok : p < length P → e.call.2 = .ok (value key iv p) ∧ e.call.1.consumed = p + 1
  exhausted : p = length P → OutOfRange e.call.2 ∧ Same e.call.1 e
  discard_iff : ∀ n, DiscardsLike e n ↔ DiscardFits P p n
  navail_iff : e.navail = min (length P - p) ullmax ↔ NavailFits P p
  read_back : Streams P → ∀ rest, (∀ c ∈ rest.head?, IStream.isDigitByte c = false) → ∀ g,
    (getEngine (.of (e.put ++ rest)) g).2.fail = false ∧ Same (getEngine (.of (e.put ++ rest)) g).1 e
      ∧ (getEngine (.of (e.put ++ rest)) g).1.consumed = p

variable {key iv} {e : Engine P}

theorem at_seed {e' : Engine P} (h : e.seed key iv = (e', .ok ())) :
    back iv &&& ctrMask P = 0 ∧ At key iv 0 e' := by
  unfold seed reinit at h
  split at h
  · cases h
  · next hclean =>
    cases h
    refine ⟨not_not.mp hclean, Nat.zero_le _, rfl, counter_zero.symm, ?_, fun j hj hused => ?_⟩
    · rw [first_setFirst, toNat_index (by omega), if_pos rfl]
    · rw [used] at hused
      omega

theorem At.at_consumed {p : ℕ} (h : At key iv p e) (hiv : back iv &&& ctrMask P = 0) :
    At key iv e.consumed e := by
  rw [h.consumed_eq hiv]
  exact h

/-- Along a run whose discards fit, the engine is at a position of the sequence. -/
theorem reach_at (h : Reach key iv e) : back iv &&& ctrMask P = 0 ∧ At key iv e.consumed e := by
  induction h with
  | seed hseed =>
    obtain ⟨hiv, hat⟩ := at_seed hseed
    exact ⟨hiv, hat.at_consumed hiv⟩
  | @call e h ih =>
    obtain ⟨hiv, hat⟩ := ih
    refine ⟨hiv, ?_⟩
    rcases Nat.lt_or_ge e.consumed (length P) with hlt | hge
    · exact (call_ok hiv hat hlt).2.at_consumed hiv
    · have hend : e.consumed = length P := le_antisymm hat.le hge
      exact (call_throws hiv (hend ▸ hat)).2.at_consumed hiv
  | @discard e n h hfits ih =>
    obtain ⟨hiv, hat⟩ := ih
    obtain ⟨hok, hthrows, -⟩ := discard_spec hiv hat n
    refine ⟨hiv, ?_⟩
    rcases Nat.lt_or_ge (length P) (e.consumed + n) with hlt | hle
    · exact (hthrows hlt hfits).2.at_consumed hiv
    · exact (hok hle).2.at_consumed hiv
  | read rest g h hs hrest ih =>
    obtain ⟨hiv, hat⟩ := ih
    exact ⟨hiv, (getEngine_put hs hiv hat hrest g).2.2.at_consumed hiv⟩

/-- The engine stands for a position of one finite sequence. A call returns the value at the position, and at the end
throws; `discard` does what the calls do, and `navail` is the number of values left, exactly when their conditions hold;
the text of an engine gives an equal one. -/
theorem engine_denotes (h : Reach key iv e) : Denotes key iv e e.consumed := by
  obtain ⟨hiv, hat⟩ := reach_at h
  refine ⟨hat.le, fun hlt => ?_, fun hend => ?_, fun n => discardsLike_iff hiv hat n, navail_iff hiv hat,
    fun hs rest hrest g => ?_⟩
  · obtain ⟨hval, hat'⟩ := call_ok hiv hat hlt
    exact ⟨hval, hat'.consumed_eq hiv⟩
  · rw [hend] at hat
    obtain ⟨hout, hat'⟩ := call_throws hiv hat
    exact ⟨hout, hat'.same hat⟩
  · obtain ⟨hstream, hsame, hat'⟩ := getEngine_put hs hiv hat hrest g
    exact ⟨congrArg IStream.fail hstream, hsame, hat'.consumed_eq hiv⟩

/-- An engine with two counter bits, one value in a block, and the counter itself as the value. -/
def countingParams : CounterParams where
  W := 32
  R := 32
  K := 32
  BITS := 2
  Ndomain := 1
  Nrange := 1
  Nkey := 1
  prf _ c := c
  bits_le := by decide
  digits_le := by decide
  digits_gt := by decide
  domain_pos := by decide
  range_pos := by decide
  sentinel_lt := by decide
  index_lt := by decide

/-- The engine that counts from zero. -/
def counting : Engine countingParams := ⟨#v[0], #v[0], #v[2]⟩

theorem engine_denotes_counting : Denotes #v[0] #v[0] counting counting.consumed :=
  engine_denotes (Reach.seed (e := counting) rfl)

/-- All four values are used up, but two more are discarded without an exception, and the engine goes on. -/
theorem discard_wraps : (calls 4 counting).1.consumed = 4 ∧ OutOfRange (calls 2 (calls 4 counting).1).2
    ∧ ((calls 4 counting).1.discard 2).2 = .ok () ∧ ((calls 4 counting).1.discard 2).1.consumed = 2
    ∧ ¬ DiscardsLike (calls 4 counting).1 2 := by
  have hout : OutOfRange (calls 2 (calls 4 counting).1).2 := ⟨_, rfl⟩
  have hok : ((calls 4 counting).1.discard 2).2 = .ok () := rfl
  refine ⟨by decide, hout, hok, by decide, fun hlike => ?_⟩
  obtain ⟨what, hwhat⟩ := hlike.throws.mpr hout
  rw [hok] at hwhat
  cases hwhat

end Engine

end Fs123
