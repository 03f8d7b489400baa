import Mathlib.Data.List.Basic
import Mathlib.Tactic.Ring

/-!
# Mixing a text block by block

A state is folded over blocks of `b` elements that are cut from the front of a list. `Absorbed` says what a
state and the elements that are kept back have to do with the list so far, when only full blocks are mixed in.
It is kept by filling up a block (`Absorbed.fill`), by mixing blocks straight from the input
(`Absorbed.append_blocks`) and by keeping back less than a block (`Absorbed.keep`), so it does not matter how
the list was cut into pieces.
-/

namespace Blocks

variable {α σ : Type} (b : ℕ) (f : List α → σ → σ)

/-- Mix `n` blocks. -/
def fold : ℕ → List α → σ → σ
  | 0, _, s => s
  | n + 1, l, s => fold n (l.drop b) (f (l.take b) s)

/-- Mix all full blocks. -/
def full (l : List α) (s : σ) : σ := fold b f (l.length / b) l s

/-- What is left behind the full blocks. -/
def rest (l : List α) : List α := l.drop (l.length / b * b)

/-- The state `s` has all full blocks of `l`, and `kept` is the rest. -/
structure Absorbed (s₀ s : σ) (kept l : List α) : Prop where
  state : s = full b f l s₀
  kept : kept = rest b l

variable {b f} {l l' kept : List α} {s s₀ : σ}

theorem fold_add (m n : ℕ) (l : List α) (s : σ) :
    fold b f (m + n) l s = fold b f n (l.drop (m * b)) (fold b f m l s) := by
  induction m generalizing l s with
  | zero => simp [fold]
  | succ m ih =>
    rw [Nat.succ_add, fold, fold, ih, List.drop_drop]
    congr 2
    ring

/-- Only the blocks that are mixed matter. -/
theorem fold_append {n : ℕ} (h : n * b ≤ l.length) : fold b f n (l ++ l') s = fold b f n l s := by
  induction n generalizing l s with
  | zero => rfl
  | succ n ih =>
    have hb : b ≤ l.length := le_trans (Nat.le_mul_of_pos_left b (Nat.succ_pos n)) h
    have hn : n * b ≤ (l.drop b).length := by
      rw [List.length_drop]
      rw [Nat.succ_mul] at h
      omega
    rw [fold, fold, List.drop_append_of_le_length hb, List.take_append_of_le_length hb, ih hn]

theorem rest_length (l : List α) : (rest b l).length = l.length % b := by
  rw [rest, List.length_drop, Nat.mul_comm]
  have := Nat.div_add_mod l.length b
  omega

theorem Absorbed.nil : Absorbed b f s s [] [] :=
  ⟨by simp [full, fold], by simp [rest]⟩

theorem Absorbed.kept_length (h : Absorbed b f s₀ s kept l) : kept.length = l.length % b := by
  rw [h.kept, rest_length]

theorem Absorbed.kept_lt (hb : 0 < b) (h : Absorbed b f s₀ s kept l) : kept.length < b := by
  rw [h.kept_length]
  exact Nat.mod_lt _ hb

/-- The full blocks of a longer list: those of the list, then those of what was left and what has been added. -/
theorem full_append (hb : 0 < b) (l l' : List α) (s : σ) :
    full b f (l ++ l') s = full b f (rest b l ++ l') (full b f l s)
      ∧ rest b (l ++ l') = rest b (rest b l ++ l') := by
  have hsplit := Nat.div_add_mod l.length b
  rw [Nat.mul_comm] at hsplit
  have hblocks : (l ++ l').length / b = l.length / b + (rest b l ++ l').length / b := by
    rw [List.length_append, List.length_append, rest_length, ← Nat.mul_add_div hb]
    congr 1
    rw [Nat.mul_comm]
    omega
  have hle : l.length / b * b ≤ l.length := by omega
  have hdrop : (l ++ l').drop (l.length / b * b) = rest b l ++ l' :=
    List.drop_append_of_le_length hle
  have hfold : fold b f (l.length / b) (l ++ l') s = full b f l s := fold_append hle
  constructor
  · rw [full, hblocks, fold_add, hdrop, hfold]
    rfl
  · rw [rest, hblocks, Nat.add_mul, ← List.drop_drop, hdrop]
    rfl

/-- The first blocks can be mixed before the others. -/
theorem full_drop (hb : 0 < b) {n : ℕ} (h : n * b ≤ l.length) (s : σ) :
    full b f l s = full b f (l.drop (n * b)) (fold b f n l s) ∧ rest b l = rest b (l.drop (n * b)) := by
  have hblocks : l.length / b = n + (l.drop (n * b)).length / b := by
    rw [List.length_drop, ← Nat.mul_add_div hb, Nat.mul_comm b n, Nat.add_sub_cancel' h]
  constructor
  · rw [full, hblocks, fold_add]
    rfl
  · rw [rest, hblocks, Nat.add_mul, ← List.drop_drop]
    rfl

theorem full_of_lt (h : l.length < b) (s : σ) : full b f l s = s ∧ rest b l = l := by
  have hzero : l.length / b = 0 := Nat.div_eq_of_lt h
  rw [full, rest, hzero]
  simp [fold]

theorem full_block (h : l.length = b) (hb : 0 < b) (s : σ) : full b f l s = f l s ∧ rest b l = [] := by
  have hone : l.length / b = 1 := by rw [h, Nat.div_self hb]
  rw [full, rest, hone]
  simp [fold, ← h]

/-- Less than a block is kept back. -/
theorem Absorbed.keep (hb : 0 < b) (h : Absorbed b f s₀ s kept l) (hlt : (kept ++ l').length < b) :
    Absorbed b f s₀ s (kept ++ l') (l ++ l') := by
  obtain ⟨hstate, hrest⟩ := full_append (f := f) hb l l' s₀
  rw [← h.kept, ← h.state] at hstate
  rw [← h.kept] at hrest
  obtain ⟨hfull, hall⟩ := full_of_lt (f := f) hlt s
  exact ⟨by rw [hstate, hfull], by rw [hrest, hall]⟩

/-- A block that is filled up is mixed in. -/
theorem Absorbed.fill (hb : 0 < b) (h : Absorbed b f s₀ s kept l) (hlen : (kept ++ l').length = b) :
    Absorbed b f s₀ (f (kept ++ l') s) [] (l ++ l') := by
  obtain ⟨hstate, hrest⟩ := full_append (f := f) hb l l' s₀
  rw [← h.kept, ← h.state] at hstate
  rw [← h.kept] at hrest
  obtain ⟨hfull, hall⟩ := full_block (f := f) hlen hb s
  exact ⟨by rw [hstate, hfull], by rw [hrest, hall]⟩

/-- With nothing kept back, blocks are mixed in from the input. -/
theorem Absorbed.append_blocks (hb : 0 < b) (h : Absorbed b f s₀ s [] l) :
    Absorbed b f s₀ (full b f l' s) (rest b l') (l ++ l') := by
  obtain ⟨hstate, hrest⟩ := full_append (f := f) hb l l' s₀
  rw [← h.kept, ← h.state] at hstate
  rw [← h.kept] at hrest
  exact ⟨by rw [hstate]; rfl, by rw [hrest]; rfl⟩

end Blocks
