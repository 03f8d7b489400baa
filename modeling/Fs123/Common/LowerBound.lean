import Mathlib.Data.List.TakeWhile

/-!
# Binary search for a lower bound

`lowerBound less l` halves a range of `l` until it is empty. Where the elements that are `less` stand in front of the
others, it finds their number (`lowerBound_append`), and the others are what is left behind it
(`mem_drop_lowerBound`). On other lists it may find any place.
-/

namespace LowerBound

variable {α : Type*} (less : α → Bool)

/-- The range begins at `first` and has `len` elements. -/
def loop (l : List α) : ℕ → ℕ → ℕ → ℕ
  | 0, first, _ => first
  | fuel + 1, first, len =>
    if len = 0 then first
    else
      match l[first + len / 2]? with
      | none => first
      | some x =>
        if less x then loop l fuel (first + len / 2 + 1) (len - len / 2 - 1) else loop l fuel first (len / 2)

/-- `std::lower_bound` over the whole list. -/
def lowerBound (l : List α) : ℕ := loop less l l.length 0 l.length

variable {less} {l m : List α}

/-- The place looked for stays in the range. -/
theorem loop_append (hl : ∀ x ∈ l, less x = true) (hm : ∀ x ∈ m, less x = false) {fuel first len : ℕ}
    (hfuel : len ≤ fuel) (hlo : first ≤ l.length) (hhi : l.length ≤ first + len)
    (hlen : first + len ≤ (l ++ m).length) : loop less (l ++ m) fuel first len = l.length := by
  induction fuel generalizing first len with
  | zero =>
    rw [loop]
    omega
  | succ fuel ih =>
    rw [loop]
    split
    · omega
    · next hne =>
      have hlt : first + len / 2 < (l ++ m).length := by omega
      rw [List.getElem?_eq_getElem hlt]
      rcases Nat.lt_or_ge (first + len / 2) l.length with hleft | hright
      · have hless : less (l ++ m)[first + len / 2] = true := by
          rw [List.getElem_append_left hleft]
          exact hl _ (List.getElem_mem _)
        dsimp only
        rw [if_pos hless]
        exact ih (by omega) (by omega) (by omega) (by omega)
      · have hmore : less (l ++ m)[first + len / 2] = false := by
          rw [List.getElem_append_right hright]
          exact hm _ (List.getElem_mem _)
        dsimp only
        rw [hmore, if_neg Bool.false_ne_true]
        exact ih (by omega) hlo (by omega) (by omega)

theorem lowerBound_append (hl : ∀ x ∈ l, less x = true) (hm : ∀ x ∈ m, less x = false) :
    lowerBound less (l ++ m) = l.length :=
  loop_append hl hm (le_refl _) (Nat.zero_le _) (by rw [List.length_append]; omega) (by omega)

section Sorted

variable {r : α → α → Prop} (hr : ∀ x y, r x y → less y = true → less x = true) (hsorted : l.Pairwise r)

include hr hsorted

/-- Behind one that is not `less` no element is. -/
theorem not_less_of_mem_dropWhile {x : α} (hx : x ∈ l.dropWhile less) : less x = false := by
  cases hdrop : l.dropWhile less with
  | nil =>
    rw [hdrop] at hx
    exact absurd hx List.not_mem_nil
  | cons y ys =>
    have hfirst : ¬ less y = true := by
      have h := List.head?_dropWhile_not less l
      rw [hdrop] at h
      simpa using h
    have hpair : (y :: ys).Pairwise r := hdrop ▸ hsorted.sublist (List.dropWhile_sublist less)
    rw [hdrop] at hx
    rcases List.mem_cons.mp hx with rfl | hx
    · exact Bool.eq_false_iff.mpr hfirst
    · exact Bool.eq_false_iff.mpr fun hless => hfirst (hr y x (List.rel_of_pairwise_cons hpair hx) hless)

theorem drop_lowerBound : l.drop (lowerBound less l) = l.dropWhile less := by
  have hsplit := List.takeWhile_append_dropWhile (p := less) (l := l)
  have hless : ∀ x ∈ l.takeWhile less, less x = true := fun x hx => List.mem_takeWhile_imp hx
  have hbound := lowerBound_append hless fun x hx => not_less_of_mem_dropWhile hr hsorted hx
  rw [hsplit] at hbound
  calc l.drop (lowerBound less l) = (l.takeWhile less ++ l.dropWhile less).drop (l.takeWhile less).length := by
        rw [hbound, hsplit]
    _ = l.dropWhile less := List.drop_left

/-- What is behind the bound is what is not `less`. -/
theorem mem_drop_lowerBound {x : α} : x ∈ l.drop (lowerBound less l) ↔ x ∈ l ∧ less x = false := by
  rw [drop_lowerBound hr hsorted]
  constructor
  · intro hx
    exact ⟨(List.dropWhile_sublist less).subset hx, not_less_of_mem_dropWhile hr hsorted hx⟩
  · rintro ⟨hx, hmore⟩
    rw [← List.takeWhile_append_dropWhile (p := less) (l := l), List.mem_append] at hx
    refine hx.resolve_left fun htake => ?_
    rw [List.mem_takeWhile_imp htake] at hmore
    cases hmore

end Sorted

end LowerBound
