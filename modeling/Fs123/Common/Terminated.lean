import Mathlib.Data.List.Basic

/-!
# Lists of terminated words

Words that do not have the terminator `z` in them are written one after the other, each with the terminator behind it.
A list that ends with the terminator is written so in one way (`exists_join`, `join_inj`).
-/

namespace Terminated

variable {α : Type*} {z : α}

/-- The words, each with the terminator behind it. -/
def join (z : α) : List (List α) → List α
  | [] => []
  | w :: ws => w ++ z :: join z ws

/-- No word has the terminator in it. -/
def Clean (z : α) (ws : List (List α)) : Prop := ∀ w ∈ ws, z ∉ w

variable {w w' : List α} {ws ws' : List (List α)}

theorem clean_cons : Clean z (w :: ws) ↔ z ∉ w ∧ Clean z ws := List.forall_mem_cons

theorem join_append (ws ws' : List (List α)) : join z (ws ++ ws') = join z ws ++ join z ws' := by
  induction ws with
  | nil => rfl
  | cons w ws ih => rw [List.cons_append, join, join, ih, List.append_assoc, List.cons_append]

theorem join_ne_nil (w : List α) (ws : List (List α)) : join z (w :: ws) ≠ [] :=
  List.append_ne_nil_of_right_ne_nil _ (List.cons_ne_nil _ _)

theorem getLast?_join (hne : ws ≠ []) : (join z ws).getLast? = some z := by
  induction ws with
  | nil => exact absurd rfl hne
  | cons w ws ih =>
    rw [join, List.getLast?_append, List.getLast?_cons]
    cases ws with
    | nil => rfl
    | cons w' ws =>
      rw [ih (List.cons_ne_nil _ _)]
      rfl

/-- What stands in front of the first terminator, and what stands behind it. -/
theorem append_cons_inj {l l' : List α} (hw : z ∉ w) (hw' : z ∉ w') (h : w ++ z :: l = w' ++ z :: l') :
    w = w' ∧ l = l' := by
  induction w generalizing w' with
  | nil =>
    cases w' with
    | nil => exact ⟨rfl, (List.cons.inj h).2⟩
    | cons c w' =>
      have hc := (List.cons.inj h).1
      exact absurd (hc ▸ List.mem_cons_self) hw'
  | cons c w ih =>
    cases w' with
    | nil =>
      have hc := (List.cons.inj h).1
      exact absurd (hc ▸ List.mem_cons_self) hw
    | cons c' w' =>
      obtain ⟨rfl, htail⟩ := List.cons.inj h
      obtain ⟨rfl, rfl⟩ := ih (List.not_mem_of_not_mem_cons hw) (List.not_mem_of_not_mem_cons hw') htail
      exact ⟨rfl, rfl⟩

theorem join_inj (hws : Clean z ws) (hws' : Clean z ws') (h : join z ws = join z ws') : ws = ws' := by
  induction ws generalizing ws' with
  | nil =>
    cases ws' with
    | nil => rfl
    | cons w' ws' => exact absurd h.symm (join_ne_nil w' ws')
  | cons w ws ih =>
    cases ws' with
    | nil => exact absurd h (join_ne_nil w ws)
    | cons w' ws' =>
      obtain ⟨hw, hclean⟩ := clean_cons.mp hws
      obtain ⟨hw', hclean'⟩ := clean_cons.mp hws'
      obtain ⟨rfl, htail⟩ := append_cons_inj hw hw' h
      rw [ih hclean hclean' htail]

/-- The induction is on the list; its first element is put in front of the first word, or is an empty word. -/
theorem exists_join {l : List α} (hlast : ∀ c ∈ l.getLast?, c = z) : ∃ ws, Clean z ws ∧ l = join z ws := by
  induction l with
  | nil => exact ⟨[], by simp [Clean], rfl⟩
  | cons c l ih =>
    cases l with
    | nil =>
      obtain rfl := hlast c rfl
      exact ⟨[[]], by simp [Clean], rfl⟩
    | cons d l =>
      obtain ⟨ws, hclean, hl⟩ := ih fun c hc => hlast c (by rwa [List.getLast?_cons_cons])
      by_cases hc : c = z
      · subst hc
        exact ⟨[] :: ws, clean_cons.mpr ⟨List.not_mem_nil, hclean⟩, by rw [hl]; rfl⟩
      · cases ws with
        | nil => cases hl
        | cons w ws =>
          obtain ⟨hw, hws⟩ := clean_cons.mp hclean
          refine ⟨(c :: w) :: ws, clean_cons.mpr ⟨?_, hws⟩, by rw [hl]; rfl⟩
          exact List.not_mem_cons_of_ne_of_not_mem (Ne.symm hc) hw

end Terminated
