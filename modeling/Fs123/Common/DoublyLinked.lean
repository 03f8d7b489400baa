import Mathlib.Data.List.Chain
import Mathlib.Data.List.Nodup
import Mathlib.Logic.Function.Basic

/-!
# Doubly linked lists threaded through other objects

Each object has a link to the next one and a link back, either of which may be undefined. `Linked next prev l`
says that the two directions run through `l` and are inverse to each other there; nothing is said about the
back link of the first object and the link of the last. `Threaded` adds the pointers to both ends. The list
changes in three ways: an object is put in front, the last one is dropped, or one in the middle is unlinked.
-/

namespace DoublyLinked

variable {α : Type*} {next prev next' prev' : α → Option α} {l as bs : List α} {a b p q first last : α}

/-- The links run through the list in both directions. -/
def Linked (next prev : α → Option α) (l : List α) : Prop :=
  l.IsChain fun a b => next a = some b ∧ prev b = some a

theorem linked_split : Linked next prev (as ++ a :: b :: bs) ↔
    Linked next prev (as ++ [a]) ∧ (next a = some b ∧ prev b = some a) ∧ Linked next prev (b :: bs) :=
  List.isChain_append_cons_cons

/-- Only the links inside the list matter. -/
theorem Linked.congr (h : Linked next prev l) (hnext : ∀ a ∈ l.dropLast, next' a = next a)
    (hprev : ∀ a ∈ l.tail, prev' a = prev a) : Linked next' prev' l := by
  induction l with
  | nil => exact List.isChain_nil
  | cons a l ih =>
    rcases l with _ | ⟨b, l⟩
    · exact List.isChain_singleton a
    rw [List.dropLast_cons_cons, List.forall_mem_cons] at hnext
    rw [List.tail_cons, List.forall_mem_cons] at hprev
    obtain ⟨hab, htail⟩ := List.isChain_cons_cons.mp h
    refine List.isChain_cons_cons.mpr ⟨?_, ih htail hnext.2 hprev.2⟩
    rw [hnext.1, hprev.1]
    exact hab

/-- The links run through the list, from `first` to `last`, and no object is on it twice. -/
structure Threaded (next prev : α → Option α) (first last : α) (l : List α) : Prop where
  linked : Linked next prev l
  nodup : l.Nodup
  head_eq : ∀ a, l.head? = some a → first = a
  last_eq : ∀ a, l.getLast? = some a → last = a

theorem Threaded.single (next prev : α → Option α) (p : α) : Threaded next prev p p [p] where
  linked := List.isChain_singleton p
  nodup := List.nodup_singleton p
  head_eq _ h := Option.some.inj h
  last_eq _ h := Option.some.inj h

/-- Drop the last object. -/
theorem Threaded.dropLast (h : Threaded next prev first last (as ++ [q, p])) :
    last = p ∧ prev p = some q ∧ Threaded next prev first q (as ++ [q]) := by
  obtain ⟨hleft, hqp, -⟩ := linked_split.mp h.linked
  refine ⟨h.last_eq p (by simp), hqp.2, hleft, ?_, ?_, ?_⟩
  · refine h.nodup.sublist (List.Sublist.append_left ?_ as)
    exact List.sublist_append_left [q] [p]
  · intro a ha
    refine h.head_eq a ?_
    cases as <;> simpa using ha
  · intro a ha
    simpa using ha

variable [DecidableEq α]

/-- Relink around an object in the middle. -/
theorem Linked.unlink (h : Linked next prev (as ++ q :: p :: b :: bs))
    (hnodup : (as ++ q :: p :: b :: bs).Nodup) :
    Linked (Function.update next q (some b)) (Function.update prev b (some q)) (as ++ q :: b :: bs) := by
  obtain ⟨hleft, -, hright⟩ := linked_split.mp h
  have hright := (List.isChain_cons_cons.mp hright).2
  rw [List.nodup_append] at hnodup
  obtain ⟨-, hnodup, hdisj⟩ := hnodup
  simp only [List.nodup_cons, List.mem_cons, not_or] at hnodup
  obtain ⟨⟨-, hqb, hqbs⟩, -, hb, -⟩ := hnodup
  have hqas : ∀ a ∈ as, a ≠ q := fun a ha => hdisj a ha q (by simp)
  have hbas : ∀ a ∈ as, a ≠ b := fun a ha => hdisj a ha b (by simp)
  refine linked_split.mpr ⟨hleft.congr ?_ ?_, ⟨Function.update_self .., Function.update_self ..⟩,
    Linked.congr hright ?_ ?_⟩
  · intro a ha
    rw [List.dropLast_concat] at ha
    exact Function.update_of_ne (hqas a ha) _ _
  · intro a ha
    refine Function.update_of_ne ?_ _ _
    rcases List.mem_append.mp (List.mem_of_mem_tail ha) with ha | ha
    · exact hbas a ha
    · rw [List.mem_singleton.mp ha]
      exact hqb
  · intro a ha
    refine Function.update_of_ne ?_ _ _
    rcases List.mem_cons.mp ((List.dropLast_sublist _).subset ha) with rfl | ha
    · exact Ne.symm hqb
    · rintro rfl
      exact hqbs ha
  · intro a ha
    refine Function.update_of_ne ?_ _ _
    rintro rfl
    exact hb ha

/-- Put a new object in front. -/
theorem Threaded.push (h : Threaded next prev first last l) (hne : l ≠ []) (hp : p ∉ l) :
    Threaded (Function.update next p (some first)) (Function.update prev first (some p)) p last (p :: l) := by
  obtain ⟨a, l, rfl⟩ := List.exists_cons_of_ne_nil hne
  obtain rfl := h.head_eq a rfl
  have ha : first ∉ l := (List.nodup_cons.mp h.nodup).1
  refine ⟨?_, List.nodup_cons.mpr ⟨hp, h.nodup⟩, fun a ha => Option.some.inj ha, ?_⟩
  · refine List.isChain_cons_cons.mpr ⟨⟨Function.update_self .., Function.update_self ..⟩,
      h.linked.congr ?_ ?_⟩
    · intro b hb
      refine Function.update_of_ne ?_ _ _
      rintro rfl
      exact hp ((List.dropLast_sublist _).subset hb)
    · intro b hb
      refine Function.update_of_ne ?_ _ _
      rintro rfl
      exact ha hb
  · intro b hb
    rw [List.getLast?_cons_cons] at hb
    exact h.last_eq b hb

/-- Relink around an object in the middle. -/
theorem Threaded.unlink (h : Threaded next prev first last (as ++ q :: p :: b :: bs)) :
    next p = some b ∧ prev p = some q ∧
      Threaded (Function.update next q (some b)) (Function.update prev b (some q)) first last
        (as ++ q :: b :: bs) := by
  obtain ⟨-, hqp, hright⟩ := linked_split.mp h.linked
  refine ⟨(List.isChain_cons_cons.mp hright).1.1, hqp.2, h.linked.unlink h.nodup, ?_, ?_, ?_⟩
  · refine h.nodup.sublist (List.Sublist.append_left ?_ as)
    exact (List.sublist_cons_self p (b :: bs)).cons_cons q
  · intro a ha
    refine h.head_eq a ?_
    cases as <;> simpa using ha
  · intro a ha
    refine h.last_eq a ?_
    simpa using ha

end DoublyLinked
