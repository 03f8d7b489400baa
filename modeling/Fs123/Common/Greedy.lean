import Mathlib.Algebra.Ring.Nat
import Mathlib.Data.List.Basic

/-!
# Lists cut greedily

A list whose elements take room is cut into chunks, each of which takes as many elements as fit
(`fitting`). `cuts` has the elements that a chunk ends with when more follows. A list can be paged through
(`Paged`) if every chunk but the last ends with an element from which one can go on; when every element
fits into an empty chunk, that asks for nothing but the cuts (`paged_iff`).
-/

namespace Greedy

variable {α : Type*} (size : α → ℕ) (room : ℕ)

/-- The elements that fit into `left`, and the others. -/
def fitting : ℕ → List α → List α × List α
  | _, [] => ([], [])
  | left, e :: es =>
    if size e ≤ left then (e :: (fitting (left - size e) es).1, (fitting (left - size e) es).2)
    else ([], e :: es)

/-- The cuts behind a chunk that ends with `last` so far. -/
def cutsFrom : ℕ → α → List α → List α
  | _, _, [] => []
  | left, last, e :: es =>
    if size e ≤ left then cutsFrom (left - size e) e es
    else last :: cutsFrom (room - size e) e es

/-- The last elements of the chunks, without that of the last chunk. -/
def cuts : List α → List α
  | [] => []
  | e :: es => cutsFrom size room (room - size e) e es

/-- Each chunk but the last ends with an element that is `ok`. -/
inductive Paged (ok : α → Prop) : List α → Prop
  | last (l : List α) : (fitting size room l).2 = [] → Paged ok l
  | more (l sent rest : List α) (e : α) : fitting size room l = (sent ++ [e], rest) → rest ≠ [] → ok e →
      Paged ok rest → Paged ok l

variable {size room} {left : ℕ} {l sent rest : List α} {e : α}

theorem fitting_append (size : α → ℕ) (left : ℕ) (l : List α) :
    (fitting size left l).1 ++ (fitting size left l).2 = l := by
  fun_induction fitting size left l with
  | case1 left => rfl
  | case2 left e es hle ih => rw [List.cons_append, ih]
  | case3 left e es hgt => rfl

/-- An element that fits is in the first chunk. -/
theorem fitting_cons (h : size e ≤ left) (es : List α) :
    fitting size left (e :: es) = (e :: (fitting size (left - size e) es).1,
      (fitting size (left - size e) es).2) := if_pos h

/-- When all of a list fits, what follows it gets the room that is left. -/
theorem fitting_append_right (h : (fitting size left l).2 = []) (more : List α) :
    fitting size left (l ++ more) = (l ++ (fitting size (left - (l.map size).sum) more).1,
      (fitting size (left - (l.map size).sum) more).2) := by
  induction l generalizing left with
  | nil => rfl
  | cons e es ih =>
    by_cases hfit : size e ≤ left
    · rw [fitting_cons hfit] at h
      rw [List.cons_append, fitting_cons hfit, ih h, List.map_cons, List.sum_cons, Nat.sub_add_eq]
      rfl
    · rw [fitting, if_neg hfit] at h
      cases h

theorem fitting_of_sum_le (h : (l.map size).sum ≤ left) : (fitting size left l).2 = [] := by
  induction l generalizing left with
  | nil => rfl
  | cons e es ih =>
    rw [List.map_cons, List.sum_cons] at h
    rw [fitting_cons (by omega)]
    exact ih (by omega)

/-- The cut behind a chunk, and those behind what is left. -/
theorem cutsFrom_eq (left : ℕ) (last : α) (l : List α) :
    cutsFrom size room left last l
      = if (fitting size left l).2 = [] then []
        else ((fitting size left l).1.getLast?.getD last) :: cuts size room (fitting size left l).2 := by
  induction l generalizing left last with
  | nil => rfl
  | cons e es ih =>
    by_cases h : size e ≤ left
    · rw [cutsFrom, if_pos h, ih, fitting_cons h]
      dsimp only
      split
      · rfl
      · rw [List.getLast?_cons, Option.getD_some]
    · rw [cutsFrom, if_neg h, fitting, if_neg h]
      rw [if_neg (List.cons_ne_nil _ _)]
      rfl

theorem cuts_eq (hfit : ∀ e ∈ l, size e ≤ room) (h : fitting size room l = (sent ++ [e], rest)) :
    cuts size room l = if rest = [] then [] else e :: cuts size room rest := by
  cases l with
  | nil => simp [fitting] at h
  | cons a es =>
    have ha := hfit a List.mem_cons_self
    rw [cuts, cutsFrom_eq]
    rw [fitting_cons ha, Prod.mk.injEq] at h
    obtain ⟨hsent, hrest⟩ := h
    have hlast : (fitting size (room - size a) es).1.getLast?.getD a = e := by
      have := congrArg List.getLast? hsent
      rwa [List.getLast?_cons, List.getLast?_concat, Option.some.injEq] at this
    rw [hrest, hlast]

/-- When every element fits into an empty chunk, no chunk is empty but that of the empty list. -/
theorem fitting_concat (hfit : ∀ e ∈ l, size e ≤ room) (hne : l ≠ []) :
    ∃ sent e rest, fitting size room l = (sent ++ [e], rest) ∧ l = sent ++ e :: rest := by
  obtain ⟨a, es, rfl⟩ := List.exists_cons_of_ne_nil hne
  have happ := fitting_append size room (a :: es)
  rw [fitting_cons (hfit a List.mem_cons_self)] at happ ⊢
  obtain ⟨sent, e, hlast⟩ := (List.eq_nil_or_concat' (a :: (fitting size (room - size a) es).1)).resolve_left
    (List.cons_ne_nil _ _)
  rw [hlast] at happ ⊢
  refine ⟨sent, e, _, rfl, ?_⟩
  rw [← happ, List.append_assoc]
  rfl

/-- A list can be paged through exactly if its cuts allow it. -/
theorem paged_iff {ok : α → Prop} (hfit : ∀ e ∈ l, size e ≤ room) :
    Paged size room ok l ↔ ∀ e ∈ cuts size room l, ok e := by
  constructor
  · intro h
    induction h with
    | last l hnil =>
      by_cases hne : l = []
      · simp [hne, cuts]
      · obtain ⟨sent, e, rest, hl, -⟩ := fitting_concat hfit hne
        rw [hl] at hnil
        rw [cuts_eq hfit hl, if_pos hnil]
        simp
    | more l sent rest e hl hne hok _ ih =>
      have hmem : ∀ x ∈ rest, x ∈ l := by
        intro x hx
        rw [← fitting_append size room l, hl]
        exact List.mem_append_right _ hx
      rw [cuts_eq hfit hl, if_neg hne, List.forall_mem_cons]
      exact ⟨hok, ih fun x hx => hfit x (hmem x hx)⟩
  · intro h
    induction hlen : l.length using Nat.strongRecOn generalizing l with
    | _ n ih =>
      by_cases hne : l = []
      · subst hne
        exact .last [] rfl
      · obtain ⟨sent, e, rest, hl, happ⟩ := fitting_concat hfit hne
        by_cases hnil : rest = []
        · exact .last l (by rw [hl, hnil])
        · rw [cuts_eq hfit hl, if_neg hnil, List.forall_mem_cons] at h
          have hlt : rest.length < n := by
            rw [← hlen, happ, List.length_append, List.length_cons]
            omega
          refine .more l sent rest e hl hnil h.1 (ih _ hlt ?_ h.2 rfl)
          intro x hx
          refine hfit x ?_
          rw [happ]
          exact List.mem_append_right _ (List.mem_cons_of_mem _ hx)

end Greedy
