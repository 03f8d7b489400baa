import Mathlib.Data.List.Induction
import Mathlib.Data.Option.Basic

/-!
# Runs of a labelled transition system

`run step s ls` takes the steps `ls` from `s`; `none` says that one of them was not possible. A property
of the state alone holds along a run by `run_invariant`. A property that also speaks of the labels taken so
far is proved by `run_history`, an induction that adds labels at the end.
-/

namespace Transition

variable {σ α : Type*} {step : σ → α → Option σ}

/-- Take the steps `ls` one after the other. -/
def run (step : σ → α → Option σ) : σ → List α → Option σ
  | s, [] => some s
  | s, l :: ls => (step s l).bind fun s' => run step s' ls

@[simp] theorem run_nil (s : σ) : run step s [] = some s := rfl

theorem run_cons_eq_some {s s' : σ} {l : α} {ls : List α} :
    run step s (l :: ls) = some s' ↔ ∃ t, step s l = some t ∧ run step t ls = some s' := by
  simp only [run, Option.bind_eq_some_iff]

theorem run_append (s : σ) (ls ls' : List α) :
    run step s (ls ++ ls') = (run step s ls).bind fun t => run step t ls' := by
  induction ls generalizing s with
  | nil => rfl
  | cons l ls ih =>
    simp only [List.cons_append, run, Option.bind_assoc]
    congr 1
    funext t
    exact ih t

theorem run_append_eq_some {s s' : σ} {ls ls' : List α} :
    run step s (ls ++ ls') = some s' ↔ ∃ t, run step s ls = some t ∧ run step t ls' = some s' := by
  rw [run_append, Option.bind_eq_some_iff]

/-- The last step of a run. -/
theorem run_concat_eq_some {s s' : σ} {ls : List α} {l : α} :
    run step s (ls ++ [l]) = some s' ↔ ∃ t, run step s ls = some t ∧ step t l = some s' := by
  simp only [run_append_eq_some, run_cons_eq_some, run_nil, Option.some.injEq, exists_eq_right]

/-- Induction on a run from its end: `P` speaks of the labels taken and of the state they led to. -/
theorem run_history {P : List α → σ → Prop} {s₀ : σ} (hinit : P [] s₀)
    (hstep : ∀ ls s l s', run step s₀ ls = some s → P ls s → step s l = some s' → P (ls ++ [l]) s')
    {ls : List α} {s : σ} (h : run step s₀ ls = some s) : P ls s := by
  induction ls using List.reverseRecOn generalizing s with
  | nil =>
    obtain rfl : s₀ = s := by simpa using h
    exact hinit
  | append_singleton ls l ih =>
    obtain ⟨t, ht, hl⟩ := run_concat_eq_some.mp h
    exact hstep ls t l s ht (ih ht) hl

/-- A property that every step preserves holds at the end of every run. -/
theorem run_invariant {P : σ → Prop} {s₀ : σ} (hinit : P s₀)
    (hstep : ∀ s l s', P s → step s l = some s' → P s') {ls : List α} {s : σ}
    (h : run step s₀ ls = some s) : P s := by
  apply run_history (P := fun _ => P) hinit _ h
  intro _ s l s' _ hs hl
  exact hstep s l s' hs hl

/-- The same for the runs whose steps all satisfy `Q`. -/
theorem run_invariant_of {P : σ → Prop} {Q : α → Prop} {s₀ : σ} (hinit : P s₀)
    (hstep : ∀ s l s', P s → Q l → step s l = some s' → P s') {ls : List α} (hls : ∀ l ∈ ls, Q l)
    {s : σ} (h : run step s₀ ls = some s) : P s := by
  have hrun : (∀ l ∈ ls, Q l) → P s := by
    apply run_history (P := fun ls s => (∀ l ∈ ls, Q l) → P s) _ _ h
    · exact fun _ => hinit
    · intro ls s l s' _ ih hl hQ
      rw [List.forall_mem_append, List.forall_mem_singleton] at hQ
      exact hstep s l s' (ih hQ.1) hQ.2 hl
  exact hrun hls

/-- Every state of the run from `s` along `ls`, with the labels up to it, satisfies `P`. -/
def Along (step : σ → α → Option σ) (P : List α → σ → Prop) (s : σ) (ls : List α) : Prop :=
  ∀ ls₁ ls₂ t, ls = ls₁ ++ ls₂ → run step s ls₁ = some t → P ls₁ t

theorem along_nil {P : List α → σ → Prop} {s : σ} (h : P [] s) : Along step P s [] := by
  intro ls₁ ls₂ t hls ht
  obtain ⟨rfl, -⟩ := List.append_eq_nil_iff.mp hls.symm
  obtain rfl : s = t := Option.some.inj ht
  exact h

theorem along_cons {P : List α → σ → Prop} {s t : σ} {l : α} {ls : List α} (hstep : step s l = some t)
    (h : P [] s) (htail : Along step (fun ls => P (l :: ls)) t ls) : Along step P s (l :: ls) := by
  intro ls₁ ls₂ t' hls ht'
  cases ls₁ with
  | nil =>
    obtain rfl : s = t' := Option.some.inj ht'
    exact h
  | cons k ls₁ =>
    obtain ⟨rfl, htl⟩ := List.cons.inj hls
    obtain ⟨u, hu, ht'⟩ := run_cons_eq_some.mp ht'
    obtain rfl : t = u := Option.some.inj (hstep.symm.trans hu)
    exact htail ls₁ ls₂ t' htl ht'

/-- Induction along a run: each state of it is the last one of a shorter run. -/
theorem along_history {P : List α → σ → Prop} {s : σ} {ls : List α} (hinit : P [] s)
    (hstep : ∀ ls₁ l ls₂ t t', ls = ls₁ ++ l :: ls₂ → run step s ls₁ = some t → P ls₁ t →
      step t l = some t' → P (ls₁ ++ [l]) t') : Along step P s ls := by
  intro ls₁ ls₂ t hls ht
  have hprefix : ∀ ls₂, ls = ls₁ ++ ls₂ → P ls₁ t := by
    apply run_history (P := fun ls₁ t => ∀ ls₂, ls = ls₁ ++ ls₂ → P ls₁ t) _ _ ht
    · exact fun _ _ => hinit
    · intro ls₁ t l t' hrun ih hl ls₂ hls
      have hsplit : ls = ls₁ ++ l :: ls₂ := by rw [hls, List.append_assoc, List.singleton_append]
      exact hstep ls₁ l ls₂ t t' hsplit hrun (ih _ hsplit) hl
  exact hprefix ls₂ hls

/-- The state after one more step of a run is on the run too. -/
theorem Along.next {P : List α → σ → Prop} {s t t' : σ} {ls ls₁ ls₂ : List α} {l : α}
    (h : Along step P s ls) (hls : ls = ls₁ ++ l :: ls₂) (ht : run step s ls₁ = some t)
    (hl : step t l = some t') : P (ls₁ ++ [l]) t' :=
  h (ls₁ ++ [l]) ls₂ t' (by rw [hls, List.append_assoc, List.singleton_append])
    (run_concat_eq_some.mpr ⟨t, ht, hl⟩)

theorem Along.last {P : List α → σ → Prop} {s t : σ} {ls : List α} (h : Along step P s ls)
    (ht : run step s ls = some t) : P ls t :=
  h ls [] t (List.append_nil ls).symm ht

theorem Along.append {P : List α → σ → Prop} {s : σ} {ls ls' : List α}
    (h : Along step P s (ls ++ ls')) : Along step P s ls := by
  intro ls₁ ls₂ t hls ht
  exact h ls₁ (ls₂ ++ ls') t (by rw [hls, List.append_assoc]) ht

/-- Every step of the run from `s` along `ls` satisfies `Q` in the state that it is taken in. -/
def EachStep (step : σ → α → Option σ) (Q : σ → α → Prop) (s : σ) (ls : List α) : Prop :=
  ∀ ls₁ l ls₂ t, ls = ls₁ ++ l :: ls₂ → run step s ls₁ = some t → Q t l

theorem eachStep_nil {Q : σ → α → Prop} {s : σ} : EachStep step Q s [] := by
  intro ls₁ l ls₂ t hls
  simp at hls

theorem eachStep_cons {Q : σ → α → Prop} {s t : σ} {l : α} {ls : List α} (hstep : step s l = some t)
    (h : Q s l) (htail : EachStep step Q t ls) : EachStep step Q s (l :: ls) := by
  intro ls₁ k ls₂ u hls hu
  cases ls₁ with
  | nil =>
    obtain ⟨rfl, -⟩ := List.cons.inj hls
    obtain rfl : s = u := Option.some.inj hu
    exact h
  | cons j ls₁ =>
    obtain ⟨rfl, htl⟩ := List.cons.inj hls
    obtain ⟨t', ht', hu'⟩ := run_cons_eq_some.mp hu
    obtain rfl : t = t' := Option.some.inj (hstep.symm.trans ht')
    exact htail ls₁ k ls₂ u htl hu'

/-- What the steps of a run keep, given that each of them satisfies `Q`, holds along it. -/
theorem EachStep.along {Q : σ → α → Prop} {P : σ → Prop} {s : σ} {ls : List α}
    (h : EachStep step Q s ls) (hinit : P s)
    (hstep : ∀ t l t', P t → Q t l → step t l = some t' → P t') :
    Along step (fun _ t => P t) s ls := by
  refine along_history hinit ?_
  intro ls₁ l ls₂ t t' hls ht hP hl
  exact hstep t l t' hP (h ls₁ l ls₂ t hls ht) hl

/-- Induction on a run from its end, if each of its steps satisfies `Q`. -/
theorem EachStep.history {Q : σ → α → Prop} {P : List α → σ → Prop} {s₀ : σ} {ls : List α}
    (h : EachStep step Q s₀ ls) (hinit : P [] s₀)
    (hstep : ∀ ls s l s', P ls s → Q s l → step s l = some s' → P (ls ++ [l]) s') {s : σ}
    (hrun : run step s₀ ls = some s) : P ls s := by
  refine Along.last (along_history hinit ?_) hrun
  intro ls₁ l ls₂ t t' hls ht hP hl
  exact hstep ls₁ t l t' hP (h ls₁ l ls₂ t hls ht) hl

end Transition
