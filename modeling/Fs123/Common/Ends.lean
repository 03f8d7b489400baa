import Mathlib.Tactic.Common

/-!
# Correctness of stateful computations that can fail

`Ends x s Q` says that `x`, run from the state `s`, does not fail and that its value and its last state
satisfy `Q`. `Leads x s Q E` allows a failure, whose state then satisfies `E`. A `do` block is verified by
`Ends.bind` or `Leads.bind`, one action after the other.
-/

namespace Cxx

variable {ε σ α β : Type}

/-- `x` ends normally from `s`, with `Q` of its value and of the state it leaves. -/
def Ends (x : EStateM ε σ α) (s : σ) (Q : α → σ → Prop) : Prop :=
  ∃ a s', x s = .ok a s' ∧ Q a s'

theorem Ends.ok {x : EStateM ε σ α} {s s' : σ} {a : α} {Q : α → σ → Prop} (h : x s = .ok a s')
    (hQ : Q a s') : Ends x s Q :=
  ⟨a, s', h, hQ⟩

theorem Ends.pure {s : σ} {a : α} {Q : α → σ → Prop} (h : Q a s) :
    Ends (Pure.pure a : EStateM ε σ α) s Q :=
  ⟨a, s, rfl, h⟩

theorem Ends.bind {x : EStateM ε σ α} {f : α → EStateM ε σ β} {s : σ} {P : α → σ → Prop}
    {Q : β → σ → Prop} (hx : Ends x s P) (hf : ∀ a s', P a s' → Ends (f a) s' Q) :
    Ends (x >>= f) s Q := by
  obtain ⟨a, s', ha, hP⟩ := hx
  obtain ⟨b, s'', hb, hQ⟩ := hf a s' hP
  refine ⟨b, s'', ?_, hQ⟩
  simp only [Bind.bind, EStateM.bind, ha]
  exact hb

/-- An action that is known to end in one way is run. -/
theorem Ends.step {x : EStateM ε σ α} {f : α → EStateM ε σ β} {s : σ} {Q : β → σ → Prop} (a : α)
    (s' : σ) (hx : x s = .ok a s') (hf : Ends (f a) s' Q) : Ends (x >>= f) s Q :=
  Ends.bind (P := fun b t => b = a ∧ t = s') ⟨a, s', hx, rfl, rfl⟩ (by rintro _ _ ⟨rfl, rfl⟩; exact hf)

theorem Ends.mono {x : EStateM ε σ α} {s : σ} {P Q : α → σ → Prop} (h : Ends x s P)
    (hPQ : ∀ a s', P a s' → Q a s') : Ends x s Q := by
  obtain ⟨a, s', ha, hP⟩ := h
  exact ⟨a, s', ha, hPQ a s' hP⟩

/-- The branch of a conditional that is taken. -/
theorem Ends.ite {c : Prop} [Decidable c] {x y : EStateM ε σ α} {s : σ} {Q : α → σ → Prop}
    (hx : c → Ends x s Q) (hy : ¬ c → Ends y s Q) : Ends (if c then x else y) s Q := by
  by_cases hc : c
  · rw [if_pos hc]
    exact hx hc
  · rw [if_neg hc]
    exact hy hc

/-- `x`, run from `s`, ends with `Q` of its value and its last state, or fails in a state with `E`. -/
def Leads (x : EStateM ε σ α) (s : σ) (Q : α → σ → Prop) (E : σ → Prop) : Prop :=
  match x s with
  | .ok a s' => Q a s'
  | .error _ s' => E s'

theorem Leads.pure {s : σ} {a : α} {Q : α → σ → Prop} {E : σ → Prop} (h : Q a s) :
    Leads (Pure.pure a : EStateM ε σ α) s Q E :=
  h

theorem Leads.bind {x : EStateM ε σ α} {f : α → EStateM ε σ β} {s : σ} {P : α → σ → Prop}
    {Q : β → σ → Prop} {E : σ → Prop} (hx : Leads x s P E)
    (hf : ∀ a s', P a s' → Leads (f a) s' Q E) : Leads (x >>= f) s Q E := by
  unfold Leads at hx ⊢
  simp only [Bind.bind, EStateM.bind]
  cases hr : x s with
  | ok a s' =>
    rw [hr] at hx
    exact hf a s' hx
  | error e s' =>
    rw [hr] at hx
    exact hx

theorem Leads.mono {x : EStateM ε σ α} {s : σ} {P Q : α → σ → Prop} {E E' : σ → Prop}
    (h : Leads x s P E) (hPQ : ∀ a s', P a s' → Q a s') (hE : ∀ s', E s' → E' s') :
    Leads x s Q E' := by
  unfold Leads at h ⊢
  cases hr : x s with
  | ok a s' =>
    rw [hr] at h
    exact hPQ a s' h
  | error e s' =>
    rw [hr] at h
    exact hE s' h

/-- Both branches of a conditional. -/
theorem Leads.ite {c : Prop} [Decidable c] {x y : EStateM ε σ α} {s : σ} {Q : α → σ → Prop}
    {E : σ → Prop} (hx : c → Leads x s Q E) (hy : ¬ c → Leads y s Q E) :
    Leads (if c then x else y) s Q E := by
  by_cases hc : c
  · rw [if_pos hc]
    exact hx hc
  · rw [if_neg hc]
    exact hy hc

/-- A failure is handled in the state that it left. -/
theorem Leads.tryCatch {x : EStateM ε σ α} {handler : ε → EStateM ε σ α} {s : σ} {Q : α → σ → Prop}
    {E E' : σ → Prop} (hx : Leads x s Q E) (hh : ∀ e s', E s' → Leads (handler e) s' Q E') :
    Leads (MonadExcept.tryCatch x handler) s Q E' := by
  have hrun : MonadExcept.tryCatch x handler s
      = match x s with
        | .ok a s' => .ok a s'
        | .error e s' => handler e s' := by
    change EStateM.tryCatch x handler s = _
    unfold EStateM.tryCatch
    cases x s <;> rfl
  unfold Leads at hx ⊢
  rw [hrun]
  cases hr : x s with
  | ok a s' =>
    rw [hr] at hx
    exact hx
  | error e s' =>
    rw [hr] at hx
    exact hh e s' hx

/-- Two facts about the same run. -/
theorem Leads.and {x : EStateM ε σ α} {s : σ} {P Q : α → σ → Prop} {E : σ → Prop} (h : Leads x s P E)
    (h' : Leads x s Q E) : Leads x s (fun a s' => P a s' ∧ Q a s') E := by
  unfold Leads at h h' ⊢
  cases hr : x s with
  | ok a s' =>
    rw [hr] at h h'
    exact ⟨h, h'⟩
  | error e s' =>
    rw [hr] at h
    exact h

theorem Leads.eq_ok {x : EStateM ε σ α} {s s' : σ} {a : α} {Q : α → σ → Prop} {E : σ → Prop}
    (h : Leads x s Q E) (hx : x s = .ok a s') : Q a s' := by
  unfold Leads at h
  rwa [hx] at h

end Cxx
