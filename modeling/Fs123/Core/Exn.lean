import Fs123.Common.Decimal

/-!
# Exceptions

A C++ exception is a stack of layers, outermost first: `std::throw_with_nested` puts a layer on top of
the exception being handled. Each layer keeps its dynamic type and its `what()` text. A computation ends
in a value, in a thrown exception, or in `oob`, an access outside an array or an overflow of a signed number,
which the language gives no meaning and which no handler catches.
-/

namespace Fs123

open Cxx

/-- The error categories of `std::system_error` in use: errno values and http statuses. -/
inductive Category where
  | system
  | http
  deriving Repr, DecidableEq

/-- The dynamic type of one exception layer. -/
inductive ExnKind where
  | invalidArgument
  | outOfRange
  | lengthError
  | logicError
  | runtimeError
  | badAlloc
  | systemError (category : Category) (code : ℤ)
  deriving Repr, DecidableEq

/-- One layer of a nested exception. -/
structure Layer where
  kind : ExnKind
  what : Bytes
  deriving Repr, DecidableEq

/-- A thrown exception: the outermost layer and those nested in it, in `exnest` order. -/
structure Exn where
  outer : Layer
  nested : List Layer
  deriving Repr, DecidableEq

/-- How a computation stops without a value. -/
inductive Fault where
  | throws (e : Exn)
  /-- An access outside an array, or an overflow of a signed number: undefined behaviour. -/
  | oob
  deriving Repr, DecidableEq

/-- The result of a modelled function. -/
abbrev Res (α : Type) := Except Fault α

/-- `throw kind(what)`. -/
def throwE {α : Type} (kind : ExnKind) (what : Bytes) : Res α :=
  .error (.throws ⟨⟨kind, what⟩, []⟩)

/-- All layers, outermost first: what `exnest` iterates over. -/
def Exn.layers (e : Exn) : List Layer := e.outer :: e.nested

/-- `std::throw_with_nested(kind(what))` while handling `e`. -/
def Exn.nest (kind : ExnKind) (what : Bytes) (e : Exn) : Exn := ⟨⟨kind, what⟩, e.layers⟩

/-- A `catch(std::exception&)` around `x`. -/
def catchE {α : Type} (x : Res α) (handler : Exn → Res α) : Res α :=
  match x with
  | .error (.throws e) => handler e
  | .error .oob => .error .oob
  | .ok a => .ok a

@[simp] theorem catchE_ok {α : Type} (a : α) (handler : Exn → Res α) :
    catchE (.ok a) handler = .ok a := rfl

/-- A handler that always throws does not change when the computation succeeds. -/
theorem catchE_eq_ok_iff {α : Type} {x : Res α} {handler : Exn → Res α} {a : α}
    (hthrow : ∀ e, handler e ≠ .ok a) : catchE x handler = .ok a ↔ x = .ok a := by
  rcases x with (e | _) | b
  · simp [catchE, hthrow]
  · simp [catchE]
  · simp [catchE]

/-- The result is a thrown exception. -/
def Throws {α : Type} (x : Res α) : Prop := ∃ e, x = .error (.throws e)

@[simp] theorem throws_throwE {α : Type} (kind : ExnKind) (what : Bytes) :
    Throws (throwE kind what : Res α) := ⟨_, rfl⟩

@[simp] theorem throwE_ne_ok {α : Type} (kind : ExnKind) (what : Bytes) (a : α) :
    (throwE kind what : Res α) ≠ .ok a := by
  simp [throwE]

theorem ok_bind {α β : Type} (a : α) (f : α → Res β) : ((.ok a : Res α) >>= f) = f a := rfl

/-- Peel a `do` block apart: a successful bind is a successful first half and continuation. -/
theorem bind_eq_ok_iff {α β : Type} {x : Res α} {f : α → Res β} {b : β} :
    x >>= f = .ok b ↔ ∃ a, x = .ok a ∧ f a = .ok b := by
  cases x <;> simp [bind, Except.bind]

/-! ## What a computation can throw -/

/-- Every exception that `x` throws satisfies `P`. -/
def ThrowsOnly {α : Type} (P : Exn → Prop) (x : Res α) : Prop := ∀ e, x = .error (.throws e) → P e

section ThrowsOnly

variable {α β : Type} {P : Exn → Prop} {x : Res α}

theorem ThrowsOnly.ok (a : α) : ThrowsOnly P (.ok a) := by
  intro e h
  simp at h

theorem ThrowsOnly.oob : ThrowsOnly P (.error .oob : Res α) := by
  intro e h
  simp at h

theorem ThrowsOnly.throws {e : Exn} (h : P e) : ThrowsOnly P (.error (.throws e) : Res α) := by
  intro e' h'
  rw [Except.error.injEq, Fault.throws.injEq] at h'
  exact h' ▸ h

theorem ThrowsOnly.bind {f : α → Res β} (hx : ThrowsOnly P x) (hf : ∀ a, x = .ok a → ThrowsOnly P (f a)) :
    ThrowsOnly P (x >>= f) := by
  rcases x with fault | a
  · intro e h
    rw [Except.error.inj h] at hx
    exact hx e rfl
  · exact hf a rfl

/-- Only the handler throws. -/
theorem ThrowsOnly.catchE {handler : Exn → Res α} (h : ∀ e, ThrowsOnly P (handler e)) :
    ThrowsOnly P (catchE x handler) := by
  rcases x with (e | _) | a
  · exact h e
  · exact ThrowsOnly.oob
  · exact ThrowsOnly.ok a

end ThrowsOnly

/-! ## Accesses inside arrays -/

/-- No array is accessed outside its bounds. -/
def InBounds {α : Type} (x : Res α) : Prop := x ≠ .error .oob

section InBounds

variable {α β : Type} {x : Res α}

theorem InBounds.ok (a : α) : InBounds (.ok a) := by
  simp [InBounds]

theorem InBounds.throws (e : Exn) : InBounds (.error (.throws e) : Res α) := by
  simp [InBounds]

theorem InBounds.throwE (kind : ExnKind) (what : Bytes) : InBounds (throwE kind what : Res α) :=
  InBounds.throws _

theorem InBounds.bind {f : α → Res β} (hx : InBounds x) (hf : ∀ a, x = .ok a → InBounds (f a)) :
    InBounds (x >>= f) := by
  rcases x with (e | _) | a
  · exact InBounds.throws e
  · exact absurd rfl hx
  · exact hf a rfl

theorem InBounds.catchE {handler : Exn → Res α} (hx : InBounds x) (h : ∀ e, InBounds (handler e)) :
    InBounds (catchE x handler) := by
  rcases x with (e | _) | a
  · exact h e
  · exact absurd rfl hx
  · exact InBounds.ok a

/-- Without a value there is an exception. -/
theorem InBounds.throws_of_not_ok (hx : InBounds x) (h : ∀ a, x ≠ .ok a) : Throws x := by
  rcases x with (e | _) | a
  · exact ⟨e, rfl⟩
  · exact absurd rfl hx
  · exact absurd rfl (h a)

theorem InBounds.throws_error {e : Fault} (h : InBounds (.error e : Res α)) : Throws (.error e : Res β) := by
  rcases e with e | _
  · exact ⟨e, rfl⟩
  · exact absurd rfl h

end InBounds

/-! ## `string_view` members that throw -/

/-- `sv.at(pos)`. -/
def at? (sv : Bytes) (pos : ℕ) : Res UInt8 :=
  match sv[pos]? with
  | some b => .ok b
  | none => throwE .outOfRange
      (bytes "basic_string_view::at: __pos (which is " ++ decimal pos
        ++ bytes ") >= this->size() (which is " ++ decimal sv.length ++ bytes ")")

/-- `sv.substr(pos, n)`. -/
def substr (sv : Bytes) (pos n : ℕ) : Res Bytes :=
  if sv.length < pos then
    throwE .outOfRange
      (bytes "basic_string_view::substr: __pos (which is " ++ decimal pos
        ++ bytes ") > this->size() (which is " ++ decimal sv.length ++ bytes ")")
  else .ok (slice sv pos n)

theorem at?_eq_ok_iff {sv : Bytes} {pos : ℕ} {b : UInt8} :
    at? sv pos = .ok b ↔ sv[pos]? = some b := by
  unfold at?
  cases sv[pos]? <;> simp [throwE]

theorem at?_inBounds (sv : Bytes) (pos : ℕ) : InBounds (at? sv pos) := by
  unfold at?
  split
  · exact InBounds.ok _
  · exact InBounds.throwE _ _

theorem substr_inBounds (sv : Bytes) (pos n : ℕ) : InBounds (substr sv pos n) := by
  unfold substr
  split
  · exact InBounds.throwE _ _
  · exact InBounds.ok _

theorem substr_eq_ok_iff {sv : Bytes} {pos n : ℕ} {r : Bytes} :
    substr sv pos n = .ok r ↔ pos ≤ sv.length ∧ r = slice sv pos n := by
  unfold substr
  split
  · next h => simp [throwE]; omega
  · next h =>
    simp only [Except.ok.injEq]
    constructor
    · intro hr
      exact ⟨by omega, hr.symm⟩
    · rintro ⟨-, hr⟩
      exact hr.symm

end Fs123
