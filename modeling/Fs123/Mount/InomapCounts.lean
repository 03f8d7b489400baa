import Fs123.Common.Transition
import Fs123.Mount.Inomap
import Mathlib.Tactic.Linarith

/-!
# What the inode map counts

A run of `ino_remember` and `ino_forget`, with the number of lookups of each inode that the kernel still has:
those that have been remembered less those that have been forgotten. The kernel never forgets more than that.
The `refcount` of a record is the same number in 31 bits (`Counted.Inv`), so that a record may be erased for
an inode that is still counted.
-/

namespace Fs123

open Cxx Transition

/-- The calls that change the counts. -/
inductive InoCall where
  | remember (pino : Ino) (name : Bytes) (ino : Ino) (validator : ℕ)
  | forget (ino : Ino) (nlookup : ℕ)
  deriving Repr, DecidableEq

/-- The map, and the lookups of each inode that have been remembered and not forgotten. -/
structure Counted where
  map : Inomap
  count : Ino → ℕ

/-- The result of a call, and the map after it. -/
def Inomap.call (m : Inomap) : InoCall → Res Unit × Inomap
  | .remember pino name ino validator => m.inoRemember pino name ino validator
  | .forget ino nlookup => (.ok (), m.inoForget ino nlookup)

namespace Counted

/-- The map is empty at first. -/
def init : Counted := ⟨fun _ => none, fun _ => 0⟩

/-- What a call that does not throw adds to the counts. -/
def counted (count : Ino → ℕ) : InoCall → Ino → ℕ
  | .remember _ _ ino _ => Function.update count ino (count ino + 1)
  | .forget ino nlookup => Function.update count ino (count ino - nlookup)

/-- The kernel has what it forgets. -/
def Allowed (s : Counted) : InoCall → Prop
  | .remember _ _ _ _ => True
  | .forget ino nlookup => nlookup ≤ s.count ino

instance (s : Counted) (c : InoCall) : Decidable (s.Allowed c) := by
  cases c
  · exact inferInstanceAs (Decidable True)
  · exact inferInstanceAs (Decidable (_ ≤ _))

/-- A call: one that throws counts for nothing. -/
def step (s : Counted) (c : InoCall) : Option Counted :=
  if s.Allowed c then
    match s.map.call c with
    | (.ok (), map) => some ⟨map, counted s.count c⟩
    | (.error _, map) => some ⟨map, s.count⟩
  else none

/-- The inodes in the map are those with a positive count. -/
def Mapped (s : Counted) : Prop := ∀ ino, (s.map ino).isSome ↔ 0 < s.count ino

/-- The records count modulo `2^31`. -/
structure Inv (s : Counted) : Prop where
  mapped : s.Mapped
  refcount : ∀ ino r, s.map ino = some r → r.refcount = refcountField (s.count ino)

/-- What is left after a `forget` is nothing, or positive as a field of 31 bits. -/
def Fits (s : Counted) : InoCall → Prop
  | .remember _ _ _ _ => True
  | .forget ino nlookup => s.count ino = nlookup ∨ 0 < refcountField ↑(s.count ino - nlookup)

theorem refcountField_add (z : ℤ) (n : ℤ) : refcountField (refcountField z + n) = refcountField (z + n) :=
  Int.bmod_add_bmod

theorem refcountField_sub (z : ℤ) (n : ℤ) : refcountField (refcountField z - n) = refcountField (z - n) :=
  Int.bmod_sub_bmod

/-- A call that throws leaves the map as it is. -/
theorem call_throws {m map : Inomap} {c : InoCall} {f : Fault} (h : m.call c = (.error f, map)) :
    map = m := by
  cases c with
  | forget ino nlookup => simp [Inomap.call] at h
  | remember pino name ino validator =>
    rw [Inomap.call, Inomap.inoRemember] at h
    split at h
    · simp at h
    · split at h
      · exact (Prod.mk.inj h).2.symm
      · simp at h

theorem Inv.init : Counted.init.Inv := by
  refine ⟨?_, ?_⟩
  · intro ino
    simp [Counted.init]
  · intro ino r h
    simp [Counted.init] at h

/-- One more lookup of an inode. -/
theorem Inv.remember {s : Counted} (h : s.Inv) {ino : Ino} {r : Inorecord}
    (hr : r.refcount = refcountField ↑(s.count ino + 1)) :
    Inv ⟨Function.update s.map ino (some r), Function.update s.count ino (s.count ino + 1)⟩ := by
  refine ⟨?_, ?_⟩
  · intro ino'
    by_cases heq : ino' = ino
    · subst heq
      simp
    · simpa [heq] using h.mapped ino'
  · intro ino' r' hr'
    by_cases heq : ino' = ino
    · subst heq
      simp only [Function.update_self, Option.some.injEq] at hr' ⊢
      rw [← hr', hr]
    · simp only [Function.update_of_ne heq] at hr' ⊢
      exact h.refcount ino' r' hr'

/-- The subtraction in the field is that of the counts. -/
theorem Inv.field_sub {s : Counted} (h : s.Inv) {ino : Ino} {r : Inorecord} (hr : s.map ino = some r)
    {nlookup : ℕ} (hle : nlookup ≤ s.count ino) :
    refcountField (r.refcount - nlookup) = refcountField ↑(s.count ino - nlookup) := by
  rw [h.refcount ino r hr, refcountField_sub, Nat.cast_sub hle]

theorem inoForget_eq {m : Inomap} {ino : Ino} {r : Inorecord} (hr : m ino = some r) (nlookup : ℕ) :
    m.inoForget ino nlookup = Function.update m ino
      (if 0 < refcountField (r.refcount - nlookup) then
        some { r with refcount := refcountField (r.refcount - nlookup) }
      else none) := by
  rw [Inomap.inoForget, hr]
  dsimp only
  rcases lt_trichotomy (refcountField (r.refcount - nlookup)) 0 with hlt | heq | hgt
  · rw [if_pos hlt, if_pos rfl, if_neg (by omega)]
  · rw [heq]
    rfl
  · rw [if_neg (by omega), if_neg (by omega), if_pos hgt]

/-- Forgetting what fits keeps the invariant. -/
theorem Inv.forget {s : Counted} (h : s.Inv) {ino : Ino} {nlookup : ℕ} (hle : nlookup ≤ s.count ino)
    (hfits : s.Fits (.forget ino nlookup)) :
    Inv ⟨s.map.inoForget ino nlookup, Function.update s.count ino (s.count ino - nlookup)⟩ := by
  have hmapped := h.mapped ino
  rcases hr : s.map ino with _ | r
  · -- there is nothing to forget
    have hzero : s.count ino = 0 := by
      rw [hr] at hmapped
      simpa using hmapped
    have hmap : s.map.inoForget ino nlookup = s.map := by rw [Inomap.inoForget, hr]
    rw [hmap, hzero, Nat.zero_sub, ← hzero, Function.update_eq_self]
    exact h
  · rw [inoForget_eq hr, h.field_sub hr hle]
    refine ⟨?_, ?_⟩
    · intro ino'
      by_cases heq : ino' = ino
      · subst heq
        simp only [Function.update_self]
        rcases hfits with hall | hpos
        · rw [hall, Nat.sub_self]
          simp [refcountField]
        · rw [if_pos hpos]
          simp only [Option.isSome_some, true_iff]
          by_contra hzero
          rw [Nat.eq_zero_of_not_pos hzero] at hpos
          simp [refcountField] at hpos
      · simpa only [Function.update_of_ne heq] using h.mapped ino'
    · intro ino' r' hr'
      by_cases heq : ino' = ino
      · subst heq
        simp only [Function.update_self] at hr' ⊢
        split at hr'
        · rw [← Option.some.inj hr']
        · simp at hr'
      · simp only [Function.update_of_ne heq] at hr' ⊢
        exact h.refcount ino' r' hr'

/-- What does not fit erases the record of an inode that is counted. -/
theorem Inv.fits {s : Counted} (h : s.Inv) {ino : Ino} {nlookup : ℕ} (hle : nlookup ≤ s.count ino)
    (hmapped : Mapped ⟨s.map.inoForget ino nlookup,
      Function.update s.count ino (s.count ino - nlookup)⟩) : s.Fits (.forget ino nlookup) := by
  have hbefore := h.mapped ino
  have hafter := hmapped ino
  rcases hr : s.map ino with _ | r
  · rw [hr] at hbefore
    have hzero : s.count ino = 0 := by simpa using hbefore
    exact Or.inl (by omega)
  · simp only [inoForget_eq hr, h.field_sub hr hle, Function.update_self] at hafter
    by_cases hpos : 0 < refcountField ↑(s.count ino - nlookup)
    · exact Or.inr hpos
    · rw [if_neg hpos] at hafter
      have hzero : s.count ino ≤ nlookup := by simpa using hafter
      exact Or.inl (by omega)

/-- The invariant along a step. -/
theorem Inv.step {s s' : Counted} {c : InoCall} (h : s.Inv) (hfits : s.Fits c) (hstep : s.step c = some s') :
    s'.Inv := by
  rw [Counted.step] at hstep
  split at hstep
  · next hallowed =>
    cases c with
    | forget ino nlookup =>
      obtain rfl := Option.some.inj hstep
      exact h.forget hallowed hfits
    | remember pino name ino validator =>
      have hmapped := h.mapped ino
      rw [Inomap.call, Inomap.inoRemember] at hstep
      rcases hr : s.map ino with _ | r
      · -- a new record
        rw [hr] at hstep hmapped
        obtain rfl := Option.some.inj hstep
        have hzero : s.count ino = 0 := by simpa using hmapped
        refine h.remember ?_
        rw [hzero]
        exact (show refcountField 1 = 1 by decide).symm
      · rw [hr] at hstep
        by_cases hname : name = r.name
        · simp only [hname, ne_eq, not_true_eq_false, if_false, Option.some.injEq] at hstep
          subst hstep
          refine h.remember ?_
          dsimp only
          rw [h.refcount ino r hr, refcountField_add]
          norm_cast
        · simp only [ne_eq, hname, not_false_eq_true, if_true] at hstep
          obtain rfl := Option.some.inj hstep
          exact h
  · exact absurd hstep (by simp)

theorem Inv.fits_of_step {s s' : Counted} {c : InoCall} (h : s.Inv) (hstep : s.step c = some s')
    (hmapped : s'.Mapped) : s.Fits c := by
  cases c with
  | remember _ _ _ _ => trivial
  | forget ino nlookup =>
    rw [Counted.step] at hstep
    split at hstep
    · next hallowed =>
      obtain rfl := Option.some.inj hstep
      exact h.fits hallowed hmapped
    · exact absurd hstep (by simp)

/-- A call that throws changes nothing. -/
theorem step_throws {s : Counted} {c : InoCall} {f : Fault} {map : Inomap}
    (h : s.map.call c = (.error f, map)) : s.step c = some s := by
  have hallowed : s.Allowed c := by
    cases c with
    | remember _ _ _ _ => trivial
    | forget _ _ => simp [Inomap.call] at h
  rw [step, if_pos hallowed, h, call_throws h]

/-- Along a run the inodes in the map are those with a positive count, exactly if nothing that is left by a
`forget` is too much for the field. A call that throws changes nothing. -/
theorem refcounts_kept_iff {cs : List InoCall} {s : Counted} (hrun : run step init cs = some s) :
    (Along step (fun _ t => t.Mapped) init cs
        ∧ ∀ (t : Counted) c f map, t.map.call c = (.error f, map) → map = t.map ∧ t.step c = some t)
      ↔ EachStep step Fits init cs := by
  constructor
  · intro ⟨hmapped, _⟩
    have hinv : Along step (fun _ t => t.Inv) init cs := by
      refine along_history Inv.init ?_
      intro cs₁ c cs₂ t t' hcs ht hinv hstep
      exact hinv.step (hinv.fits_of_step hstep (hmapped.next hcs ht hstep)) hstep
    intro cs₁ c cs₂ t hcs ht
    have hrest := hrun
    rw [hcs] at hrest
    obtain ⟨t₀, ht₀, hrest⟩ := run_append_eq_some.mp hrest
    obtain rfl := Option.some.inj (ht.symm.trans ht₀)
    obtain ⟨t', hstep, -⟩ := run_cons_eq_some.mp hrest
    exact (hinv cs₁ (c :: cs₂) t hcs ht).fits_of_step hstep (hmapped.next hcs ht hstep)
  · intro hfits
    have hinv := hfits.along Inv.init fun t c t' ht hfit hstep => ht.step hfit hstep
    refine ⟨?_, ?_⟩
    · intro cs₁ cs₂ t hcs ht
      exact (hinv cs₁ cs₂ t hcs ht).mapped
    · intro t c f map h
      exact ⟨call_throws h, step_throws h⟩

/-- An inode that is looked up twice and forgotten. -/
theorem refcounts_kept_twice : Along step (fun _ t => t.Mapped) init
    [.remember 1 (bytes "f") 9 7, .remember 1 (bytes "f") 9 7, .forget 9 2] := by
  refine ((refcounts_kept_iff (s := ⟨_, _⟩) rfl).mpr ?_).1
  refine eachStep_cons rfl trivial (eachStep_cons rfl trivial (eachStep_cons rfl ?_ eachStep_nil))
  exact Or.inl rfl

/-- Looking the same name up again and again. -/
theorem run_remembers (pino : Ino) (name : Bytes) (ino : Ino) (validator n : ℕ) :
    ∃ s, run step init (List.replicate n (.remember pino name ino validator)) = some s
      ∧ s.Inv ∧ s.count ino = n ∧ ∀ r, s.map ino = some r → r.name = name := by
  induction n with
  | zero => exact ⟨init, rfl, Inv.init, rfl, by simp [init]⟩
  | succ n ih =>
    obtain ⟨s, hs, hinv, hcount, hname⟩ := ih
    obtain ⟨r, hr, hstep⟩ : ∃ r, r.name = name ∧ s.step (.remember pino name ino validator)
        = some ⟨Function.update s.map ino (some r), Function.update s.count ino (s.count ino + 1)⟩ := by
      rw [step, if_pos (show s.Allowed (.remember pino name ino validator) from trivial), Inomap.call,
        Inomap.inoRemember]
      rcases hr : s.map ino with _ | r
      · exact ⟨_, rfl, rfl⟩
      · dsimp only
        rw [if_neg (not_not.mpr (hname r hr).symm)]
        exact ⟨{ r with refcount := refcountField (r.refcount + 1) }, hname r hr, rfl⟩
    refine ⟨_, ?_, hinv.step (c := .remember pino name ino validator) trivial hstep, ?_, ?_⟩
    · rw [List.replicate_succ', run_concat_eq_some]
      exact ⟨s, hs, hstep⟩
    · simp [hcount]
    · intro r' hr'
      dsimp only at hr'
      rw [Function.update_self, Option.some.injEq] at hr'
      rw [← hr', hr]

/-- When an inode that has been looked up `2^30 + 1` times is forgotten once, its record is erased. -/
theorem refcount_overflows : ¬ ∀ cs s, run step init cs = some s → s.Mapped := by
  intro hclaim
  obtain ⟨s, hs, hinv, hcount, -⟩ := run_remembers 1 (bytes "f") 9 7 (2 ^ 30 + 1)
  have hle : 1 ≤ s.count 9 := by omega
  have hstep : s.step (.forget 9 1)
      = some ⟨s.map.inoForget 9 1, Function.update s.count 9 (s.count 9 - 1)⟩ := by
    rw [step, if_pos (show s.Allowed (.forget 9 1) from hle)]
    rfl
  rcases hinv.fits hle (hclaim _ _ (run_concat_eq_some.mpr ⟨s, hs, hstep⟩)) with hone | hpos
  · omega
  · rw [hcount] at hpos
    exact absurd hpos (by decide)

end Counted

end Fs123
