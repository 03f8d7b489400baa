import Mathlib.Data.List.Basic
import Mathlib.Order.Compare
import Mathlib.Order.Lattice
import Std.Data.ExtTreeMap

/-!
# Ordered maps read as a ring

A ring of points is an ordered map; the successor of `h` is the first point after it, going round from the
last point to the first one. `Before h` is the order in which the points are met on the way round, so that
the successor is the least point of it. What happens to the successors when points are set or erased, a
whole list of them at a time, follows from that.
-/

namespace HashRing

open Std (ExtTreeMap)

variable {κ ν : Type*} [LinearOrder κ] {ring ring' : ExtTreeMap κ ν} {h k k' : κ} {v v' w : ν}

/-- `upper_bound(h)`, or the first element of the map when there is none. -/
def next (ring : ExtTreeMap κ ν) (h : κ) : Option (κ × ν) :=
  (ring.toList.find? fun p => h < p.1).or ring.toList.head?

/-- On the way round from `h`, the point `k` is met before `k'`. -/
def Before (h k k' : κ) : Prop := if h < k ↔ h < k' then k < k' else h < k

/-- No two points are each met before the other. -/
theorem Before.asymm (h₁ : Before h k k') : ¬ Before h k' k := by
  unfold Before at *
  by_cases hk : h < k <;> by_cases hk' : h < k'
  · simpa [hk, hk'] using le_of_lt (by simpa [hk, hk'] using h₁)
  · simp [hk, hk']
  · simp [hk, hk'] at h₁
  · simpa [hk, hk'] using le_of_lt (by simpa [hk, hk'] using h₁)

theorem mem_toList : (k, v) ∈ ring.toList ↔ ring[k]? = some v :=
  ExtTreeMap.mem_toList_iff_getElem?_eq_some

/-- The points of the map are listed in their order. -/
theorem toList_sorted (ring : ExtTreeMap κ ν) : ring.toList.Pairwise fun p q => p.1 < q.1 := by
  refine ring.ordered_keys_toList.imp ?_
  intro p q hpq
  exact compare_lt_iff_lt.mp hpq

/-- The successor is met before every other point. -/
theorem next_spec (hnext : next ring h = some (k, v)) :
    ring[k]? = some v ∧ ∀ k' w, ring[k']? = some w → k' ≠ k → Before h k k' := by
  have hsorted := toList_sorted ring
  rcases hfind : ring.toList.find? fun p => h < p.1 with _ | p
  · -- nothing is after `h`: the first point is the successor
    rw [next, hfind, Option.none_or] at hnext
    obtain ⟨rest, hlist⟩ := List.head?_eq_some_iff.mp hnext
    have hwrap : ∀ k' w, ring[k']? = some w → ¬ h < k' := by
      intro k' w hw
      simpa using List.find?_eq_none.mp hfind (k', w) (mem_toList.mpr hw)
    have hk : ring[k]? = some v := mem_toList.mp (by rw [hlist]; exact List.mem_cons_self)
    refine ⟨hk, ?_⟩
    intro k' w hw hne
    rw [hlist, List.pairwise_cons] at hsorted
    have hmem := mem_toList.mpr hw
    rw [hlist, List.mem_cons, Prod.mk.injEq] at hmem
    have hlt : k < k' := hsorted.1 (k', w) (hmem.resolve_left fun heq => hne heq.1)
    simpa [Before, hwrap k v hk, hwrap k' w hw] using hlt
  · rw [next, hfind, Option.some_or, Option.some.injEq] at hnext
    subst hnext
    obtain ⟨hlt, as, bs, hlist, has⟩ := List.find?_eq_some_iff_append.mp hfind
    have hlt : h < k := by simpa using hlt
    refine ⟨mem_toList.mp (by rw [hlist]; simp), ?_⟩
    intro k' w hw hne
    rw [hlist, List.pairwise_append, List.pairwise_cons] at hsorted
    have hmem := mem_toList.mpr hw
    rw [hlist, List.mem_append, List.mem_cons, Prod.mk.injEq] at hmem
    rcases hmem with hmem | ⟨heq, -⟩ | hmem
    · -- the points listed before it are met after the wrap
      have hle : ¬ h < k' := by simpa using has _ hmem
      simp [Before, hlt, hle]
    · exact absurd heq hne
    · have hkk : k < k' := hsorted.2.1.1 _ hmem
      simpa [Before, hlt, hlt.trans hkk] using hkk

theorem next_eq_none_iff : next ring h = none ↔ ∀ k : κ, ring[k]? = none := by
  rw [next, Option.or_eq_none_iff, List.head?_eq_none_iff]
  constructor
  · rintro ⟨-, hnil⟩ k
    rw [Option.eq_none_iff_forall_ne_some]
    intro v hv
    have := mem_toList.mpr hv
    rw [hnil] at this
    exact absurd this List.not_mem_nil
  · intro hnone
    have hnil : ring.toList = [] := by
      rw [List.eq_nil_iff_forall_not_mem]
      rintro ⟨k, v⟩ hmem
      rw [mem_toList, hnone k] at hmem
      exact absurd hmem (by simp)
    simp [hnil]

/-- The point that is met before every other one is the successor. -/
theorem next_eq_some_iff : next ring h = some (k, v) ↔
    ring[k]? = some v ∧ ∀ k' w, ring[k']? = some w → k' ≠ k → Before h k k' := by
  refine ⟨next_spec, ?_⟩
  rintro ⟨hk, hfirst⟩
  rcases hnext : next ring h with _ | ⟨k₂, v₂⟩
  · rw [next_eq_none_iff.mp hnext k] at hk
    exact absurd hk (by simp)
  · obtain ⟨hk₂, hfirst₂⟩ := next_spec hnext
    have heq : k₂ = k := by
      by_contra hne
      exact (hfirst k₂ v₂ hk₂ hne).asymm (hfirst₂ k v hk (Ne.symm hne))
    subst heq
    rw [hk, Option.some.injEq] at hk₂
    rw [hk₂]

/-- A successor stays the successor when other points go. -/
theorem next_of_subset (hsub : ∀ (k : κ) w, ring[k]? = some w → ∃ w', ring'[k]? = some w')
    (hnext : next ring' h = some (k, v')) (hk : ring[k]? = some v) : next ring h = some (k, v) := by
  refine next_eq_some_iff.mpr ⟨hk, ?_⟩
  intro k' w hw hne
  obtain ⟨w', hw'⟩ := hsub k' w hw
  exact (next_eq_some_iff.mp hnext).2 k' w' hw' hne

/-! ## Many points at a time -/

/-- `ring[k] = v` for each of the points. -/
def setAll (ks : List κ) (v : ν) (ring : ExtTreeMap κ ν) : ExtTreeMap κ ν :=
  ks.foldl (fun ring k => ring.insert k v) ring

/-- `ring.erase(k)` for each of the points. -/
def eraseAll (ks : List κ) (ring : ExtTreeMap κ ν) : ExtTreeMap κ ν :=
  ks.foldl (fun ring k => ring.erase k) ring

@[simp] theorem getElem?_setAll (ks : List κ) (v : ν) (ring : ExtTreeMap κ ν) (k : κ) :
    (setAll ks v ring)[k]? = if k ∈ ks then some v else ring[k]? := by
  induction ks generalizing ring with
  | nil => simp [setAll]
  | cons j ks ih =>
    rw [setAll, List.foldl_cons, ← setAll, ih]
    by_cases hk : k ∈ ks
    · simp [hk]
    · by_cases hj : j = k
      · simp [hj, hk]
      · simp [hk, ExtTreeMap.getElem?_insert, hj, Ne.symm hj]

@[simp] theorem getElem?_eraseAll (ks : List κ) (ring : ExtTreeMap κ ν) (k : κ) :
    (eraseAll ks ring)[k]? = if k ∈ ks then none else ring[k]? := by
  induction ks generalizing ring with
  | nil => simp [eraseAll]
  | cons j ks ih =>
    rw [eraseAll, List.foldl_cons, ← eraseAll, ih]
    by_cases hk : k ∈ ks
    · simp [hk]
    · by_cases hj : j = k
      · simp [hj, hk]
      · simp [hk, ExtTreeMap.getElem?_erase, hj, Ne.symm hj]

/-- Setting points changes a successor only to one of them. -/
theorem next_setAll {ks : List κ} (hnext : next (setAll ks v ring) h = some (k, w)) :
    w = v ∨ next ring h = some (k, w) := by
  obtain ⟨hk, -⟩ := next_eq_some_iff.mp hnext
  rw [getElem?_setAll] at hk
  split at hk
  · exact .inl (Option.some.inj hk).symm
  · refine .inr (next_of_subset ?_ hnext hk)
    intro k' w' hw'
    by_cases hmem : k' ∈ ks <;> simp [hmem, hw']

/-- Erasing points changes only the successors among them. -/
theorem next_eraseAll {ks : List κ} (hnext : next ring h = some (k, w)) (hk : k ∉ ks) :
    next (eraseAll ks ring) h = some (k, w) := by
  refine next_of_subset ?_ hnext ?_
  · intro k' w' hw'
    rw [getElem?_eraseAll] at hw'
    split at hw'
    · simp at hw'
    · exact ⟨w', hw'⟩
  · rw [getElem?_eraseAll, if_neg hk]
    exact (next_eq_some_iff.mp hnext).1

/-- Points that were not there are set and erased again. -/
theorem eraseAll_setAll {ks : List κ} (hnew : ∀ k ∈ ks, ring[k]? = none) :
    eraseAll ks (setAll ks v ring) = ring := by
  refine ExtTreeMap.ext_getElem? ?_
  intro k
  rw [getElem?_eraseAll, getElem?_setAll]
  split
  · next hk => exact (hnew k hk).symm
  · rfl

/-- Different points are set in either order. -/
theorem setAll_comm {ks ks' : List κ} (hdisj : ∀ k ∈ ks, k ∉ ks') :
    setAll ks v (setAll ks' v' ring) = setAll ks' v' (setAll ks v ring) := by
  refine ExtTreeMap.ext_getElem? ?_
  intro k
  by_cases hk : k ∈ ks
  · simp [hk, hdisj k hk]
  · simp [hk]

end HashRing
