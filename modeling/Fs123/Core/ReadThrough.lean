import Fs123.Common.Transition
import Fs123.Core.Exn
import Fs123.Core.Expiring

/-!
# Caches that are filled on demand

The use of an `expiring_cache` that `core123/expiring.hpp` recommends: look a key up, and when that fails, find its
value elsewhere and insert it. Several threads do so at once: a thread can be anywhere between its lookup and its
insertion. `run_serves`: a value that a call returns was found for its key by this or by an earlier call, and as
long as the cache returns it, no more than the time to live has passed since it was inserted.
-/

namespace Fs123

open Transition

/-- `erase_expired(asifnow)`. -/
def Expiring.Cache.eraseExpired {κ α : Type} (c : Expiring.Cache κ α) (asifnow : TimePoint) : Expiring.Cache κ α :=
  { c with themap := fun k => (c.themap k).filter fun v => decide (asifnow ≤ v.goodTill) }

namespace ReadThrough

variable {κ α φ : Type} [DecidableEq κ] [DecidableEq α] [Inhabited α]

/-- A call whose lookup has failed: it is going to find the value, or to insert it. -/
inductive Call (κ α : Type) where
  | missed (k : κ)
  | found (k : κ) (v : α)
  deriving Repr, DecidableEq

structure State (κ α : Type) where
  cache : Expiring.Cache κ α
  calls : List (Call κ α)

/-- How a cache is used: which keys are not refused, how the value of a key is found from an answer, and the time to
live. -/
structure Use (κ α φ : Type) where
  legal : κ → Bool
  refresh : κ → φ → Res α
  ttl : ℤ

inductive Label (κ α φ : Type) where
  /-- A call: the key is looked up at `now`, and what comes of it is tested at `now'`. -/
  | get (k : κ) (now now' : TimePoint)
  /-- A call whose lookup has failed finds the value, or throws. -/
  | refresh (k : κ) (answer : φ)
  /-- It inserts the value and returns it. -/
  | insert (k : κ) (v : α) (now : TimePoint) (evicted : List κ)
  | eraseExpired (now : TimePoint)

variable (use : Use κ α φ)

/-- One step of a thread. The clock is never at `time_point::min()`. -/
def step (s : State κ α) : Label κ α φ → Option (State κ α)
  | .get k now now' =>
    if TimePoint.min < now' then
      if use.legal k then
        let (v, cache) := s.cache.lookup k now
        if v.expired now' then some ⟨cache, .missed k :: s.calls⟩ else some ⟨cache, s.calls⟩
      else some s
    else none
  | .refresh k answer =>
    if .missed k ∈ s.calls then
      match use.refresh k answer with
      | .ok v => some { s with calls := .found k v :: s.calls.erase (.missed k) }
      | .error _ => some { s with calls := s.calls.erase (.missed k) }
    else none
  | .insert k v now evicted =>
    if .found k v ∈ s.calls then
      some ⟨s.cache.insert k ⟨v, now + use.ttl⟩ evicted, s.calls.erase (.found k v)⟩
    else none
  | .eraseExpired now => some { s with cache := s.cache.eraseExpired now }

/-- What a step returns to its caller: the value that a lookup has found, or the one that has been inserted. -/
def returned (s : State κ α) : Label κ α φ → Option (κ × α)
  | .get k now now' =>
    if use.legal k then
      let v := (s.cache.lookup k now).1
      if v.expired now' then none else some (k, v.val)
    else none
  | .insert k v _ _ => some (k, v)
  | _ => none

def init (maxSize : ℕ) : State κ α := ⟨⟨maxSize, fun _ => none⟩, []⟩

/-! ## Where the values come from -/

variable {use} {s t : State κ α} {ls : List (Label κ α φ)} {l : Label κ α φ}

/-- A call of the run has found the value for the key. -/
def Found (use : Use κ α φ) (ls : List (Label κ α φ)) (k : κ) (v : α) : Prop :=
  use.legal k = true ∧ ∃ answer, .refresh k answer ∈ ls ∧ use.refresh k answer = .ok v

/-- The value was found and then inserted at `now`. -/
def Inserted (use : Use κ α φ) (ls : List (Label κ α φ)) (k : κ) (v : α) (now : TimePoint) : Prop :=
  ∃ ls₁ evicted ls₂, ls = ls₁ ++ .insert k v now evicted :: ls₂ ∧ Found use ls₁ k v

omit [DecidableEq κ] [DecidableEq α] [Inhabited α] in
theorem Found.append {k : κ} {v : α} (h : Found use ls k v) (ls' : List (Label κ α φ)) :
    Found use (ls ++ ls') k v := by
  obtain ⟨hlegal, answer, hmem, hv⟩ := h
  exact ⟨hlegal, answer, List.mem_append_left _ hmem, hv⟩

omit [DecidableEq κ] [DecidableEq α] [Inhabited α] in
theorem Inserted.append {k : κ} {v : α} {now : TimePoint} (h : Inserted use ls k v now)
    (ls' : List (Label κ α φ)) : Inserted use (ls ++ ls') k v now := by
  obtain ⟨ls₁, evicted, ls₂, rfl, hfound⟩ := h
  exact ⟨ls₁, evicted, ls₂ ++ ls', by rw [List.append_assoc, List.cons_append], hfound⟩

structure Inv (use : Use κ α φ) (ls : List (Label κ α φ)) (s : State κ α) : Prop where
  missed : ∀ k, .missed k ∈ s.calls → use.legal k = true
  found : ∀ k v, .found k v ∈ s.calls → Found use ls k v
  cached : ∀ k e, s.cache.themap k = some e → ∃ now, Inserted use ls k e.val now ∧ e.goodTill = now + use.ttl

/-! ## The cache -/

omit [DecidableEq α] in
/-- A lookup only takes entries away. -/
theorem lookup_themap (c : Expiring.Cache κ α) (k : κ) (now : TimePoint) {q : κ} {e : Expiring α}
    (h : (c.lookup k now).2.themap q = some e) : c.themap q = some e := by
  unfold Expiring.Cache.lookup at h
  split at h
  · exact h
  · split at h
    · simp only [Expiring.Cache.erase] at h
      by_cases hq : q = k
      · subst hq
        rw [Function.update_self] at h
        cases h
      · rwa [Function.update_of_ne hq] at h
    · exact h

omit [DecidableEq α] in
/-- What has not expired comes from the cache. -/
theorem lookup_hit {c : Expiring.Cache κ α} {k : κ} {now now' : TimePoint} (hmin : TimePoint.min < now')
    (h : (c.lookup k now).1.expired now' = false) :
    c.themap k = some (c.lookup k now).1 ∧ now ≤ (c.lookup k now).1.goodTill := by
  have hdefault : (default : Expiring α).expired now' = true := decide_eq_true hmin
  unfold Expiring.Cache.lookup at h ⊢
  split at h
  · rw [hdefault] at h
    cases h
  · next v hv =>
    by_cases hexpired : v.expired now = true
    · rw [if_pos hexpired, hdefault] at h
      cases h
    · simp only [hexpired]
      exact ⟨hv, not_lt.mp fun hlt => hexpired (decide_eq_true hlt)⟩

omit [DecidableEq α] [Inhabited α] in
/-- What is in the cache after an insertion is the new entry or one that was there. -/
theorem insert_themap {c : Expiring.Cache κ α} {k : κ} {v : Expiring α} {evicted : List κ} {q : κ}
    {e : Expiring α} (h : (c.insert k v evicted).themap q = some e) :
    c.themap q = some e ∨ (q = k ∧ e = v) := by
  have hevict : ∀ c' : Expiring.Cache κ α, (c'.evict evicted).themap q = some e → c'.themap q = some e := by
    intro c' h'
    simp only [Expiring.Cache.evict] at h'
    split at h'
    · cases h'
    · exact h'
  unfold Expiring.Cache.insert at h
  split at h
  · exact .inl h
  · split at h
    · exact .inl (hevict _ h)
    · have hnew := hevict _ h
      dsimp only at hnew
      by_cases hq : q = k
      · subst hq
        rw [Function.update_self] at hnew
        exact .inr ⟨rfl, (Option.some.inj hnew).symm⟩
      · rw [Function.update_of_ne hq] at hnew
        exact .inl hnew

/-! ## Runs -/

theorem step_get {k : κ} {now now' : TimePoint} (h : step use s (.get k now now') = some t) :
    TimePoint.min < now' ∧ (t = s ∨ t = ⟨(s.cache.lookup k now).2, s.calls⟩
      ∨ use.legal k = true ∧ t = ⟨(s.cache.lookup k now).2, .missed k :: s.calls⟩) := by
  obtain ⟨hmin, h⟩ := Option.ite_none_right_eq_some.mp h
  refine ⟨hmin, ?_⟩
  by_cases hlegal : use.legal k = true
  · rw [if_pos hlegal] at h
    dsimp only at h
    split at h
    · exact .inr (.inr ⟨hlegal, (Option.some.inj h).symm⟩)
    · exact .inr (.inl (Option.some.inj h).symm)
  · rw [if_neg hlegal] at h
    exact .inl (Option.some.inj h).symm

omit [DecidableEq κ] [DecidableEq α] [Inhabited α] in
/-- The calls in progress do not forget what they have found when the run goes on. -/
theorem Inv.append (h : Inv use ls s) (ls' : List (Label κ α φ)) : Inv use (ls ++ ls') s where
  missed := h.missed
  found k v hk := (h.found k v hk).append ls'
  cached k e he := by
    obtain ⟨now, hnow, htill⟩ := h.cached k e he
    exact ⟨now, hnow.append ls', htill⟩

theorem Inv.step (h : Inv use ls s) (hstep : step use s l = some t) : Inv use (ls ++ [l]) t := by
  have hnext := h.append [l]
  cases l with
  | get k now now' =>
    obtain ⟨-, rfl | rfl | ⟨hlegal, rfl⟩⟩ := step_get hstep
    · exact hnext
    · exact { hnext with cached := fun q e he => hnext.cached q e (lookup_themap _ _ _ he) }
    · refine ⟨?_, ?_, fun q e he => hnext.cached q e (lookup_themap _ _ _ he)⟩
      · intro q hq
        rcases List.mem_cons.mp hq with heq | hq
        · obtain rfl := Call.missed.inj heq
          exact hlegal
        · exact h.missed q hq
      · intro q v hq
        rcases List.mem_cons.mp hq with heq | hq
        · cases heq
        · exact hnext.found q v hq
  | refresh k answer =>
    obtain ⟨hmem, hstep⟩ := Option.ite_none_right_eq_some.mp hstep
    rcases hv : use.refresh k answer with e | v
    · rw [hv] at hstep
      obtain rfl := Option.some.inj hstep
      exact ⟨fun q hq => h.missed q (List.mem_of_mem_erase hq),
        fun q v hq => hnext.found q v (List.mem_of_mem_erase hq), hnext.cached⟩
    · rw [hv] at hstep
      obtain rfl := Option.some.inj hstep
      refine ⟨?_, ?_, hnext.cached⟩
      · intro q hq
        rcases List.mem_cons.mp hq with heq | hq
        · cases heq
        · exact h.missed q (List.mem_of_mem_erase hq)
      · intro q w hq
        rcases List.mem_cons.mp hq with heq | hq
        · obtain ⟨rfl, rfl⟩ := Call.found.inj heq
          exact ⟨h.missed q hmem, answer, List.mem_append_right _ (List.mem_singleton_self _), hv⟩
        · exact hnext.found q w (List.mem_of_mem_erase hq)
  | insert k v now evicted =>
    obtain ⟨hmem, hstep⟩ := Option.ite_none_right_eq_some.mp hstep
    obtain rfl := Option.some.inj hstep
    refine ⟨fun q hq => h.missed q (List.mem_of_mem_erase hq),
      fun q w hq => hnext.found q w (List.mem_of_mem_erase hq), ?_⟩
    intro q e he
    rcases insert_themap he with hold | ⟨rfl, rfl⟩
    · exact hnext.cached q e hold
    · exact ⟨now, ⟨ls, evicted, [], rfl, h.found q v hmem⟩, rfl⟩
  | eraseExpired now =>
    obtain rfl := Option.some.inj hstep
    exact { hnext with cached := fun q e he => hnext.cached q e (Option.filter_eq_some_iff.mp he).1 }

theorem Inv.of_run {maxSize : ℕ} (hrun : run (ReadThrough.step use) (init maxSize) ls = some s) : Inv use ls s := by
  refine run_history (P := fun ls s => Inv use ls s) ?_ (fun _ _ _ _ _ h hl => h.step hl) hrun
  refine ⟨?_, ?_, ?_⟩
  · intro k hk
    cases hk
  · intro k v hk
    cases hk
  · intro k e he
    cases he

omit [DecidableEq α] in
theorem returned_get {k q : κ} {v : α} {now now' : TimePoint}
    (h : returned use s (.get q now now') = some (k, v)) :
    k = q ∧ v = (s.cache.lookup q now).1.val ∧ (s.cache.lookup q now).1.expired now' = false := by
  rw [returned] at h
  obtain ⟨-, h⟩ := Option.ite_none_right_eq_some.mp h
  obtain ⟨hfresh, h⟩ := Option.ite_none_left_eq_some.mp h
  obtain ⟨rfl, rfl⟩ := Prod.mk.inj (Option.some.inj h)
  exact ⟨rfl, rfl, Bool.eq_false_iff.mpr hfresh⟩

/-- In every run: what a call returns was found for its key by a call of the run. If the cache returns it at `now`, it
was inserted no more than `ttl` before `now`. -/
theorem run_serves {maxSize : ℕ} (hrun : run (ReadThrough.step use) (init maxSize) ls = some s)
    (hstep : ReadThrough.step use s l = some t) {k : κ} {v : α} (hret : returned use s l = some (k, v)) :
    Found use ls k v ∧ ∀ now now', l = .get k now now' → ∃ then', Inserted use ls k v then' ∧ now ≤ then' + use.ttl := by
  have h := Inv.of_run hrun
  cases l with
  | get q now now' =>
    obtain ⟨hmin, -⟩ := step_get hstep
    obtain ⟨rfl, rfl, hfresh⟩ := returned_get hret
    obtain ⟨hcached, hnow⟩ := lookup_hit hmin hfresh
    obtain ⟨then', hinserted, htill⟩ := h.cached k _ hcached
    refine ⟨?_, ?_⟩
    · obtain ⟨ls₁, evicted, ls₂, rfl, hfound⟩ := hinserted
      exact hfound.append _
    · intro now₁ now₁' heq
      obtain ⟨-, rfl, -⟩ := Label.get.inj heq
      exact ⟨then', hinserted, htill ▸ hnow⟩
  | insert q w now evicted =>
    obtain ⟨rfl, rfl⟩ := Prod.mk.inj (Option.some.inj hret)
    obtain ⟨hmem, -⟩ := Option.ite_none_right_eq_some.mp hstep
    exact ⟨h.found q w hmem, fun _ _ heq => by cases heq⟩
  | refresh q answer => cases hret
  | eraseExpired now => cases hret

/-- A call looks only for the values of keys that are not refused. -/
theorem run_refreshes {maxSize : ℕ} (hrun : run (ReadThrough.step use) (init maxSize) ls = some s) {k : κ} {answer : φ}
    (hstep : ReadThrough.step use s (.refresh k answer) = some t) : use.legal k = true :=
  (Inv.of_run hrun).missed k (Option.ite_none_right_eq_some.mp hstep).1

end ReadThrough

end Fs123
