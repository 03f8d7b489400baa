import Fs123.Common.Transition
import Fs123.Mount.OpenFileMap

/-!
# The attribute cache

The model of `begetattr` and of the `expiring_cache` that it uses. Several threads call `begetattr`; a lookup,
an erasure and an insertion hold the lock of the cache, and the request to the server is made between them.
The cache does not replace an entry, so an older reply can get into it between the erasure and the insertion
of a `no_cache` call. `no_regress_of_inOrder` says that nothing else makes the cache go back.
-/

namespace Fs123

open Transition

/-- `attrcache_key`: the hash of a name. -/
abbrev AttrKey := ℕ

/-! ## `expiring_cache` -/

/-- `expiring::expired(asifnow)`. -/
def Begetattr.expired (r : Begetattr) (asifnow : TimePoint) : Bool := asifnow > r.goodTill

/-- `expiring_cache`: its capacity and its map. -/
structure ExpiringCache where
  maxSize : ℕ
  themap : AttrKey → Option Begetattr

namespace ExpiringCache

/-- `erase(k)`. -/
def erase (c : ExpiringCache) (k : AttrKey) : ExpiringCache :=
  { c with themap := Function.update c.themap k none }

/-- `lookup(k, asifnow)`: an expired entry is erased, and a miss is a value that has expired. -/
def lookup (c : ExpiringCache) (k : AttrKey) (asifnow : TimePoint) : Begetattr × ExpiringCache :=
  match c.themap k with
  | none => (.default, c)
  | some v => if v.expired asifnow then (.default, c.erase k) else (v, c)

/-- The map without the keys that `random_eviction` takes. -/
def evict (c : ExpiringCache) (evicted : List AttrKey) : ExpiringCache :=
  { c with themap := fun k => if k ∈ evicted then none else c.themap k }

/-- `insert(k, v)`, with the keys that the evictions after it take. An entry that is there stays. -/
def insert (c : ExpiringCache) (k : AttrKey) (v : Begetattr) (evicted : List AttrKey) : ExpiringCache :=
  if c.maxSize = 0 then c
  else
    match c.themap k with
    | some _ => c.evict evicted
    | none => { c with themap := Function.update c.themap k (some v) }.evict evicted

end ExpiringCache

namespace AttrCache

/-! ## `begetattr`, step by step -/

/-- Where a call of `begetattr` is. -/
inductive Pc where
  | entered
  /-- An entry was found whose cookie does not match the inode. -/
  | mismatched
  /-- Nothing is found: `beget` is next. -/
  | missed
  | fetched (r : Begetattr)
  /-- After the insertion. -/
  | inserted (r : Begetattr)
  /-- The reply was found in the cache. -/
  | hit (r : Begetattr)
  deriving Repr, DecidableEq

/-- A call in progress. `floor` is the largest validator that a `no_cache` call for the key had returned when
this call started. -/
structure Call where
  key : AttrKey
  noCache : Bool
  floor : ℕ
  pc : Pc
  deriving Repr, DecidableEq

/-- The cache, the calls in progress, and for each key the largest validator that a `no_cache` call has
returned. -/
structure State where
  cache : ExpiringCache
  calls : ℕ → Option Call
  floor : AttrKey → ℕ

/-- Before the first call. -/
def init (maxSize : ℕ) : State := ⟨⟨maxSize, fun _ => none⟩, fun _ => none, fun _ => 0⟩

/-- The steps of the call `id`, and `erase` for what other code does to the cache. -/
inductive Label where
  | start (id : ℕ) (key : AttrKey) (noCache : Bool)
  /-- `attrcache->erase(key)`. -/
  | eraseKey (id : ℕ)
  /-- `attrcache->lookup(key)`. The clock is read again for `expired()`, and `mismatch` is what
  `cookie_mismatch` says of the entry. The clock is past its minimum. -/
  | lookup (id : ℕ) (now now' : TimePoint) (mismatch : Bool)
  /-- `beget` and the conversion of its reply. -/
  | fetch (id : ℕ) (r : Begetattr)
  | insert (id : ℕ) (evicted : List AttrKey)
  | returns (id : ℕ)
  /-- An exception ends the call. -/
  | throw (id : ℕ)
  | erase (keys : List AttrKey)
  deriving Repr, DecidableEq

/-- The call goes on to `pc`. -/
def State.goto (s : State) (id : ℕ) (c : Call) (pc : Pc) : State :=
  { s with calls := Function.update s.calls id (some { c with pc := pc }) }

/-- The attributes that a call is about to return. -/
def Call.result (c : Call) : Option Begetattr :=
  match c.pc with
  | .hit r | .inserted r => some r
  | .fetched r => if r.eno = 0 then none else some r
  | _ => none

/-- A step of the call `c`. -/
def callStep (s : State) (id : ℕ) (c : Call) : Label → Option State
  | .eraseKey _ =>
    match c.pc, c.noCache with
    | .entered, true | .mismatched, _ => some ({ s with cache := s.cache.erase c.key }.goto id c .missed)
    | _, _ => none
  | .lookup _ now now' mismatch =>
    match c.pc, c.noCache with
    | .entered, false =>
      let (r, cache) := s.cache.lookup c.key now
      -- The second reading of the clock may find expired what the lookup did not.
      if TimePoint.min < now' then
        some ({ s with cache := cache }.goto id c
          (if r.expired now' then .missed else if mismatch then .mismatched else .hit r))
      else none
    | _, _ => none
  | .fetch _ r =>
    match c.pc with
    | .missed => some (s.goto id c (.fetched r))
    | _ => none
  | .insert _ evicted =>
    match c.pc with
    | .fetched r =>
      if r.eno = 0 then
        some ({ s with cache := s.cache.insert c.key r evicted }.goto id c (.inserted r))
      else none
    | _ => none
  | .returns _ =>
    match c.result with
    | some r => some { s with
        calls := Function.update s.calls id none
        floor := if c.noCache ∧ r.eno = 0 then
          Function.update s.floor c.key (max (s.floor c.key) r.validator) else s.floor }
    | none => none
  | .throw _ => some { s with calls := Function.update s.calls id none }
  | _ => none

/-- The call that takes the step. -/
def Label.id : Label → Option ℕ
  | .start .. | .erase _ => none
  | .eraseKey id | .lookup id .. | .fetch id _ | .insert id _ | .returns id | .throw id => some id

/-- One step of the system. -/
def step (s : State) : Label → Option State
  | .start id key noCache =>
    if s.calls id = none then
      some { s with calls := Function.update s.calls id (some ⟨key, noCache, s.floor key, .entered⟩) }
    else none
  | .erase keys => some { s with cache := s.cache.evict keys }
  | l =>
    match l.id with
    | some id => (s.calls id).bind fun c => callStep s id c l
    | none => none

/-! ## The cache does not go back -/

/-- The step returns attributes from the cache that are older than those that a `no_cache` call had returned
before the call started. -/
def Regresses (s : State) (l : Label) : Prop :=
  ∃ id c r, l = .returns id ∧ s.calls id = some c ∧ c.pc = .hit r ∧ r.validator < c.floor

/-- The step does not put an older reply into the cache than a `no_cache` call has returned, and does not
return a newer reply from a `no_cache` call than the cache holds. -/
def InOrder (s : State) : Label → Prop
  | .insert id evicted => ∀ c r, s.calls id = some c → c.pc = .fetched r →
      s.cache.themap c.key = none → s.cache.maxSize ≠ 0 → c.key ∉ evicted →
      s.floor c.key ≤ r.validator
  | .returns id => ∀ c r v, s.calls id = some c → c.noCache = true → c.result = some r → r.eno = 0 →
      s.cache.themap c.key = some v → r.validator ≤ v.validator
  | _ => True

/-- The cache holds nothing older than what `no_cache` calls have returned. -/
structure Fresh (s : State) : Prop where
  cache : ∀ k v, s.cache.themap k = some v → s.floor k ≤ v.validator
  started : ∀ id c, s.calls id = some c → c.floor ≤ s.floor c.key
  hit : ∀ id c r, s.calls id = some c → c.pc = .hit r → c.floor ≤ r.validator

theorem Fresh.init (maxSize : ℕ) : Fresh (init maxSize) := by
  refine ⟨?_, ?_, ?_⟩ <;> simp [AttrCache.init]

theorem evict_eq_some {c : ExpiringCache} {evicted : List AttrKey} {k : AttrKey} {v : Begetattr} :
    (c.evict evicted).themap k = some v ↔ k ∉ evicted ∧ c.themap k = some v := by
  simp [ExpiringCache.evict]

theorem erase_eq_some {c : ExpiringCache} {k k' : AttrKey} {v : Begetattr}
    (h : (c.erase k).themap k' = some v) : c.themap k' = some v := by
  by_cases hk : k' = k
  · subst hk
    simp [ExpiringCache.erase] at h
  · simpa [ExpiringCache.erase, Function.update_of_ne hk] using h

/-- A lookup finds an entry of the cache or a reply that has expired, and at most erases. -/
theorem lookup_spec (c : ExpiringCache) (k : AttrKey) (now : TimePoint) :
    (c.themap k = some (c.lookup k now).1 ∨ (c.lookup k now).1 = .default) ∧
      ∀ k' v, (c.lookup k now).2.themap k' = some v → c.themap k' = some v := by
  rw [ExpiringCache.lookup]
  cases hk : c.themap k with
  | none => exact ⟨.inr rfl, fun _ _ h => h⟩
  | some v =>
    simp only
    split
    · exact ⟨.inr rfl, fun _ _ h => erase_eq_some h⟩
    · exact ⟨.inl rfl, fun _ _ h => h⟩

/-- What an insertion leaves in the cache was there before, or is what it inserts where nothing was. -/
theorem insert_eq_some {c : ExpiringCache} {k k' : AttrKey} {r v : Begetattr} {evicted : List AttrKey}
    (h : (c.insert k r evicted).themap k' = some v) :
    c.themap k' = some v ∨
      k' = k ∧ v = r ∧ c.themap k = none ∧ c.maxSize ≠ 0 ∧ k ∉ evicted := by
  rw [ExpiringCache.insert] at h
  by_cases hsize : c.maxSize = 0
  · rw [if_pos hsize] at h
    exact .inl h
  · rw [if_neg hsize] at h
    cases hk : c.themap k with
    | some _ =>
      simp only [hk] at h
      exact .inl (evict_eq_some.mp h).2
    | none =>
      simp only [hk] at h
      obtain ⟨hnot, hv⟩ := evict_eq_some.mp h
      by_cases hkk : k' = k
      · subst hkk
        simp only [Function.update_self, Option.some.injEq] at hv
        exact .inr ⟨rfl, hv.symm, rfl, hsize, hnot⟩
      · simp only [Function.update_of_ne hkk] at hv
        exact .inl hv

/-- The state after a step of the call `c` that goes on to `pc` is fresh when its cache is. -/
theorem Fresh.goto {s : State} {id : ℕ} {c : Call} (h : Fresh s) (hc : s.calls id = some c)
    {cache : ExpiringCache} {pc : Pc} (hcache : ∀ k v, cache.themap k = some v → s.floor k ≤ v.validator)
    (hhit : ∀ r, pc = .hit r → c.floor ≤ r.validator) : Fresh ({ s with cache := cache }.goto id c pc) := by
  refine ⟨hcache, ?_, ?_⟩
  · intro id' c' hc'
    by_cases hid : id' = id
    · subst hid
      obtain rfl : { c with pc := pc } = c' := by simpa [State.goto] using hc'
      exact h.started id' c hc
    · exact h.started id' c' (by simpa [State.goto, Function.update_of_ne hid] using hc')
  · intro id' c' r hc' hr
    by_cases hid : id' = id
    · subst hid
      obtain rfl : { c with pc := pc } = c' := by simpa [State.goto] using hc'
      exact hhit r hr
    · exact h.hit id' c' r (by simpa [State.goto, Function.update_of_ne hid] using hc') hr

/-- A call that ends leaves no trace but the floor, which it may raise. -/
theorem Fresh.finish {s : State} {id : ℕ} {floor : AttrKey → ℕ} (h : Fresh s)
    (hfloor : ∀ k, s.floor k ≤ floor k)
    (hcache : ∀ k v, s.cache.themap k = some v → floor k ≤ v.validator) :
    Fresh { s with calls := Function.update s.calls id none, floor := floor } := by
  have hcall : ∀ id' c, Function.update s.calls id none id' = some c → s.calls id' = some c := by
    intro id' c hc
    by_cases hid : id' = id
    · subst hid
      simp at hc
    · simpa [Function.update_of_ne hid] using hc
  refine ⟨hcache, ?_, ?_⟩
  · intro id' c hc
    exact (h.started id' c (hcall id' c hc)).trans (hfloor c.key)
  · intro id' c r hc hr
    exact h.hit id' c r (hcall id' c hc) hr

theorem Fresh.callStep {s s' : State} {id : ℕ} {c : Call} {l : Label} (h : Fresh s) (hl : l.id = some id)
    (hc : s.calls id = some c) (horder : InOrder s l) (hstep : callStep s id c l = some s') : Fresh s' := by
  cases l with
  | start _ _ _ | erase _ => simp [Label.id] at hl
  | eraseKey _ =>
    have herase : Fresh ({ s with cache := s.cache.erase c.key }.goto id c .missed) :=
      h.goto hc (fun k v hv => h.cache k v (erase_eq_some hv)) (by simp)
    simp only [AttrCache.callStep] at hstep
    split at hstep <;> simp_all
  | lookup _ now now' mismatch =>
    simp only [AttrCache.callStep] at hstep
    split at hstep
    · split at hstep
      · next hnow =>
        obtain rfl := Option.some.inj hstep
        obtain ⟨hfound, hkept⟩ := lookup_spec s.cache c.key now
        apply h.goto hc (fun k v hv => h.cache k v (hkept k v hv))
        intro r hr
        split at hr
        · simp at hr
        · next hlive =>
          split at hr
          · simp at hr
          · obtain rfl := Pc.hit.inj hr
            rcases hfound with hv | hdefault
            · exact (h.started id c hc).trans (h.cache _ _ hv)
            · -- A miss is a value that has expired.
              rw [hdefault] at hlive
              simp [Begetattr.expired, Begetattr.default, hnow] at hlive
      · simp at hstep
    · simp at hstep
  | fetch _ r =>
    simp only [AttrCache.callStep] at hstep
    split at hstep
    · obtain rfl := Option.some.inj hstep
      exact h.goto hc h.cache (by simp)
    · simp at hstep
  | insert id' evicted =>
    obtain rfl : id' = id := by simpa [Label.id] using hl
    simp only [AttrCache.callStep] at hstep
    split at hstep
    · next r hpc =>
      split at hstep
      · obtain rfl := Option.some.inj hstep
        apply h.goto hc _ (by simp)
        intro k v hv
        rcases insert_eq_some hv with hold | ⟨rfl, rfl, hnone, hsize, hnot⟩
        · exact h.cache k v hold
        · exact horder c v hc hpc hnone hsize hnot
      · simp at hstep
    · simp at hstep
  | returns id' =>
    obtain rfl : id' = id := by simpa [Label.id] using hl
    simp only [AttrCache.callStep] at hstep
    split at hstep
    · next r hr =>
      obtain rfl := Option.some.inj hstep
      by_cases hraise : c.noCache = true ∧ r.eno = 0
      · rw [if_pos hraise]
        apply h.finish
        · intro k
          by_cases hk : k = c.key
          · subst hk
            simp
          · simp [Function.update_of_ne hk]
        · intro k v hv
          by_cases hk : k = c.key
          · subst hk
            rw [Function.update_self]
            exact max_le (h.cache _ v hv) (horder c r v hc hraise.1 hr hraise.2 hv)
          · rw [Function.update_of_ne hk]
            exact h.cache k v hv
      · rw [if_neg hraise]
        exact h.finish (fun _ => le_refl _) h.cache
    · simp at hstep
  | throw _ =>
    obtain rfl := Option.some.inj hstep
    exact h.finish (fun _ => le_refl _) h.cache

theorem Fresh.step {s s' : State} {l : Label} (h : Fresh s) (horder : InOrder s l)
    (hstep : step s l = some s') : Fresh s' := by
  have hcall : ∀ id, l.id = some id → ((s.calls id).bind fun c => AttrCache.callStep s id c l) = some s' →
      Fresh s' := by
    intro id hid hbind
    obtain ⟨c, hc, hcs⟩ := Option.bind_eq_some_iff.mp hbind
    exact h.callStep hid hc horder hcs
  cases l with
  | start id key noCache =>
    simp only [AttrCache.step] at hstep
    split at hstep
    · obtain rfl := Option.some.inj hstep
      refine ⟨h.cache, ?_, ?_⟩
      · intro id' c hc
        by_cases hid : id' = id
        · subst hid
          simp only [Function.update_self, Option.some.injEq] at hc
          subst hc
          exact le_refl _
        · exact h.started id' c (by simpa [Function.update_of_ne hid] using hc)
      · intro id' c r hc hr
        by_cases hid : id' = id
        · subst hid
          simp only [Function.update_self, Option.some.injEq] at hc
          subst hc
          simp at hr
        · exact h.hit id' c r (by simpa [Function.update_of_ne hid] using hc) hr
    · simp at hstep
  | erase keys =>
    obtain rfl := Option.some.inj hstep
    exact ⟨fun k v hv => h.cache k v (evict_eq_some.mp hv).2, h.started, h.hit⟩
  | eraseKey id => exact hcall id rfl hstep
  | lookup id _ _ _ => exact hcall id rfl hstep
  | fetch id _ => exact hcall id rfl hstep
  | insert id _ => exact hcall id rfl hstep
  | returns id => exact hcall id rfl hstep
  | throw id => exact hcall id rfl hstep

/-- In a run whose steps are all in order, no call returns attributes from the cache that are older than those
that a `no_cache` call had returned before it started. -/
theorem no_regress_of_inOrder {maxSize : ℕ} {ls : List Label}
    (horder : EachStep step InOrder (init maxSize) ls) :
    EachStep step (fun s l => ¬ Regresses s l) (init maxSize) ls := by
  have hfresh := horder.along (Fresh.init maxSize) fun t l t' hf ho hl => hf.step ho hl
  rintro ls₁ l ls₂ t hls ht ⟨id, c, r, -, hc, hpc, hlt⟩
  have hle := (hfresh ls₁ (l :: ls₂) t hls ht).hit id c r hc hpc
  exact absurd hle (not_le.mpr hlt)

/-- A `no_cache` call, and a call that returns what it has put into the cache. -/
def refreshed : List Label :=
  [.start 1 5 true, .eraseKey 1, .fetch 1 ⟨0, 0, 2, 1000⟩, .insert 1 [], .returns 1, .start 2 5 false,
    .lookup 2 0 0 false, .returns 2]

theorem no_regress_of_inOrder_refreshed :
    EachStep step (fun s l => ¬ Regresses s l) (init 100) refreshed := by
  refine no_regress_of_inOrder (eachStep_cons rfl trivial (eachStep_cons rfl trivial
    (eachStep_cons rfl trivial (eachStep_cons rfl ?_ (eachStep_cons rfl ?_ (eachStep_cons rfl trivial
      (eachStep_cons rfl trivial (eachStep_cons rfl ?_ eachStep_nil))))))))
  · rintro c r - - - - -
    exact Nat.zero_le _
  · rintro c r v ⟨⟩ - ⟨⟩ - ⟨⟩
    exact le_refl _
  · rintro c r v ⟨⟩ hno
    exact absurd hno (by decide)

/-- A step that is out of order leaves an entry in the cache that is older than what a `no_cache` call has
returned. -/
theorem stale_of_not_inOrder {s s' : State} {l : Label} (hstep : step s l = some s')
    (hbad : ¬ InOrder s l) :
    ∃ k v, s'.cache.themap k = some v ∧ v.validator < s'.floor k := by
  cases l with
  | insert id evicted =>
    simp only [InOrder, not_forall, not_le] at hbad
    obtain ⟨c, r, hc, hpc, hnone, hsize, hnot, hlt⟩ := hbad
    by_cases heno : r.eno = 0
    · simp only [step, Label.id, hc, Option.bind_some, callStep, hpc, heno, if_true, Option.some.injEq]
        at hstep
      subst hstep
      refine ⟨c.key, r, ?_, hlt⟩
      simp [State.goto, ExpiringCache.insert, hsize, hnone, evict_eq_some, hnot]
    · simp [step, Label.id, hc, callStep, hpc, heno] at hstep
  | returns id =>
    simp only [InOrder, not_forall, not_le] at hbad
    obtain ⟨c, r, v, hc, hno, hr, heno, hv, hlt⟩ := hbad
    simp only [step, Label.id, hc, Option.bind_some, callStep, hr, hno, heno, and_self, if_true,
      Option.some.injEq] at hstep
    subst hstep
    refine ⟨c.key, v, hv, ?_⟩
    simp only [Function.update_self]
    exact hlt.trans_le (le_max_right _ _)
  | _ => simp [InOrder] at hbad

/-- The next call for the name returns that entry as long as it has not expired. -/
theorem regresses_of_stale {s : State} {k : AttrKey} {v : Begetattr} {id : ℕ} {now : TimePoint}
    (hv : s.cache.themap k = some v) (hlt : v.validator < s.floor k) (hid : s.calls id = none)
    (hnow : TimePoint.min < now) (hlive : now ≤ v.goodTill) :
    ∃ t, run step s [.start id k false, .lookup id now now false] = some t ∧ Regresses t (.returns id) := by
  have hexpired : v.expired now = false := by simpa [Begetattr.expired] using hlive
  have hlookup : s.cache.lookup k now = (v, s.cache) := by simp [ExpiringCache.lookup, hv, hexpired]
  let c : Call := ⟨k, false, s.floor k, .entered⟩
  let s₁ : State := { s with calls := Function.update s.calls id (some c) }
  have hstart : step s (.start id k false) = some s₁ := if_pos hid
  have hfound : step s₁ (.lookup id now now false) = some (s₁.goto id c (.hit v)) := by
    simp [step, Label.id, s₁, c, callStep, hlookup, hnow, hexpired]
  refine ⟨s₁.goto id c (.hit v), ?_, id, { c with pc := .hit v }, v, rfl, by simp [State.goto], rfl, hlt⟩
  exact run_cons_eq_some.mpr ⟨s₁, hstart, run_cons_eq_some.mpr ⟨_, hfound, rfl⟩⟩

/-! ## An older reply between the erasure and the insertion -/

/-- A caching call and a `no_cache` call for one name. The `no_cache` call erases and is answered with the
newer validator, and the other call inserts the older one before it does. -/
def olderInsertedFirst : List Label :=
  [.start 1 5 false, .lookup 1 0 0 false, .fetch 1 ⟨0, 0, 1, 1000⟩, .start 2 5 true, .eraseKey 2,
    .fetch 2 ⟨0, 0, 2, 1000⟩, .insert 1 [], .insert 2 [], .returns 2, .returns 1, .start 3 5 false,
    .lookup 3 0 0 false]

/-- The call after the `no_cache` call returns the older attributes from the cache. -/
theorem attrcache_regresses :
    ¬ ∀ maxSize ls t l, run step (init maxSize) ls = some t → ¬ Regresses t l := by
  intro hclaim
  exact hclaim 100 olderInsertedFirst _ (.returns 3) rfl
    ⟨3, ⟨5, false, 2, .hit ⟨0, 0, 1, 1000⟩⟩, ⟨0, 0, 1, 1000⟩, rfl, rfl, rfl, by decide⟩

end AttrCache

end Fs123
