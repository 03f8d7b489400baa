import Fs123.Core.AddrinfoLru

/-!
# Runs of the address-info cache

In every interleaving of lookups and refreshes the records are linked in the order of the last successful
lookup of their keys.
-/

namespace Fs123.Resolving

open Cxx Transition AddrinfoCache

variable {s s' : State} {l : Label} {ls ls' : List Label} {k k' : GaiArgs}
  {order : List (Addr × GaiArgs)}

/-- `k` was looked up, and `k'` was not looked up again after that. -/
def MoreRecent (ls : List Label) (k k' : GaiArgs) : Prop :=
  ∃ before after, ls = before ++ after ∧ (∃ l ∈ after, l.used = some k) ∧ ∀ l ∈ after, l.used ≠ some k'

theorem MoreRecent.concat (h : MoreRecent ls k k') (hl : l.used ≠ some k') :
    MoreRecent (ls ++ [l]) k k' := by
  obtain ⟨before, after, rfl, ⟨m, hm, hused⟩, hnot⟩ := h
  refine ⟨before, after ++ [l], List.append_assoc .., ⟨m, List.mem_append_left _ hm, hused⟩, ?_⟩
  exact List.forall_mem_append.mpr ⟨hnot, List.forall_mem_singleton.mpr hl⟩

theorem MoreRecent.last (hl : l.used = some k) (hne : k ≠ k') : MoreRecent (ls ++ [l]) k k' := by
  refine ⟨ls, [l], rfl, ⟨l, List.mem_singleton_self l, hl⟩, List.forall_mem_singleton.mpr ?_⟩
  rw [hl]
  exact fun heq => hne (Option.some.inj heq)

/-- The elements are in the order of the last successful lookup of their keys. -/
def ByRecency (ls : List Label) (order : List (Addr × GaiArgs)) : Prop :=
  order.Pairwise fun p q => MoreRecent ls p.2 q.2

/-- A step that looks nothing up. -/
theorem ByRecency.concat (h : ByRecency ls order) (hl : l.used = none) : ByRecency (ls ++ [l]) order :=
  h.imp fun hpq => hpq.concat (by simp [hl])

/-- A lookup puts its key in front. -/
theorem ByRecency.used (h : ByRecency ls order) {a : Addr} (hl : l.used = some k)
    (hk : ∀ p ∈ order, p.2 ≠ k) : ByRecency (ls ++ [l]) ((a, k) :: order) := by
  refine List.pairwise_cons.mpr ⟨?_, ?_⟩
  · intro p hp
    exact MoreRecent.last hl (hk p hp).symm
  · refine List.Pairwise.imp_of_mem ?_ h
    intro p q _ hq hpq
    refine hpq.concat ?_
    rw [hl]
    exact fun heq => hk q hq (Option.some.inj heq).symm

/-- Take an element out and put it in front. -/
theorem ByRecency.moved {before after : List (Addr × GaiArgs)} {a b : Addr}
    (h : ByRecency ls (before ++ (a, k) :: after)) (hl : l.used = some k)
    (hkeys : ((before ++ (a, k) :: after).map Prod.snd).Nodup) :
    ByRecency (ls ++ [l]) ((b, k) :: (before ++ after)) := by
  refine ByRecency.used (h.sublist ?_) hl ?_
  · exact (List.Sublist.refl before).append (List.sublist_cons_self _ after)
  · intro p hp heq
    rw [List.map_append, List.map_cons, List.nodup_middle, List.nodup_cons, ← List.map_append] at hkeys
    exact hkeys.1 (List.mem_map.mpr ⟨p, hp, heq⟩)

/-- What holds after the steps `ls`: the cache is in the order `order`, which is that of the lookups, and the
element that `refresh` is resolving is there. -/
structure Inv (ls : List Label) (s : State) (order : List (Addr × GaiArgs)) : Prop where
  rep : s.cache.Rep order
  recency : ByRecency ls order
  resolving : ∀ e, s.refresh = .resolving e → ∃ k, (e, k) ∈ order

theorem Inv.init : Inv [] init [] where
  rep := Rep.empty
  recency := List.Pairwise.nil
  resolving e h := by simp [Resolving.init] at h

theorem ended_of_ends {α : Type} {x : Mapped α} {Q : α → AddrinfoCache → Prop} (s₁ : State)
    (h : Ends x s.cache Q) : ∃ a cache, ended s₁ (x s.cache) = some { s₁ with cache } ∧ Q a cache := by
  obtain ⟨a, cache, hx, hQ⟩ := h
  exact ⟨a, cache, by rw [hx, ended], hQ⟩

/-- A step that the threads can take has a next state. A lookup moves its element to the front or adds it
there, and the first loop of `refresh` leaves the most recent ones. -/
theorem Inv.progress (h : Inv ls s order) (he : Enabled s l) :
    ∃ s' order', effect s l = some s' ∧ Inv (ls ++ [l]) s' order' ∧
      ∀ maxSize, l = .evict maxSize → order' = order.take maxSize := by
  have hkeys := h.rep.keys_nodup
  cases l with
  | hit t args =>
    obtain ⟨p, hp⟩ := Option.ne_none_iff_exists'.mp he.2.2
    obtain ⟨before, after, rfl⟩ := h.rep.split hp
    obtain ⟨_, cache, hended, hrep⟩ := ended_of_ends s (hit_spec h.rep)
    refine ⟨_, _, by rw [effect, hp]; exact hended, ⟨hrep, h.recency.moved rfl hkeys, ?_⟩, by simp⟩
    intro e heq
    obtain ⟨k, hk⟩ := h.resolving e heq
    exact ⟨k, List.perm_middle.mem_iff.mp hk⟩
  | miss t args =>
    exact ⟨_, order, rfl, ⟨h.rep, h.recency.concat rfl, h.resolving⟩, by simp⟩
  | again t =>
    exact ⟨_, order, rfl, ⟨h.rep, h.recency.concat rfl, h.resolving⟩, by simp⟩
  | store t args addr newvalue =>
    rcases hindex : s.cache.theMap.index args with _ | p
    · obtain ⟨_, cache, hended, hrep⟩ :=
        ended_of_ends { s with lookups := Function.update s.lookups t none }
          (store_new_spec h.rep hindex he.2.2.2 newvalue)
      refine ⟨_, _, hended, ⟨hrep, h.recency.used rfl ?_, ?_⟩, by simp⟩
      · rintro p hp rfl
        exact h.rep.key_mem.mp (List.mem_map_of_mem hp) hindex
      · intro e heq
        obtain ⟨k, hk⟩ := h.resolving e heq
        exact ⟨k, List.mem_cons_of_mem _ hk⟩
    · obtain ⟨before, after, rfl⟩ := h.rep.split hindex
      obtain ⟨_, cache, hended, hrep⟩ :=
        ended_of_ends { s with lookups := Function.update s.lookups t none }
          (store_present_spec h.rep hindex newvalue (a := addr))
      refine ⟨_, _, hended, ⟨hrep, h.recency.moved rfl hkeys, ?_⟩, by simp⟩
      intro e heq
      obtain ⟨k, hk⟩ := h.resolving e heq
      exact ⟨k, List.perm_middle.mem_iff.mp hk⟩
  | evict maxSize =>
    obtain ⟨_, cache, hended, hrep⟩ :=
      ended_of_ends { s with refresh := .head } (evict_spec maxSize h.rep)
    refine ⟨_, _, hended, ⟨hrep, (h.recency.concat rfl).sublist (List.take_sublist _ _), ?_⟩, ?_⟩
    · intro e heq
      simp at heq
    · rintro _ ⟨⟩
      rfl
  | next e =>
    refine ⟨_, order, rfl, ⟨h.rep, h.recency.concat rfl, ?_⟩, by simp⟩
    rintro e' ⟨⟩
    obtain ⟨⟨k, r⟩, hr⟩ := Option.ne_none_iff_exists'.mp he.2
    exact ⟨k, (h.rep.mem e k).mpr ⟨r, hr⟩⟩
  | refreshed newvalue =>
    rcases hpc : s.refresh with _ | _ | e
    · exact absurd hpc he.1
    · exact absurd hpc he.2
    · obtain ⟨k, hk⟩ := h.resolving e hpc
      obtain ⟨_, cache, hended, hrep⟩ :=
        ended_of_ends { s with refresh := .head } (refreshRecord_spec h.rep hk newvalue)
      refine ⟨_, order, by rw [effect, hpc]; exact hended, ⟨hrep, h.recency.concat rfl, ?_⟩, by simp⟩
      intro e' heq
      simp at heq
  | done =>
    refine ⟨_, order, rfl, ⟨h.rep, h.recency.concat rfl, ?_⟩, by simp⟩
    intro e' heq
    simp at heq

theorem reached (h : run step init ls = some s) : ∃ order, Inv ls s order := by
  refine run_history (P := fun ls s => ∃ order, Inv ls s order) ⟨[], Inv.init⟩ ?_ h
  rintro ls s l s' _ ⟨order, hinv⟩ hstep
  obtain ⟨he, heff⟩ := step_eq_some.mp hstep
  obtain ⟨t, order', ht, hinv', -⟩ := hinv.progress he
  obtain rfl : s' = t := Option.some.inj (heff.symm.trans ht)
  exact ⟨order', hinv'⟩

/-- After every run the records are linked in the order of the last successful lookup of their keys, each key
once; the first loop of `refresh` leaves the `max_size` most recent ones, and no step that the threads can
take runs into a dangling iterator. -/
theorem lru_integrity (h : run step init ls = some s) :
    (∃ order, s.cache.Rep order ∧ (order.map Prod.snd).Nodup ∧
      (∀ k, k ∈ order.map Prod.snd ↔ s.cache.theMap.index k ≠ none) ∧ ByRecency ls order ∧
      ∀ maxSize s', step s (.evict maxSize) = some s' → s'.cache.Rep (order.take maxSize)) ∧
    ∀ l, Enabled s l → ∃ s', step s l = some s' := by
  obtain ⟨order, hinv⟩ := reached h
  refine ⟨⟨order, hinv.rep, hinv.rep.keys_nodup, fun k => hinv.rep.key_mem, hinv.recency, ?_⟩, ?_⟩
  · intro maxSize s' hstep
    obtain ⟨he, heff⟩ := step_eq_some.mp hstep
    obtain ⟨t, order', ht, hinv', htake⟩ := hinv.progress he
    obtain rfl : s' = t := Option.some.inj (heff.symm.trans ht)
    rw [← htake maxSize rfl]
    exact hinv'.rep
  · intro l he
    obtain ⟨t, _, ht, -, -⟩ := hinv.progress he
    exact ⟨t, step_eq_some.mpr ⟨he, ht⟩⟩

/-- Two threads resolve the same name, and a second name is resolved before the first one is found again. -/
theorem lru_integrity_raced :
    let args (name : String) : GaiArgs := ⟨bytes name, [], 0, 0, 0, 40⟩
    let ls : List Label :=
      [.miss 0 (args "a"), .miss 1 (args "a"), .store 0 (args "a") 1 ⟨0, 10, 0⟩,
        .store 1 (args "a") 2 ⟨0, 11, 0⟩, .miss 0 (args "b"), .store 0 (args "b") 2 ⟨0, 12, 0⟩, .hit 1 (args "a")]
    ∃ s, run step init ls = some s ∧ s.cache.size = 2 ∧
      (∃ order, s.cache.Rep order ∧ (order.map Prod.snd).Nodup ∧
        (∀ k, k ∈ order.map Prod.snd ↔ s.cache.theMap.index k ≠ none) ∧ ByRecency ls order ∧
        ∀ maxSize s', step s (.evict maxSize) = some s' → s'.cache.Rep (order.take maxSize)) ∧
      ∀ l, Enabled s l → ∃ s', step s l = some s' := by
  intro args ls
  obtain ⟨s, hs, hsize⟩ : ∃ s, run step init ls = some s ∧ s.cache.size = 2 := ⟨_, rfl, rfl⟩
  exact ⟨s, hs, hsize, lru_integrity hs⟩

end Fs123.Resolving
