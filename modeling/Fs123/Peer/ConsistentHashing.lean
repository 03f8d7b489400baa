import Fs123.Peer.PeerMap

/-!
# Consistent hashing

What a call does to the owners of the keys, in a peer map that any sequence of calls has built, as long as
no two peers share a point of the ring.
-/

namespace Fs123

open Cxx HashRing

/-- A call that changes the peer map. -/
inductive PeerCall where
  | insertPeer (sp : Peer)
  | removeUrl (url : Bytes)
  deriving Repr, DecidableEq

/-- The uuid that a call may put on the ring. -/
def PeerCall.uuid? : PeerCall → Option Bytes
  | .insertPeer sp => some sp.uuid
  | .removeUrl _ => none

namespace PeerMap

def call (m : PeerMap) : PeerCall → PeerMap
  | .insertPeer sp => m.insertPeer sp
  | .removeUrl url => m.removeUrl url

/-- The map after the calls. -/
def built (calls : List PeerCall) : PeerMap := calls.foldl call empty

/-- The map after the peers were inserted, one after the other. -/
def insertAll (m : PeerMap) (sps : List Peer) : PeerMap := sps.foldl insertPeer m

/-- No two peers share a point. -/
def NoCollision (uuids : List Bytes) : Prop :=
  ∀ uuid ∈ uuids, ∀ uuid' ∈ uuids, uuid ≠ uuid' → ∀ k ∈ points uuid, k ∉ points uuid'

instance (uuids : List Bytes) : Decidable (NoCollision uuids) := by
  unfold NoCollision
  infer_instance

variable {m : PeerMap} {sp : Peer} {url : Bytes} {uuids : List Bytes}

theorem NoCollision.of_subset {uuids' : List Bytes} (h : NoCollision uuids) (hsub : uuids' ⊆ uuids) :
    NoCollision uuids' :=
  fun uuid hu uuid' hu' => h uuid (hsub hu) uuid' (hsub hu')

/-! ## Maps that calls have built -/

/-- The map is well-formed and the peers on its ring are among these. -/
structure BuiltFrom (m : PeerMap) (uuids : List Bytes) : Prop where
  wf : m.Wf
  uuid_mem : ∀ (k : ℕ) p, m.ring[k]? = some p → p.uuid ∈ uuids

theorem BuiltFrom.clear (h : m.BuiltFrom uuids) (hnc : NoCollision uuids) (hsp : sp.uuid ∈ uuids) :
    m.Clear sp.uuid := by
  intro k hk p hp
  by_contra hne
  exact hnc p.uuid (h.uuid_mem k p hp) sp.uuid hsp hne k (h.wf.owned k p hp) hk

theorem BuiltFrom.insertPeer (h : m.BuiltFrom uuids) (hnc : NoCollision uuids) (hsp : sp.uuid ∈ uuids) :
    (m.insertPeer sp).BuiltFrom uuids where
  wf :=
    have hwf := h.wf.insertRing (h.clear hnc hsp)
    ⟨hwf.owned, hwf.recorded⟩
  uuid_mem k p hp := by
    rw [PeerMap.insertPeer, insertUuid_ring, insertRing_ring, getElem?_setAll] at hp
    split at hp
    · obtain rfl : sp = p := Option.some.inj hp
      exact hsp
    · exact h.uuid_mem k p hp

theorem BuiltFrom.removeUrl (h : m.BuiltFrom uuids) (url : Bytes) : (m.removeUrl url).BuiltFrom uuids := by
  have hwf := h.wf.removeRing url
  rcases hurl : m.urlToUuid url with _ | uuid
  · rw [removeUrl_of_none hurl]
    exact h
  · rw [removeRing_of_some hurl] at hwf
    rw [PeerMap.removeUrl, removeRing_of_some hurl]
    refine ⟨⟨hwf.owned, hwf.recorded⟩, ?_⟩
    intro k p hp
    change (eraseAll (points uuid) m.ring)[k]? = some p at hp
    rw [getElem?_eraseAll] at hp
    split at hp
    · simp at hp
    · exact h.uuid_mem k p hp

/-- The calls keep the map well-formed, one by one. -/
theorem BuiltFrom.calls (h : m.BuiltFrom uuids) (hnc : NoCollision uuids) {calls : List PeerCall}
    (hcalls : calls.filterMap PeerCall.uuid? ⊆ uuids) : (calls.foldl call m).BuiltFrom uuids := by
  induction calls generalizing m with
  | nil => exact h
  | cons c calls ih =>
    rcases c with sp | url
    · rw [List.filterMap_cons_some (rfl : PeerCall.uuid? (.insertPeer sp) = some sp.uuid),
        List.cons_subset] at hcalls
      rw [List.foldl_cons, call]
      exact ih (h.insertPeer hnc hcalls.1) hcalls.2
    · rw [List.foldl_cons, call]
      exact ih (h.removeUrl url) hcalls

theorem builtFrom_built {calls : List PeerCall} (hnc : NoCollision uuids)
    (hcalls : calls.filterMap PeerCall.uuid? ⊆ uuids) : (built calls).BuiltFrom uuids :=
  BuiltFrom.calls ⟨Wf.empty, fun k p h => by simp [empty] at h⟩ hnc hcalls

/-! ## One call -/

/-- A key whose owner changes is a key of the new peer. -/
theorem lookup_insertPeer {key : Bytes} (hne : (m.insertPeer sp).lookup key ≠ m.lookup key) :
    (m.insertPeer sp).lookup key = .ok sp := by
  rcases hnext : next (setAll (points sp.uuid) sp m.ring) (hash key 0) with _ | ⟨k, p⟩
  · have hpoint := next_eq_none_iff.mp hnext (hash sp.uuid 1)
    rw [getElem?_setAll, if_pos (hash_mem_points sp.uuid)] at hpoint
    exact absurd hpoint (by simp)
  have hlook : (m.insertPeer sp).lookup key = .ok p :=
    lookup_eq_ok_iff.mpr ⟨k, by rw [insertPeer, insertUuid_ring, insertRing_ring, hnext]⟩
  rcases next_setAll hnext with rfl | hold
  · exact hlook
  · exact absurd (hlook.trans (lookup_eq_ok_iff.mpr ⟨k, hold⟩).symm) hne

/-- A key whose owner changes was a key of the peer with the url. -/
theorem lookup_removeUrl (hwf : m.Wf) {key : Bytes}
    (hne : (m.removeUrl url).lookup key ≠ m.lookup key) :
    ∃ p, m.lookup key = .ok p ∧ p.url = url ∧ m.urlToUuid url = some p.uuid := by
  rcases hurl : m.urlToUuid url with _ | uuid
  · rw [removeUrl_of_none hurl] at hne
    exact absurd rfl hne
  obtain ⟨p, rfl, hpurl, hp⟩ := hwf.recorded url uuid hurl
  refine ⟨p, ?_, hpurl, rfl⟩
  rcases hnext : next m.ring (hash key 0) with _ | ⟨k, q⟩
  · have hpoint := next_eq_none_iff.mp hnext (hash p.uuid 1)
    rw [hp _ (hash_mem_points p.uuid)] at hpoint
    exact absurd hpoint (by simp)
  have hlook : m.lookup key = .ok q := lookup_eq_ok_iff.mpr ⟨k, hnext⟩
  by_cases hk : k ∈ points p.uuid
  · have hq := (next_eq_some_iff.mp hnext).1
    rw [hp k hk, Option.some.injEq] at hq
    rw [hlook, hq]
  · -- the point after the key is still there
    have hafter : (m.removeUrl url).lookup key = .ok q := by
      rw [lookup_eq_ok_iff, removeUrl_ring hurl]
      exact ⟨k, next_eraseAll hnext hk⟩
    exact absurd (hafter.trans hlook.symm) hne

/-- A peer that was not on the ring comes and goes. -/
theorem removeUrl_insertPeer_ring (hclear : m.Clear sp.uuid)
    (hnew : ∀ (k : ℕ) p, m.ring[k]? = some p → p.uuid ≠ sp.uuid) :
    ((m.insertPeer sp).removeUrl sp.url).ring = m.ring := by
  have hurl : (m.insertPeer sp).urlToUuid sp.url = some sp.uuid := by
    rw [insertPeer, insertUuid_urlToUuid, insertRing_urlToUuid, Function.update_self]
  rw [removeUrl_ring hurl, insertPeer, insertUuid_ring, insertRing_ring]
  refine eraseAll_setAll ?_
  intro k hk
  rw [Option.eq_none_iff_forall_ne_some]
  intro p hp
  exact hnew k p hp (hclear k hk p hp)

/-! ## The order of insertion -/

theorem insertAll_ring (sps : List Peer) (m : PeerMap) :
    (m.insertAll sps).ring = sps.foldl (fun ring sp => setAll (points sp.uuid) sp ring) m.ring := by
  induction sps generalizing m with
  | nil => rfl
  | cons sp sps ih =>
    rw [insertAll, List.foldl_cons, ← insertAll, ih, insertPeer, insertUuid_ring, insertRing_ring,
      List.foldl_cons]

/-- Peers with uuids of their own can be inserted in any order. -/
theorem insertAll_perm_ring {sps sps' : List Peer} (hperm : sps.Perm sps')
    (hnodup : (sps.map fun sp => sp.uuid).Nodup) (hnc : NoCollision (sps.map fun sp => sp.uuid))
    (m : PeerMap) : (m.insertAll sps).ring = (m.insertAll sps').ring := by
  rw [insertAll_ring, insertAll_ring]
  refine hperm.foldl_eq' ?_ m.ring
  intro sp hsp sp' hsp' ring
  by_cases heq : sp = sp'
  · rw [heq]
  · have hne : sp'.uuid ≠ sp.uuid := fun h => heq (List.inj_on_of_nodup_map hnodup hsp hsp' h.symm)
    exact setAll_comm (hnc sp'.uuid (List.mem_map_of_mem hsp') sp.uuid (List.mem_map_of_mem hsp) hne)

/-- Consistent hashing: a call moves keys only to the peer that it inserts or away from the peer that it
removes, a new peer that is removed again leaves no trace, and the order of insertion does not matter. -/
theorem consistent_hashing (calls : List PeerCall) (sp : Peer) (url : Bytes) (sps sps' : List Peer)
    (hnc : NoCollision (calls.filterMap PeerCall.uuid? ++ sp.uuid :: sps.map fun sp => sp.uuid))
    (hperm : sps.Perm sps') (hnodup : (sps.map fun sp => sp.uuid).Nodup) :
    (∀ key, ((built calls).insertPeer sp).lookup key ≠ (built calls).lookup key →
      ((built calls).insertPeer sp).lookup key = .ok sp) ∧
    (∀ key, ((built calls).removeUrl url).lookup key ≠ (built calls).lookup key →
      ∃ p, (built calls).lookup key = .ok p ∧ p.url = url ∧ (built calls).urlToUuid url = some p.uuid) ∧
    ((∀ (k : ℕ) p, (built calls).ring[k]? = some p → p.uuid ≠ sp.uuid) →
      (((built calls).insertPeer sp).removeUrl sp.url).lookup = (built calls).lookup) ∧
    ((built calls).insertAll sps).lookup = ((built calls).insertAll sps').lookup := by
  have hbuilt := builtFrom_built hnc (List.subset_append_left _ _)
  have hsp : sp.uuid ∈ calls.filterMap PeerCall.uuid? ++ sp.uuid :: sps.map fun sp => sp.uuid := by simp
  have hncs : NoCollision (sps.map fun sp => sp.uuid) := by
    refine hnc.of_subset ?_
    intro uuid hu
    exact List.mem_append_right _ (List.mem_cons_of_mem _ hu)
  refine ⟨?_, ?_, ?_, ?_⟩
  · intro key hne
    exact lookup_insertPeer hne
  · intro key hne
    exact lookup_removeUrl hbuilt.wf hne
  · intro hnew
    exact lookup_congr (removeUrl_insertPeer_ring (hbuilt.clear hnc hsp) hnew)
  · exact lookup_congr (insertAll_perm_ring hperm hnodup hncs _)

/-- The process itself and one other peer. -/
theorem consistent_hashing_pair :
    let self : Peer := ⟨bytes "u1", bytes "http://h1", .upstream⟩
    let other : Peer := ⟨bytes "u2", bytes "http://h2", .http (bytes "http://h2")⟩
    let m := built [.insertPeer self]
    ((m.insertPeer other).removeUrl other.url).lookup = m.lookup ∧
      (m.insertAll [self, other]).lookup = (m.insertAll [other, self]).lookup := by
  intro self other m
  have hpair : NoCollision [self.uuid, other.uuid] := by decide +kernel
  have hnc : NoCollision ([self.uuid] ++ other.uuid :: [self.uuid, other.uuid]) :=
    hpair.of_subset (by simp)
  have hlaws := consistent_hashing [.insertPeer self] other other.url [self, other] [other, self] hnc
    (.swap other self []) (by decide)
  refine ⟨hlaws.2.2.1 ?_, hlaws.2.2.2⟩
  intro k p hp
  have hring : m.ring = setAll (points self.uuid) self ∅ := by
    change (empty.insertPeer self).ring = _
    rw [insertPeer, insertUuid_ring, insertRing_ring, empty]
  rw [hring, getElem?_setAll] at hp
  split at hp
  · obtain rfl : self = p := Option.some.inj hp
    decide
  · simp at hp

end PeerMap

end Fs123
