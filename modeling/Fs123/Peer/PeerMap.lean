import Fs123.Common.HashRing
import Fs123.Core.Exn
import Fs123.Core.Threeroe
import Mathlib.Data.List.Perm.Basic
import Mathlib.Logic.Function.Basic

/-!
# The peer map

The model of `peer_map_t`: three maps describe which peers there are. `ring` and `url_to_uuid` are guarded by
one mutex and `uuid_to_peer` by another, so `insert_peer` and `remove_url` each have two critical sections,
which are functions of their own here. A peer owns `Nrep` points of the ring, the hashes of its uuid, and a
key belongs to the owner of the first point after its own hash.
-/

namespace Fs123

open Cxx HashRing

/-- What the `be` of a peer points to: the upstream backend of this process, or the http backend that was
made for the url of another one. -/
inductive PeerBackend where
  | upstream
  | http (peerurl : Bytes)
  deriving Repr, DecidableEq

/-- `peer`. -/
structure Peer where
  uuid : Bytes
  url : Bytes
  be : PeerBackend
  deriving Repr, DecidableEq

/-- `peer_map_t`. -/
@[ext] structure PeerMap where
  ring : Std.ExtTreeMap ℕ Peer
  urlToUuid : Bytes → Option Bytes
  uuidToPeer : Bytes → Option Peer

namespace PeerMap

/-- The map as it is constructed. -/
def empty : PeerMap := ⟨∅, fun _ => none, fun _ => none⟩

def Nrep : ℕ := 100

/-- `hash(s, n1)`. -/
def hash (s : Bytes) (n1 : ℕ) : ℕ := (threeroe s (UInt64.ofNat n1) 0).1.toNat

/-- One turn of the loop in `insert_peer`: `rhpeersp` is what the point referred to. -/
def insertPoint (sp : Peer) (m : PeerMap) (i : ℕ) : PeerMap :=
  let h := hash sp.uuid i
  let urlToUuid :=
    match m.ring[h]? with
    | some rhpeersp =>
      if i = 1 then Function.update m.urlToUuid rhpeersp.url none else m.urlToUuid
    | none => m.urlToUuid
  { m with ring := m.ring.insert h sp, urlToUuid }

/-- `insert_peer(sp)`, as long as it holds `mtx`. -/
def insertRing (m : PeerMap) (sp : Peer) : PeerMap :=
  let m := (List.range' 1 Nrep).foldl (insertPoint sp) m
  { m with urlToUuid := Function.update m.urlToUuid sp.url (some sp.uuid) }

/-- `insert_peer(sp)`, when it holds `uu2pmtx`. -/
def insertUuid (m : PeerMap) (sp : Peer) : PeerMap :=
  { m with uuidToPeer := Function.update m.uuidToPeer sp.uuid (some sp) }

/-- `insert_peer(sp)`. -/
def insertPeer (m : PeerMap) (sp : Peer) : PeerMap := (m.insertRing sp).insertUuid sp

/-- `remove_url(url)`, as long as it holds `mtx`: the uuid that it found. -/
def removeRing (m : PeerMap) (url : Bytes) : Option Bytes × PeerMap :=
  match m.urlToUuid url with
  | none => (none, m)
  | some uuid =>
    (some uuid,
      { m with
        ring := (List.range' 1 Nrep).foldl (fun ring i => ring.erase (hash uuid i)) m.ring
        urlToUuid := Function.update m.urlToUuid url none })

/-- `remove_url(url)`, when it holds `uu2pmtx`. -/
def removeUuid (m : PeerMap) (uuid : Bytes) : PeerMap :=
  { m with uuidToPeer := Function.update m.uuidToPeer uuid none }

/-- `remove_url(url)`. -/
def removeUrl (m : PeerMap) (url : Bytes) : PeerMap :=
  match m.removeRing url with
  | (none, m) => m
  | (some uuid, m) => m.removeUuid uuid

/-- `check_url(url)`. -/
def checkUrl (m : PeerMap) (url : Bytes) : Bool := (m.urlToUuid url).isSome

/-- `lookup(key)`. -/
def lookup (m : PeerMap) (key : Bytes) : Res Peer :=
  match next m.ring (hash key 0) with
  | some (_, sp) => .ok sp
  | none => throwE .runtimeError (bytes "peer_map::lookup empty cache?  That shouldn't happen")

/-! ## What the critical sections do -/

/-- The points of a peer. -/
def points (uuid : Bytes) : List ℕ := (List.range' 1 Nrep).map (hash uuid)

variable {m : PeerMap} {sp : Peer} {uuid url key : Bytes} {k : ℕ}

theorem hash_mem_points (uuid : Bytes) : hash uuid 1 ∈ points uuid :=
  List.mem_map.mpr ⟨1, by decide, rfl⟩

@[simp] theorem insertUuid_ring : (m.insertUuid sp).ring = m.ring := rfl

@[simp] theorem removeUuid_ring : (m.removeUuid uuid).ring = m.ring := rfl

@[simp] theorem insertUuid_urlToUuid : (m.insertUuid sp).urlToUuid = m.urlToUuid := rfl

@[simp] theorem removeUuid_urlToUuid : (m.removeUuid uuid).urlToUuid = m.urlToUuid := rfl

theorem foldl_insertPoint_ring (sp : Peer) (is : List ℕ) (m : PeerMap) :
    (is.foldl (insertPoint sp) m).ring = setAll (is.map (hash sp.uuid)) sp m.ring := by
  induction is generalizing m with
  | nil => rfl
  | cons i is ih =>
    rw [List.foldl_cons, ih]
    rfl

theorem foldl_insertPoint_uuidToPeer (sp : Peer) (is : List ℕ) (m : PeerMap) :
    (is.foldl (insertPoint sp) m).uuidToPeer = m.uuidToPeer := by
  induction is generalizing m with
  | nil => rfl
  | cons i is ih =>
    rw [List.foldl_cons, ih]
    rfl

/-- After the first turn the loop leaves `url_to_uuid` alone. -/
theorem foldl_insertPoint_urlToUuid (sp : Peer) {is : List ℕ} (his : 1 ∉ is) (m : PeerMap) :
    (is.foldl (insertPoint sp) m).urlToUuid = m.urlToUuid := by
  induction is generalizing m with
  | nil => rfl
  | cons i is ih =>
    rw [List.mem_cons, not_or] at his
    rw [List.foldl_cons, ih his.2, insertPoint]
    dsimp only
    split
    · rw [if_neg (Ne.symm his.1)]
    · rfl

/-- `url_to_uuid` without the url of the peer that is being replaced, if there is one. -/
def unreplaced (m : PeerMap) (uuid : Bytes) : Bytes → Option Bytes :=
  match m.ring[hash uuid 1]? with
  | some rhpeersp => Function.update m.urlToUuid rhpeersp.url none
  | none => m.urlToUuid

@[simp] theorem insertRing_ring : (m.insertRing sp).ring = setAll (points sp.uuid) sp m.ring := by
  rw [insertRing]
  dsimp only
  rw [foldl_insertPoint_ring, points]

@[simp] theorem insertRing_uuidToPeer : (m.insertRing sp).uuidToPeer = m.uuidToPeer := by
  rw [insertRing]
  dsimp only
  rw [foldl_insertPoint_uuidToPeer]

theorem insertRing_urlToUuid :
    (m.insertRing sp).urlToUuid = Function.update (m.unreplaced sp.uuid) sp.url (some sp.uuid) := by
  have hloop : ((List.range' 1 Nrep).foldl (insertPoint sp) m).urlToUuid = m.unreplaced sp.uuid := by
    rw [Nrep, List.range'_succ, List.foldl_cons, foldl_insertPoint_urlToUuid sp (by decide)]
    rfl
  rw [insertRing, hloop]

theorem removeRing_of_some (hurl : m.urlToUuid url = some uuid) : m.removeRing url =
    (some uuid,
      { m with
        ring := eraseAll (points uuid) m.ring
        urlToUuid := Function.update m.urlToUuid url none }) := by
  rw [removeRing, hurl, points, eraseAll, List.foldl_map]

theorem removeRing_of_none (hurl : m.urlToUuid url = none) : m.removeRing url = (none, m) := by
  rw [removeRing, hurl]

theorem removeUrl_ring (hurl : m.urlToUuid url = some uuid) :
    (m.removeUrl url).ring = eraseAll (points uuid) m.ring := by
  rw [removeUrl, removeRing_of_some hurl, removeUuid_ring]

theorem removeUrl_urlToUuid (hurl : m.urlToUuid url = some uuid) :
    (m.removeUrl url).urlToUuid = Function.update m.urlToUuid url none := by
  rw [removeUrl, removeRing_of_some hurl, removeUuid_urlToUuid]

theorem removeUrl_of_none (hurl : m.urlToUuid url = none) : m.removeUrl url = m := by
  rw [removeUrl, removeRing_of_none hurl]

theorem lookup_eq_ok_iff : m.lookup key = .ok sp ↔ ∃ k, next m.ring (hash key 0) = some (k, sp) := by
  rw [lookup]
  rcases next m.ring (hash key 0) with _ | ⟨k, q⟩
  · simp
  · simp

/-- The lookup sees nothing of the map but the ring. -/
theorem lookup_congr {m' : PeerMap} (hring : m.ring = m'.ring) : m.lookup = m'.lookup := by
  funext key
  rw [lookup, lookup, hring]

/-! ## The ring and the urls -/

/-- Every point of the ring belongs to its peer, and every recorded url to a peer that has all of its
points. -/
structure Wf (m : PeerMap) : Prop where
  owned : ∀ k p, m.ring[k]? = some p → k ∈ points p.uuid
  recorded : ∀ url uuid, m.urlToUuid url = some uuid →
    ∃ p, p.uuid = uuid ∧ p.url = url ∧ ∀ k ∈ points uuid, m.ring[k]? = some p

/-- The points that a peer with this uuid would get belong to no other peer. -/
def Clear (m : PeerMap) (uuid : Bytes) : Prop :=
  ∀ k ∈ points uuid, ∀ p, m.ring[k]? = some p → p.uuid = uuid

theorem Wf.empty : empty.Wf where
  owned k p h := by simp [PeerMap.empty] at h
  recorded url uuid h := by simp [PeerMap.empty] at h

/-- The url of the peer that is being replaced is no longer recorded. -/
theorem unreplaced_eq_some (hwf : m.Wf) {uuid' : Bytes} (h : m.unreplaced uuid url = some uuid') :
    m.urlToUuid url = some uuid' ∧ uuid' ≠ uuid := by
  have hold : m.urlToUuid url = some uuid' := by
    rcases hfirst : m.ring[hash uuid 1]? with _ | p
    · rwa [unreplaced, hfirst] at h
    · rw [unreplaced, hfirst] at h
      dsimp only at h
      rw [Function.update_apply] at h
      split at h
      · simp at h
      · exact h
  refine ⟨hold, ?_⟩
  rintro rfl
  -- the recorded peer is the one that the first point refers to
  obtain ⟨p, -, hpurl, hp⟩ := hwf.recorded url uuid' hold
  rw [unreplaced, hp _ (hash_mem_points uuid')] at h
  simp [hpurl] at h

theorem Wf.insertRing (hwf : m.Wf) (hclear : m.Clear sp.uuid) : (m.insertRing sp).Wf where
  owned k p h := by
    rw [insertRing_ring, getElem?_setAll] at h
    split at h
    · next hk =>
      obtain rfl : sp = p := Option.some.inj h
      exact hk
    · exact hwf.owned k p h
  recorded url uuid h := by
    rw [insertRing_urlToUuid, Function.update_apply] at h
    split at h
    · next hurl =>
      refine ⟨sp, Option.some.inj h, hurl.symm, ?_⟩
      intro k hk
      rw [insertRing_ring, getElem?_setAll, Option.some.inj h, if_pos hk]
    · obtain ⟨hold, hne⟩ := unreplaced_eq_some hwf h
      obtain ⟨p, hpuuid, hpurl, hp⟩ := hwf.recorded url uuid hold
      refine ⟨p, hpuuid, hpurl, ?_⟩
      intro k hk
      have hother : k ∉ points sp.uuid := by
        intro hmem
        exact hne (hpuuid.symm.trans (hclear k hmem p (hp k hk)))
      rw [insertRing_ring, getElem?_setAll, if_neg hother]
      exact hp k hk

theorem Wf.removeRing (hwf : m.Wf) (url : Bytes) : (m.removeRing url).2.Wf := by
  rcases hurl : m.urlToUuid url with _ | uuid
  · rw [removeRing_of_none hurl]
    exact hwf
  rw [removeRing_of_some hurl]
  obtain ⟨p, hpuuid, hpurl, hp⟩ := hwf.recorded url uuid hurl
  constructor
  · intro k q h
    change (eraseAll (points uuid) m.ring)[k]? = some q at h
    rw [getElem?_eraseAll] at h
    split at h
    · simp at h
    · exact hwf.owned k q h
  · intro url' uuid' h
    change Function.update m.urlToUuid url none url' = some uuid' at h
    rw [Function.update_apply] at h
    split at h
    · simp at h
    next hne =>
    obtain ⟨q, hquuid, hqurl, hq⟩ := hwf.recorded url' uuid' h
    refine ⟨q, hquuid, hqurl, ?_⟩
    intro k hk
    have hother : k ∉ points uuid := by
      intro hmem
      -- the point would belong to both peers, and they have different urls
      have heq : p = q := Option.some.inj ((hp k hmem).symm.trans (hq k hk))
      exact hne (hqurl.symm.trans ((congrArg Peer.url heq).symm.trans hpurl))
    change (eraseAll (points uuid) m.ring)[k]? = some q
    rw [getElem?_eraseAll, if_neg hother]
    exact hq k hk

end PeerMap

end Fs123
