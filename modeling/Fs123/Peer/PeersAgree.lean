import Fs123.Peer.PeerSteps

/-!
# The three maps of the peer map agree

Between the two critical sections of a call the maps describe different peers. `settled` is the peer map
as it will be when the calls in progress have ended, and there the maps agree, as long as the second
sections of the calls about one uuid come in the order of the first ones.
-/

namespace Fs123

open Cxx HashRing Transition

namespace PeerMap

variable {m : PeerMap} {sp : Peer} {url : Bytes} {k : ℕ}

/-- The maps describe the same peers, `me` is one of them and every key has an owner. -/
structure Agrees (m : PeerMap) (me : Peer) : Prop where
  listed_iff_owner : ∀ uuid, (∃ p, m.uuidToPeer uuid = some p) ↔
    ∃ (k : ℕ) (p : Peer), m.ring[k]? = some p ∧ p.uuid = uuid
  listed_iff_recorded : ∀ uuid, (∃ p, m.uuidToPeer uuid = some p) ↔
    ∃ url, m.urlToUuid url = some uuid
  points_owned : ∀ uuid p, m.uuidToPeer uuid = some p →
    p.uuid = uuid ∧ ∀ k ∈ points uuid, m.ring[k]? = some p
  owns : ∀ k ∈ points me.uuid, m.ring[k]? = some me
  lookup_ok : ∀ key, ∃ p, m.lookup key = .ok p

/-- A well-formed map whose peers are all recorded and listed. -/
structure Sound (m : PeerMap) : Prop extends m.Wf where
  complete : ∀ (k : ℕ) p, m.ring[k]? = some p → m.urlToUuid p.url = some p.uuid
  listed : ∀ (k : ℕ) p, m.ring[k]? = some p → m.uuidToPeer p.uuid = some p
  owner : ∀ uuid p, m.uuidToPeer uuid = some p → p.uuid = uuid ∧ ∃ k : ℕ, m.ring[k]? = some p

theorem Sound.empty : empty.Sound where
  toWf := Wf.empty
  complete k p h := by simp [PeerMap.empty] at h
  listed k p h := by simp [PeerMap.empty] at h
  owner uuid p h := by simp [PeerMap.empty] at h

/-- A peer has all of its points or none. -/
theorem Sound.all_points (h : m.Sound) (hk : m.ring[k]? = some sp) :
    ∀ j ∈ points sp.uuid, m.ring[j]? = some sp := by
  obtain ⟨q, -, -, hq⟩ := h.recorded sp.url sp.uuid (h.complete k sp hk)
  have howner := hq k (h.owned k sp hk)
  rw [hk, Option.some.injEq] at howner
  subst howner
  exact hq

theorem Sound.agrees (h : m.Sound) {me : Peer} (hme : ∀ k ∈ points me.uuid, m.ring[k]? = some me) :
    m.Agrees me where
  listed_iff_owner uuid := by
    constructor
    · rintro ⟨p, hp⟩
      obtain ⟨huuid, k, hk⟩ := h.owner uuid p hp
      exact ⟨k, p, hk, huuid⟩
    · rintro ⟨k, p, hk, rfl⟩
      exact ⟨p, h.listed k p hk⟩
  listed_iff_recorded uuid := by
    constructor
    · rintro ⟨p, hp⟩
      obtain ⟨rfl, k, hk⟩ := h.owner uuid p hp
      exact ⟨p.url, h.complete k p hk⟩
    · rintro ⟨url, hurl⟩
      obtain ⟨p, rfl, -, hp⟩ := h.recorded url uuid hurl
      exact ⟨p, h.listed _ p (hp _ (hash_mem_points p.uuid))⟩
  points_owned uuid p hp := by
    obtain ⟨rfl, k, hk⟩ := h.owner uuid p hp
    exact ⟨rfl, h.all_points hk⟩
  owns := hme
  lookup_ok key := by
    rcases hnext : next m.ring (hash key 0) with _ | ⟨k, p⟩
    · have hpoint := next_eq_none_iff.mp hnext (hash me.uuid 1)
      rw [hme _ (hash_mem_points me.uuid)] at hpoint
      exact absurd hpoint (by simp)
    · exact ⟨p, lookup_eq_ok_iff.mpr ⟨k, hnext⟩⟩

/-- Insert a peer whose url is not recorded. -/
theorem Sound.insertPeer (h : m.Sound) (hclear : m.Clear sp.uuid) (hurl : m.urlToUuid sp.url = none) :
    (m.insertPeer sp).Sound := by
  have hwf := h.toWf.insertRing hclear
  have hpoint : ∀ (k : ℕ) p, (m.insertPeer sp).ring[k]? = some p →
      p = sp ∨ m.ring[k]? = some p ∧ p.uuid ≠ sp.uuid := by
    intro k p hp
    rw [PeerMap.insertPeer, insertUuid_ring, insertRing_ring, getElem?_setAll] at hp
    split at hp
    · exact .inl (Option.some.inj hp).symm
    · next hk => exact .inr ⟨hp, fun heq => hk (heq ▸ h.owned k p hp)⟩
  refine ⟨⟨hwf.owned, hwf.recorded⟩, ?_, ?_, ?_⟩
  · intro k p hp
    rw [PeerMap.insertPeer, insertUuid_urlToUuid, insertRing_urlToUuid]
    rcases hpoint k p hp with rfl | ⟨hold, hne⟩
    · rw [Function.update_self]
    · have hrec := h.complete k p hold
      have hurlne : p.url ≠ sp.url := by
        rintro heq
        rw [heq, hurl] at hrec
        simp at hrec
      rw [Function.update_of_ne hurlne]
      rcases hfirst : m.ring[hash sp.uuid 1]? with _ | old
      · rw [unreplaced, hfirst]
        exact hrec
      · rw [unreplaced, hfirst]
        dsimp only
        rw [Function.update_of_ne, hrec]
        -- the peer that is being replaced has another uuid, so its url is another one
        rintro heq
        have hold := h.complete _ old hfirst
        rw [← heq, hrec, hclear _ (hash_mem_points sp.uuid) old hfirst, Option.some.injEq] at hold
        exact hne hold
  · intro k p hp
    rw [PeerMap.insertPeer, insertUuid, insertRing_uuidToPeer]
    dsimp only
    rcases hpoint k p hp with rfl | ⟨hold, hne⟩
    · rw [Function.update_self]
    · rw [Function.update_of_ne hne, h.listed k p hold]
  · intro uuid p hp
    rw [PeerMap.insertPeer, insertUuid_ring, insertRing_ring]
    rw [PeerMap.insertPeer, insertUuid, insertRing_uuidToPeer] at hp
    dsimp only at hp
    rw [Function.update_apply] at hp
    split at hp
    · next huuid =>
      obtain rfl : sp = p := Option.some.inj hp
      refine ⟨huuid.symm, hash sp.uuid 1, ?_⟩
      rw [getElem?_setAll, if_pos (hash_mem_points sp.uuid)]
    · next hne =>
      obtain ⟨huuid, k, hk⟩ := h.owner uuid p hp
      refine ⟨huuid, k, ?_⟩
      have hother : k ∉ points sp.uuid := fun hmem => hne (huuid.symm.trans (hclear k hmem p hk))
      rw [getElem?_setAll, if_neg hother, hk]

theorem Sound.removeUrl (h : m.Sound) (url : Bytes) : (m.removeUrl url).Sound := by
  have hwf := h.toWf.removeRing url
  rcases hurl : m.urlToUuid url with _ | uuid
  · rw [removeUrl_of_none hurl]
    exact h
  rw [removeRing_of_some hurl] at hwf
  obtain ⟨p, rfl, -, hp⟩ := h.recorded url uuid hurl
  have hpoint : ∀ (k : ℕ) q, (m.removeUrl url).ring[k]? = some q ↔
      m.ring[k]? = some q ∧ q.uuid ≠ p.uuid := by
    intro k q
    rw [removeUrl_ring hurl, getElem?_eraseAll]
    split
    · next hk =>
      rw [hp k hk, Option.some.injEq]
      constructor
      · exact fun hq => absurd hq (by simp)
      · rintro ⟨rfl, hne⟩
        exact absurd rfl hne
    · next hk =>
      constructor
      · intro hq
        exact ⟨hq, fun heq => hk (heq ▸ h.owned k q hq)⟩
      · exact fun hq => hq.1
  have hrecord := removeUrl_urlToUuid hurl
  have hlist : (m.removeUrl url).uuidToPeer = Function.update m.uuidToPeer p.uuid none := by
    rw [PeerMap.removeUrl, removeRing_of_some hurl]
    rfl
  have hwf' : (m.removeUrl url).Wf := by
    rw [PeerMap.removeUrl, removeRing_of_some hurl]
    exact ⟨hwf.owned, hwf.recorded⟩
  refine ⟨hwf', ?_, ?_, ?_⟩
  · intro k q hq
    obtain ⟨hold, hne⟩ := (hpoint k q).mp hq
    have hrec := h.complete k q hold
    rw [hrecord, Function.update_of_ne, hrec]
    rintro rfl
    exact hne (Option.some.inj (hrec.symm.trans hurl))
  · intro k q hq
    obtain ⟨hold, hne⟩ := (hpoint k q).mp hq
    rw [hlist, Function.update_of_ne hne, h.listed k q hold]
  · intro uuid q hq
    rw [hlist, Function.update_apply] at hq
    split at hq
    · simp at hq
    · next hne =>
      obtain ⟨rfl, k, hk⟩ := h.owner uuid q hq
      exact ⟨rfl, k, (hpoint k q).mpr ⟨hk, hne⟩⟩

theorem unreplaced_congr {m' : PeerMap} (hring : m'.ring = m.ring) (hurls : m'.urlToUuid = m.urlToUuid)
    (uuid : Bytes) : m'.unreplaced uuid = m.unreplaced uuid := by
  rw [unreplaced, unreplaced, hring, hurls]

end PeerMap

/-! ## The map as it will be -/

open PeerMap

section Settle

variable {m : PeerMap} {sp : Peer} {calls : List (PeerThread × Second)}

/-- What the calls that are in progress make of the map. -/
def settle (calls : List (PeerThread × Second)) (m : PeerMap) : PeerMap :=
  calls.foldl (fun m c => c.2.run m) m

theorem Second.run_ring (c : Second) (m : PeerMap) : (c.run m).ring = m.ring := by
  cases c <;> rfl

theorem Second.run_urlToUuid (c : Second) (m : PeerMap) : (c.run m).urlToUuid = m.urlToUuid := by
  cases c <;> rfl

@[simp] theorem settle_ring (calls : List (PeerThread × Second)) (m : PeerMap) :
    (settle calls m).ring = m.ring := by
  induction calls generalizing m with
  | nil => rfl
  | cons c calls ih =>
    rw [settle, List.foldl_cons, ← settle, ih, Second.run_ring]

@[simp] theorem settle_urlToUuid (calls : List (PeerThread × Second)) (m : PeerMap) :
    (settle calls m).urlToUuid = m.urlToUuid := by
  induction calls generalizing m with
  | nil => rfl
  | cons c calls ih =>
    rw [settle, List.foldl_cons, ← settle, ih, Second.run_urlToUuid]

/-- The second sections see nothing but `uuid_to_peer`. -/
theorem settle_uuidToPeer {m m' : PeerMap} (h : m.uuidToPeer = m'.uuidToPeer)
    (calls : List (PeerThread × Second)) : (settle calls m).uuidToPeer = (settle calls m').uuidToPeer := by
  induction calls generalizing m m' with
  | nil => exact h
  | cons c calls ih =>
    refine ih ?_
    rcases c with ⟨th, sp | uuid⟩
    · exact congrArg (fun uu => Function.update uu sp.uuid (some sp)) h
    · exact congrArg (fun uu => Function.update uu uuid none) h

/-- The second sections of calls about different uuids commute. -/
theorem Second.run_comm {c c' : Second} (hne : c.uuid ≠ c'.uuid) (m : PeerMap) :
    c.run (c'.run m) = c'.run (c.run m) := by
  refine PeerMap.ext ?_ ?_ ?_
  · simp only [Second.run_ring]
  · simp only [Second.run_urlToUuid]
  · cases c <;> cases c' <;> exact Function.update_comm hne.symm _ _ _

/-- A call may get ahead of the calls about other uuids. -/
theorem settle_ahead {before after : List (PeerThread × Second)} {c : PeerThread × Second}
    (hbefore : ∀ c' ∈ before, c'.2.uuid ≠ c.2.uuid) (m : PeerMap) :
    settle (before ++ c :: after) m = settle (before ++ after) (c.2.run m) := by
  induction before generalizing m with
  | nil => rfl
  | cons c' before ih =>
    rw [List.forall_mem_cons] at hbefore
    rw [List.cons_append, settle, List.foldl_cons, ← settle, ih hbefore.2,
      Second.run_comm hbefore.1.symm]
    rfl

theorem settle_concat (calls : List (PeerThread × Second)) (c : PeerThread × Second) (m : PeerMap) :
    settle (calls ++ [c]) m = c.2.run (settle calls m) := by
  rw [settle, List.foldl_concat, ← settle]

/-- An insertion that is in progress, seen in the map as it will be. -/
theorem settle_insertRing (th : PeerThread) (calls : List (PeerThread × Second)) (m : PeerMap) (sp : Peer) :
    settle (calls ++ [(th, .insert sp)]) (m.insertRing sp) = (settle calls m).insertPeer sp := by
  rw [settle_concat]
  refine PeerMap.ext ?_ ?_ ?_
  · simp only [Second.run_ring, settle_ring, insertRing_ring, insertPeer, insertUuid_ring]
  · simp only [Second.run_urlToUuid, settle_urlToUuid, insertPeer, insertUuid_urlToUuid,
      insertRing_urlToUuid]
    rw [unreplaced_congr (settle_ring calls m) (settle_urlToUuid calls m)]
  · have hsame : (settle calls (m.insertRing sp)).uuidToPeer = (settle calls m).uuidToPeer :=
      settle_uuidToPeer insertRing_uuidToPeer calls
    simp only [Second.run, insertPeer, insertUuid, insertRing_uuidToPeer, hsame]

/-- A removal that is in progress, seen in the map as it will be. -/
theorem settle_removeRing (th : PeerThread) (calls : List (PeerThread × Second)) {m : PeerMap}
    {url uuid : Bytes} (hurl : m.urlToUuid url = some uuid) :
    settle (calls ++ [(th, .remove uuid)]) (m.removeRing url).2 = (settle calls m).removeUrl url := by
  have hsettled : (settle calls m).urlToUuid url = some uuid := by rw [settle_urlToUuid, hurl]
  rw [settle_concat, removeRing_of_some hurl, PeerMap.removeUrl, removeRing_of_some hsettled]
  refine PeerMap.ext ?_ ?_ ?_
  · simp only [Second.run_ring, settle_ring, removeUuid_ring]
  · simp only [Second.run_urlToUuid, settle_urlToUuid, removeUuid_urlToUuid]
  · simp only [Second.run, removeUuid]
    rw [settle_uuidToPeer _ calls]
    rfl

end Settle

/-! ## Runs -/

namespace Peers

variable {uuid serverUrl : Bytes} {me : Peer} {s s' : Peers} {l : PeersLabel}

/-- A peer that comes has a uuid of its own and shares no point with another peer, and the second sections
of the calls about one uuid come in the order of the first ones. -/
def Orderly (uuid : Bytes) (s : Peers) : PeersLabel → Prop
  | .connected u => u ≠ uuid ∧ s.map.Clear u
  | .second thread => ∀ before c after, s.inCall = before ++ c :: after → c.1 = thread →
      ∀ c' ∈ before, c'.2.uuid ≠ c.2.uuid
  | _ => True

/-- What holds between the steps: the map as it will be is sound, and nobody is about to insert a url
that is recorded or to remove the process's own. -/
structure Inv (me : Peer) (s : Peers) : Prop where
  sound : (settle s.inCall s.map).Sound
  owns : ∀ k ∈ points me.uuid, s.map.ring[k]? = some me
  connecting : ∀ url, s.connecting = some url → s.map.urlToUuid url = none
  forwarding : ∀ t p, s.forwarding t = some p → p.url ≠ me.url

theorem Inv.init (uuid serverUrl : Bytes) : (init uuid serverUrl).Inv (self uuid serverUrl) where
  sound := Sound.empty.insertPeer (fun k _ p hp => by simp [PeerMap.empty] at hp) rfl
  owns k hk := by
    rw [Peers.init, insertPeer, insertUuid_ring, insertRing_ring, getElem?_setAll, if_pos hk]
  connecting url h := by simp [Peers.init] at h
  forwarding t p h := by simp [Peers.init] at h

/-- Another peer on the ring has another url. -/
theorem Inv.url_ne (h : s.Inv me) {k : ℕ} {p : Peer} (hk : s.map.ring[k]? = some p) (hne : p ≠ me) :
    p.url ≠ me.url := by
  rintro heq
  have hring := settle_ring s.inCall s.map
  have hp := h.sound.complete k p (by rw [hring, hk])
  have hme := h.sound.complete _ me (by rw [hring, h.owns _ (hash_mem_points me.uuid)])
  rw [heq, hme, Option.some.injEq] at hp
  -- the two have the same uuid, so they have the same points
  have hpoint := h.sound.owned k p (by rw [hring, hk])
  rw [← hp] at hpoint
  exact hne (Option.some.inj (hk.symm.trans (h.owns k hpoint)))

theorem forwarding_update (h : s.Inv me) {t : ℕ} (t' : ℕ) (p : Peer)
    (hp : Function.update s.forwarding t none t' = some p) : p.url ≠ me.url := by
  rw [Function.update_apply] at hp
  split at hp
  · simp at hp
  · exact h.forwarding t' p hp

theorem Inv.connected (h : s.Inv me) {url u : Bytes} {be : PeerBackend} (hconn : s.connecting = some url)
    (hne : u ≠ me.uuid) (hclear : s.map.Clear u) (th : PeerThread) :
    Inv me { s with
      map := s.map.insertRing ⟨u, url, be⟩
      connecting := none
      inCall := s.inCall ++ [(th, .insert ⟨u, url, be⟩)] } where
  sound := by
    rw [settle_insertRing]
    refine h.sound.insertPeer ?_ ?_
    · intro k hk p hp
      rw [settle_ring] at hp
      exact hclear k hk p hp
    · rw [settle_urlToUuid, h.connecting url hconn]
  owns k hk := by
    have hother : k ∉ points u := fun hmem => hne (hclear k hmem me (h.owns k hk)).symm
    rw [insertRing_ring, getElem?_setAll, if_neg hother, h.owns k hk]
  connecting url h := by simp at h
  forwarding := h.forwarding

theorem Inv.removeUrl (h : s.Inv me) (thread : PeerThread) {url : Bytes} (hne : url ≠ me.url) :
    (s.removeUrl thread url).Inv me := by
  rcases hurl : s.map.urlToUuid url with _ | u
  · rw [Peers.removeUrl, removeRing_of_none hurl]
    exact h
  have hsound := settle_removeRing thread s.inCall hurl
  rw [removeRing_of_some hurl] at hsound
  obtain ⟨p, hpu, hpurl, hp⟩ := h.sound.recorded url u (by rw [settle_urlToUuid, hurl])
  rw [Peers.removeUrl, removeRing_of_some hurl]
  refine ⟨?_, ?_, ?_, h.forwarding⟩
  · dsimp only at hsound ⊢
    rw [hsound]
    exact h.sound.removeUrl url
  · intro k hk
    have hother : k ∉ points u := by
      intro hmem
      have hpk := hp k hmem
      rw [settle_ring, h.owns k hk, Option.some.injEq] at hpk
      exact hne (hpurl.symm.trans (congrArg Peer.url hpk.symm))
    change (eraseAll (points u) s.map.ring)[k]? = some me
    rw [getElem?_eraseAll, if_neg hother, h.owns k hk]
  · intro url' hconn
    change Function.update s.map.urlToUuid url none url' = none
    rw [Function.update_apply, h.connecting url' hconn, ite_self]

theorem Inv.second (h : s.Inv me) {before after : List (PeerThread × Second)} {c : PeerThread × Second}
    (hcalls : s.inCall = before ++ c :: after) (hfirst : ∀ c' ∈ before, c'.2.uuid ≠ c.2.uuid) :
    Inv me { s with map := c.2.run s.map, inCall := before ++ after } where
  sound := by
    have hsound := h.sound
    rw [hcalls, settle_ahead hfirst] at hsound
    exact hsound
  owns k hk := by
    rw [Second.run_ring]
    exact h.owns k hk
  connecting url hconn := by
    rw [Second.run_urlToUuid]
    exact h.connecting url hconn
  forwarding := h.forwarding

/-- An orderly step keeps the invariant. -/
theorem Inv.step (h : s.Inv (self uuid serverUrl)) (horderly : s.Orderly uuid l)
    (hstep : step serverUrl s l = some s') : s'.Inv (self uuid serverUrl) := by
  cases l with
  | present peerurl =>
    simp only [Peers.step, Option.ite_none_right_eq_some, Option.some.injEq] at hstep
    obtain ⟨-, rfl⟩ := hstep
    split
    · exact h
    · next hunknown =>
      refine ⟨h.sound, h.owns, ?_, h.forwarding⟩
      rintro url ⟨⟩
      simpa [checkUrl] using hunknown
  | connected u =>
    rcases hconn : s.connecting with _ | peerurl
    · simp [Peers.step, hconn] at hstep
    · simp only [Peers.step, hconn, Option.some.injEq] at hstep
      subst hstep
      exact h.connected hconn horderly.1 horderly.2 .listener
  | connectFailed =>
    simp only [Peers.step, Option.ite_none_right_eq_some, Option.some.injEq] at hstep
    obtain ⟨-, rfl⟩ := hstep
    exact ⟨h.sound, h.owns, fun url hconn => by simp at hconn, h.forwarding⟩
  | absent peerurl =>
    simp only [Peers.step, Option.ite_none_right_eq_some, Option.some.injEq] at hstep
    obtain ⟨-, rfl⟩ := hstep
    split
    · exact h
    · next hne => exact h.removeUrl .listener hne
  | refresh t urlstem =>
    simp only [Peers.step, Option.ite_none_right_eq_some] at hstep
    obtain ⟨-, hstep⟩ := hstep
    rcases hlookup : s.map.lookup urlstem with e | p
    · simp only [hlookup, Option.some.injEq] at hstep
      subst hstep
      exact h
    · simp only [hlookup, Option.some.injEq] at hstep
      subst hstep
      split
      · exact h
      · next hremote =>
        refine ⟨h.sound, h.owns, h.connecting, ?_⟩
        intro t' p' hp'
        dsimp only at hp'
        rw [Function.update_apply] at hp'
        split at hp'
        · obtain rfl : p = p' := Option.some.inj hp'
          obtain ⟨k, hnext⟩ := lookup_eq_ok_iff.mp hlookup
          exact h.url_ne (next_eq_some_iff.mp hnext).1 fun heq => hremote (heq ▸ rfl)
        · exact h.forwarding t' p' hp'
  | answered t =>
    simp only [Peers.step, Option.ite_none_right_eq_some, Option.some.injEq] at hstep
    obtain ⟨-, rfl⟩ := hstep
    exact ⟨h.sound, h.owns, h.connecting, forwarding_update h⟩
  | peerError t =>
    rcases hforward : s.forwarding t with _ | p
    · simp [Peers.step, hforward] at hstep
    · simp only [Peers.step, hforward, Option.some.injEq] at hstep
      subst hstep
      refine Inv.removeUrl ?_ (.refresher t) (h.forwarding t p hforward)
      exact ⟨h.sound, h.owns, h.connecting, forwarding_update h⟩
  | second thread =>
    rcases hfind : s.inCall.find? fun c => c.1 = thread with _ | c
    · simp [Peers.step, hfind] at hstep
    · simp only [Peers.step, hfind, Option.some.injEq] at hstep
      subst hstep
      obtain ⟨hthread, before, after, hcalls, hbefore⟩ := List.find?_eq_some_iff_append.mp hfind
      have hrest : (s.inCall.eraseP fun c => c.1 = thread) = before ++ after := by
        rw [hcalls, List.eraseP_append_right _ (by simpa using hbefore), List.eraseP_cons, hthread]
        rfl
      rw [hrest]
      exact h.second hcalls (horderly before c after hcalls (by simpa using hthread))

/-- In a run of orderly steps the maps agree whenever no call is in progress. -/
theorem maps_agree {ls : List PeersLabel}
    (horderly : EachStep (Peers.step serverUrl) (Orderly uuid) (Peers.init uuid serverUrl) ls) :
    Along (Peers.step serverUrl)
      (fun _ s => s.inCall = [] → s.map.Agrees (self uuid serverUrl)) (Peers.init uuid serverUrl) ls := by
  have hinv := horderly.along (Inv.init uuid serverUrl) fun t l t' ht hQ hl => ht.step hQ hl
  intro ls₁ ls₂ t hls ht hidle
  have h := hinv ls₁ ls₂ t hls ht
  have hsound := h.sound
  rw [hidle] at hsound
  exact hsound.agrees h.owns

/-- Another peer comes. -/
theorem maps_agree_present : Along (Peers.step (bytes "http://h1"))
    (fun _ s => s.inCall = [] → s.map.Agrees (self (bytes "u1") (bytes "http://h1")))
    (Peers.init (bytes "u1") (bytes "http://h1"))
    [.present (bytes "http://h2"), .connected (bytes "u2"), .second .listener] := by
  have hunknown : (Peers.init (bytes "u1") (bytes "http://h1")).map.checkUrl (bytes "http://h2") = false := by
    decide +kernel
  have hclear : (Peers.init (bytes "u1") (bytes "http://h1")).map.Clear (bytes "u2") := by
    have hdisj : ∀ k ∈ points (bytes "u2"), k ∉ points (bytes "u1") := by decide +kernel
    intro k hk p hp
    rw [Peers.init, insertPeer, insertUuid_ring, insertRing_ring, getElem?_setAll, self,
      if_neg (hdisj k hk)] at hp
    simp [PeerMap.empty] at hp
  refine maps_agree (eachStep_cons (t := { Peers.init (bytes "u1") (bytes "http://h1") with
    connecting := some (bytes "http://h2") }) ?_ trivial ?_)
  · simp only [Peers.step, hunknown]
    rfl
  refine eachStep_cons rfl ⟨by decide, hclear⟩ (eachStep_cons rfl ?_ eachStep_nil)
  intro before c after hcalls _
  rcases before with _ | ⟨c', before⟩
  · exact List.forall_mem_nil _
  · simp [Peers.init] at hcalls

/-- The listener is overtaken: another thread finds the new peer on the ring, cannot reach it and removes it
before the listener lists it. -/
theorem not_maps_agree : ¬ ∀ (uuid serverUrl : Bytes) ls s,
    run (Peers.step serverUrl) (Peers.init uuid serverUrl) ls = some s → s.inCall = [] →
      s.map.Agrees (self uuid serverUrl) := by
  intro hclaim
  have hrun : (run (Peers.step (bytes "http://h1")) (Peers.init (bytes "u1") (bytes "http://h1"))
      [.present (bytes "http://h2"), .connected (bytes "u2"), .refresh 0 (bytes "/1"), .peerError 0,
        .second (.refresher 0), .second .listener]).map
      (fun s => (s.inCall, s.map.uuidToPeer (bytes "u2"), s.map.ring[hash (bytes "u2") 1]?)) =
        some ([], some ⟨bytes "u2", bytes "http://h2", .http (bytes "http://h2")⟩, none) := by
    decide +kernel
  obtain ⟨s, hs, hobs⟩ := Option.map_eq_some_iff.mp hrun
  simp only [Prod.mk.injEq] at hobs
  obtain ⟨hidle, hlisted, hpoint⟩ := hobs
  have hagrees := hclaim _ _ _ s hs hidle
  have howned := (hagrees.points_owned _ _ hlisted).2 _ (hash_mem_points _)
  rw [hpoint] at howned
  simp at howned

end Peers

end Fs123
