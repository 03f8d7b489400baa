import Fs123.Common.Transition
import Fs123.Peer.PeerMap

/-!
# The threads that use the peer map

The steps of a process with a distributed cache, at the granularity of the locks of its peer map. The
thread of the udp listener handles one message after the other; any number of threads serve requests with
`refresh`, each of which may find that a peer is in trouble. A call that has left its first critical section
is in `inCall` until it gets into its second one.
-/

namespace Fs123

open Cxx Transition

/-- A thread: the udp listener or one that is in `refresh`. -/
inductive PeerThread where
  | listener
  | refresher (t : ℕ)
  deriving Repr, DecidableEq

/-- What a call does in its second critical section. -/
inductive Second where
  | insert (sp : Peer)
  | remove (uuid : Bytes)
  deriving Repr, DecidableEq

/-- The uuid that the call is about. -/
def Second.uuid : Second → Bytes
  | .insert sp => sp.uuid
  | .remove uuid => uuid

def Second.run : Second → PeerMap → PeerMap
  | .insert sp, m => m.insertUuid sp
  | .remove uuid, m => m.removeUuid uuid

/-- The process. `connecting` is the url that `handle_present` tries to connect to, `forwarding` the peer
that a thread has forwarded its request to; `inCall` lists the calls that are between their critical
sections, in the order in which they were in the first one. -/
structure Peers where
  map : PeerMap
  connecting : Option Bytes
  forwarding : ℕ → Option Peer
  inCall : List (PeerThread × Second)

/-- One step of one thread. -/
inductive PeersLabel where
  /-- `handle_present(peerurl)`, up to the connection attempt. -/
  | present (peerurl : Bytes)
  /-- The peer has answered with its uuid. -/
  | connected (uuid : Bytes)
  | connectFailed
  /-- `handle_absent(peerurl)`. -/
  | absent (peerurl : Bytes)
  /-- `refresh` of a request for `urlstem`, up to the call of the backend. -/
  | refresh (t : ℕ) (urlstem : Bytes)
  | answered (t : ℕ)
  /-- The backend has thrown. -/
  | peerError (t : ℕ)
  /-- The second critical section of the call that the thread is in. -/
  | second (thread : PeerThread)
  deriving Repr, DecidableEq

namespace Peers

/-- The thread is not between the critical sections of a call. -/
def Outside (s : Peers) (thread : PeerThread) : Prop := ∀ c ∈ s.inCall, c.1 ≠ thread

instance (s : Peers) (thread : PeerThread) : Decidable (s.Outside thread) :=
  inferInstanceAs (Decidable (∀ c ∈ s.inCall, c.1 ≠ thread))

/-- The first critical section of `remove_url(url)`, called by the thread. -/
def removeUrl (s : Peers) (thread : PeerThread) (url : Bytes) : Peers :=
  match s.map.removeRing url with
  | (none, map) => { s with map }
  | (some uuid, map) => { s with map, inCall := s.inCall ++ [(thread, .remove uuid)] }

/-- The step of a process whose own url is `serverUrl`. -/
def step (serverUrl : Bytes) (s : Peers) : PeersLabel → Option Peers
  | .present peerurl =>
    if s.connecting = none ∧ s.Outside .listener then
      some (if s.map.checkUrl peerurl then s else { s with connecting := some peerurl })
    else none
  | .connected uuid =>
    match s.connecting with
    | some peerurl =>
      let sp : Peer := ⟨uuid, peerurl, .http peerurl⟩
      some { s with
        map := s.map.insertRing sp
        connecting := none
        inCall := s.inCall ++ [(.listener, .insert sp)] }
    | none => none
  | .connectFailed => if s.connecting.isSome then some { s with connecting := none } else none
  | .absent peerurl =>
    if s.connecting = none ∧ s.Outside .listener then
      some (if peerurl = serverUrl then s else s.removeUrl .listener peerurl)
    else none
  | .refresh t urlstem =>
    if s.forwarding t = none ∧ s.Outside (.refresher t) then
      match s.map.lookup urlstem with
      | .ok p =>
        some (if p.be = .upstream then s
          else { s with forwarding := Function.update s.forwarding t (some p) })
      | .error _ => some s
    else none
  | .answered t =>
    if (s.forwarding t).isSome then some { s with forwarding := Function.update s.forwarding t none }
    else none
  | .peerError t =>
    match s.forwarding t with
    | some p =>
      some ({ s with forwarding := Function.update s.forwarding t none }.removeUrl (.refresher t) p.url)
    | none => none
  | .second thread =>
    match s.inCall.find? fun c => c.1 = thread with
    | some c =>
      some { s with
        map := c.2.run s.map
        inCall := s.inCall.eraseP fun c => c.1 = thread }
    | none => none

/-- The peer that the process is itself. -/
def self (uuid serverUrl : Bytes) : Peer := ⟨uuid, serverUrl, .upstream⟩

/-- The process after its constructor has inserted it into its own map. -/
def init (uuid serverUrl : Bytes) : Peers :=
  ⟨PeerMap.empty.insertPeer (self uuid serverUrl), none, fun _ => none, []⟩

end Peers

end Fs123
