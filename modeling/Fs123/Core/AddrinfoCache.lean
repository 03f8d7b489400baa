import Fs123.Common.StableNodes
import Fs123.Common.Transition
import Fs123.Core.Exn

/-!
# The address-info cache

The model of `core123/addrinfo_cache.hpp`. The records of `the_map` are linked in the order of their last
use, through `less_ru` and `more_ru`, which are iterators of the map. The functions here run with `map_mtx`
held; an iterator that points to no element is `oob`. `lookup` and `refresh` release the mutex while they
call `getaddrinfo`, so each of them takes several steps of the transition system at the end.
-/

namespace Fs123

open Cxx

/-- `gai_args`: what is passed to `getaddrinfo`. The other members of the hints are cleared. -/
structure GaiArgs where
  name : Bytes
  service : Bytes
  aiFamily : ℤ
  aiSocktype : ℤ
  aiProtocol : ℤ
  aiFlags : ℤ
  deriving Repr, DecidableEq

/-- `addrinfo_result`: what `getaddrinfo` returned. -/
structure AddrinfoResult where
  status : ℤ
  aip : Addr
  eno : ℤ
  deriving Repr, DecidableEq

/-- `EAI_AGAIN`. -/
def eaiAgain : ℤ := -3

/-- `gai_mrecord`. -/
structure GaiMrecord where
  air : AddrinfoResult
  lessRu : Addr
  moreRu : Addr
  deriving Repr, DecidableEq

/-- `gai_mrecord(air)`, whose links point nowhere. -/
def GaiMrecord.new (air : AddrinfoResult) : GaiMrecord := ⟨air, 0, 0⟩

/-- What `map_mtx` guards: `the_map`, with the number of its elements, and both ends of the list. -/
structure AddrinfoCache where
  theMap : NodeMap GaiArgs GaiMrecord
  size : ℕ
  mostRu : Addr
  leastRu : Addr

namespace AddrinfoCache

/-- `addrinfo_cache()`. -/
def empty : AddrinfoCache := ⟨.empty, 0, 0, 0⟩

/-- The functions that run with `map_mtx` held. -/
abbrev Mapped (α : Type) := EStateM Fault AddrinfoCache α

/-- `iter->second`. -/
def deref (iter : Addr) : Mapped GaiMrecord := fun c =>
  match c.theMap.node iter with
  | some (_, r) => .ok r c
  | none => .error .oob c

/-- Write a member of the record that `iter` points to. -/
def assign (iter : Addr) (f : GaiMrecord → GaiMrecord) : Mapped Unit := fun c =>
  match c.theMap.node iter with
  | some (_, r) => .ok () { c with theMap := c.theMap.set iter (f r) }
  | none => .error .oob c

/-- `iter->second.less_ru = a`. -/
def setLessRu (iter a : Addr) : Mapped Unit := assign iter fun r => { r with lessRu := a }

/-- `iter->second.more_ru = a`. -/
def setMoreRu (iter a : Addr) : Mapped Unit := assign iter fun r => { r with moreRu := a }

/-- `iter->second.air = air`. -/
def setAir (iter : Addr) (air : AddrinfoResult) : Mapped Unit := assign iter fun r => { r with air }

/-- `the_map.erase(iter)`. -/
def eraseRecord (iter : Addr) : Mapped Unit := fun c =>
  match c.theMap.node iter with
  | some _ => .ok () { c with theMap := c.theMap.erase iter, size := c.size - 1 }
  | none => .error .oob c

/-- `the_map.insert(...)`, into a node at `addr` unless the key has one. -/
def insertRecord (addr : Addr) (args : GaiArgs) (air : AddrinfoResult) : Mapped (Addr × Bool) := fun c =>
  match c.theMap.index args with
  | some iter => .ok (iter, false) c
  | none => .ok (addr, true)
      { c with theMap := c.theMap.insert addr args (.new air), size := c.size + 1 }

/-- In `make_most_ru(p)`, when there is a more recently used record: take the record out of the list. -/
def disconnect (p : Addr) : Mapped Unit := do
  let pmr ← deref p
  if p = (← get).leastRu then
    modify fun c => { c with leastRu := pmr.moreRu }
  else do
    setMoreRu pmr.lessRu pmr.moreRu
    let pmr ← deref p
    setLessRu pmr.moreRu pmr.lessRu

/-- In `make_most_ru(p)`: put the record at the most recently used end. -/
def reconnect (p : Addr) : Mapped Unit := do
  setLessRu p (← get).mostRu
  setMoreRu (← get).mostRu p
  modify fun c => { c with mostRu := p }

/-- `make_most_ru(p)`. -/
def makeMostRu (p : Addr) : Mapped Unit := do
  if p = (← get).mostRu then
    return ()
  else do
    disconnect p
    reconnect p

/-- `lookup`, when `find(args)` has found `p`. -/
def hit (p : Addr) : Mapped AddrinfoResult := do
  makeMostRu p
  return (← deref p).air

/-- In `lookup`: link the record that was inserted, the only one or next to the most recently used one. -/
def linkInserted (p : Addr) : Mapped Unit := do
  if (← get).size = 1 then
    modify fun c => { c with leastRu := p }
  else do
    setMoreRu (← get).mostRu p
    setLessRu p (← get).mostRu

/-- `lookup`, when it has a new value and the mutex again. -/
def store (addr : Addr) (args : GaiArgs) (newvalue : AddrinfoResult) : Mapped AddrinfoResult := do
  let (p, inserted) ← insertRecord addr args newvalue
  if inserted = false then do
    setAir p newvalue
    makeMostRu p
    return (← deref p).air
  else do
    linkInserted p
    modify fun c => { c with mostRu := p }
    return newvalue

/-- One turn of the first loop of `refresh`. -/
def evictLeast : Mapped Unit := do
  let leastRu := (← get).leastRu
  let p := (← deref leastRu).moreRu
  eraseRecord leastRu
  modify fun c => { c with leastRu := p }

/-- The first loop of `refresh(max_size)`, for at most `fuel` turns. -/
def evictLoop (maxSize : ℕ) : ℕ → Mapped Unit
  | 0 => return ()
  | fuel + 1 => do
    if maxSize < (← get).size then do
      evictLeast
      evictLoop maxSize fuel
    else
      return ()

/-- The first loop of `refresh(max_size)`. A turn leaves one element less, so there is none left after
`size` of them. -/
def evict (maxSize : ℕ) : Mapped Unit := do
  evictLoop maxSize (← get).size

/-- `refresh`, when it has a new value for the element at `e` and the mutex again. -/
def refreshRecord (e : Addr) (newvalue : AddrinfoResult) : Mapped Unit := do
  if newvalue.status ≠ eaiAgain then
    setAir e newvalue
  else
    return ()

end AddrinfoCache

/-! ## The threads -/

namespace Resolving

open AddrinfoCache

/-- Where the thread in `refresh` is; there is only one, which holds `refresh_mtx`. -/
inductive Pc where
  | idle
  /-- At the head of the second loop, with `map_mtx` held. -/
  | head
  /-- In `getaddrinfo` for the element at `e`. -/
  | resolving (e : Addr)
  deriving Repr, DecidableEq

/-- The cache, the arguments that each thread in `lookup` is resolving, and the thread in `refresh`. -/
structure State where
  cache : AddrinfoCache
  lookups : ℕ → Option GaiArgs
  refresh : Pc

/-- Before anything is looked up. -/
def init : State := ⟨.empty, fun _ => none, .idle⟩

/-- The stretches of code that hold `map_mtx`, and the calls of `getaddrinfo` that are not recorded. -/
inductive Label where
  /-- `lookup` finds the arguments in the map. -/
  | hit (t : ℕ) (args : GaiArgs)
  /-- `lookup` does not find them and releases the mutex. -/
  | miss (t : ℕ) (args : GaiArgs)
  /-- `getaddrinfo` has returned `EAI_AGAIN`. -/
  | again (t : ℕ)
  /-- `lookup` takes the mutex again and records the new value. -/
  | store (t : ℕ) (args : GaiArgs) (addr : Addr) (newvalue : AddrinfoResult)
  /-- `refresh(max_size)` takes both mutexes and runs its first loop. -/
  | evict (maxSize : ℕ)
  /-- The second loop releases `map_mtx` to resolve an element again. -/
  | next (e : Addr)
  /-- It takes `map_mtx` again and records the new value. -/
  | refreshed (newvalue : AddrinfoResult)
  /-- `refresh` returns. -/
  | done
  deriving Repr, DecidableEq

/-- The arguments that a lookup has succeeded for. -/
def Label.used : Label → Option GaiArgs
  | .hit _ args => some args
  | .store _ args _ _ => some args
  | _ => none

/-- The steps that the threads can take: a node that is allocated is not in use, and the second loop of
`refresh` visits elements of the map, in whatever order. -/
def Enabled (s : State) : Label → Prop
  | .hit t args => s.refresh ≠ .head ∧ s.lookups t = none ∧ s.cache.theMap.index args ≠ none
  | .miss t args => s.refresh ≠ .head ∧ s.lookups t = none ∧ s.cache.theMap.index args = none
  | .again t => s.lookups t ≠ none
  | .store t args addr newvalue => s.refresh ≠ .head ∧ s.lookups t = some args ∧
      newvalue.status ≠ eaiAgain ∧ s.cache.theMap.node addr = none
  | .evict _ => s.refresh = .idle
  | .next e => s.refresh = .head ∧ s.cache.theMap.node e ≠ none
  | .refreshed _ => s.refresh ≠ .idle ∧ s.refresh ≠ .head
  | .done => s.refresh = .head

instance (s : State) : (l : Label) → Decidable (Enabled s l)
  | .hit .. | .miss .. => inferInstanceAs (Decidable (_ ∧ _))
  | .store .. | .next _ | .refreshed _ => inferInstanceAs (Decidable (_ ∧ _))
  | .again t => inferInstanceAs (Decidable (s.lookups t ≠ none))
  | .evict _ => inferInstanceAs (Decidable (s.refresh = .idle))
  | .done => inferInstanceAs (Decidable (s.refresh = .head))

/-- The state that a stretch of code leaves; there is none after an access through a dangling iterator. -/
def ended {α : Type} (s : State) : EStateM.Result Fault AddrinfoCache α → Option State
  | .ok _ cache => some { s with cache }
  | .error _ _ => none

/-- What a step does. -/
def effect (s : State) : Label → Option State
  | .hit _ args =>
    match s.cache.theMap.index args with
    | some p => ended s (AddrinfoCache.hit p s.cache)
    | none => none
  | .miss t args => some { s with lookups := Function.update s.lookups t (some args) }
  | .again t => some { s with lookups := Function.update s.lookups t none }
  | .store t args addr newvalue =>
    ended { s with lookups := Function.update s.lookups t none }
      (AddrinfoCache.store addr args newvalue s.cache)
  | .evict maxSize => ended { s with refresh := .head } (AddrinfoCache.evict maxSize s.cache)
  | .next e => some { s with refresh := .resolving e }
  | .refreshed newvalue =>
    match s.refresh with
    | .resolving e => ended { s with refresh := .head } (refreshRecord e newvalue s.cache)
    | _ => none
  | .done => some { s with refresh := .idle }

/-- One step of the system. -/
def step (s : State) (l : Label) : Option State := if Enabled s l then effect s l else none

theorem step_eq_some {s s' : State} {l : Label} :
    step s l = some s' ↔ Enabled s l ∧ effect s l = some s' := by
  by_cases h : Enabled s l <;> simp [step, h]

end Resolving

end Fs123
