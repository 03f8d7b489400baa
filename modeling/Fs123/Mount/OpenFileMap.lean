import Fs123.Client.Getreply
import Fs123.Common.StableNodes
import Fs123.Core.Expiring

/-!
# The open-file map

The model of `openfilemap.cpp`. The map `ofmap` has a record for each open inode, with a reference count and
an iterator into the queue `ofpq`, which is ordered by expiration time and whose entries point back into the
map. Each function here runs with the lock held. A dangling iterator or pointer is `oob`; an exception leaves
the containers as they are at the `throw`.
-/

namespace Fs123

open Cxx

/-- `fuse_ino_t`. -/
abbrev Ino := ℕ

/-- `begetattr_t`: attributes with their expiration. The members that are copied to the kernel are left
out. -/
structure Begetattr where
  eno : ℤ
  estaleCookie : ℕ
  validator : ℕ
  goodTill : TimePoint
  deriving Repr, DecidableEq

/-- `begetattr_t()`: an error that has expired. -/
def Begetattr.default : Begetattr := ⟨-1, 0, 0, TimePoint.min⟩

/-- A record of the map. `qiter` means something only when `qiterDereferenceable` is set. -/
structure Mrecord where
  refcnt : ℤ
  qiter : Addr
  qiterDereferenceable : Bool
  miter : Addr
  deriving Repr, DecidableEq

/-- `mrecord()`, whose iterators are not initialised. -/
def Mrecord.new : Mrecord := ⟨0, 0, false, 0⟩

/-- What the lock guards: the map from inodes to records, and the queue of expirations and `miter`s. -/
structure OpenFiles where
  ofmap : NodeMap Ino Mrecord
  ofpq : NodeQueue TimePoint Addr

/-- `pqrecord::no_sooner_than`. -/
def noSoonerThan : ℤ := 750000000

/-- The expiration of `pqrecord(r, miter, now)`. -/
def Begetattr.expires (r : Begetattr) (now : TimePoint) : TimePoint := max r.goodTill (now + noSoonerThan)

/-- The functions of the open-file map. -/
abbrev Locked (α : Type) := EStateM Fault OpenFiles α

namespace Locked

/-- `iter->second`, with the key that it is stored under. -/
def derefRecord (iter : Addr) : Locked (Ino × Mrecord) := fun g =>
  match g.ofmap.node iter with
  | some p => .ok p g
  | none => .error .oob g

/-- Write the record that `iter` points to. -/
def setRecord (iter : Addr) (mr : Mrecord) : Locked Unit := fun g =>
  match g.ofmap.node iter with
  | some _ => .ok () { g with ofmap := g.ofmap.set iter mr }
  | none => .error .oob g

/-- `ofmap.erase(iter)`. -/
def eraseRecord (iter : Addr) : Locked Unit := fun g =>
  match g.ofmap.node iter with
  | some _ => .ok () { g with ofmap := g.ofmap.erase iter }
  | none => .error .oob g

/-- `*iter` in the queue. -/
def derefEntry (iter : Addr) : Locked (QNode TimePoint Addr) := fun g =>
  match g.ofpq.deref iter with
  | some p => .ok p g
  | none => .error .oob g

/-- `ofpq.erase(iter)`. -/
def eraseEntry (iter : Addr) : Locked Unit := fun g =>
  match g.ofpq.deref iter with
  | some _ => .ok () { g with ofpq := g.ofpq.erase iter }
  | none => .error .oob g

/-- `ofpq.emplace(...)`, into a node at `addr`, which is the iterator it returns. -/
def emplaceEntry (addr : Addr) (expires : TimePoint) (miter : Addr) : Locked Addr := fun g =>
  .ok addr { g with ofpq := g.ofpq.emplace addr expires miter }

/-- `ofmap.emplace(ino, mrecord())`, into a node at `addr` unless the inode has one. -/
def emplaceRecord (addr : Addr) (ino : Ino) : Locked (Addr × Bool) := fun g =>
  match g.ofmap.index ino with
  | some iter => .ok (iter, false) g
  | none => .ok (addr, true) { g with ofmap := g.ofmap.insert addr ino .new }

/-- `throw se(EIO, msg)`. -/
def throwEio {α : Type} (msg : Bytes) : Locked α := fun g =>
  .error (.throws ⟨⟨.systemError .system 5, msg⟩, []⟩) g

/-- `try { x } catch(std::exception& e) { handler }`. -/
def catchException {α : Type} (x : Locked α) (handler : Exn → Locked α) : Locked α := fun g =>
  match x g with
  | .error (.throws e) g' => handler e g'
  | r => r

end Locked

open Locked

/-- `decrefcnt(mr)`, where `mr` is the record in the node at `fh`. -/
def decrefcnt (fh : Addr) : Locked ℤ := do
  let (_, mr) ← derefRecord fh
  let ret := mr.refcnt - 1
  setRecord fh { mr with refcnt := ret }
  if ret = 0 then
    if mr.qiterDereferenceable then
      eraseEntry mr.qiter
    eraseRecord mr.miter
  return ret

/-- The clock readings of `openfile_register` and the nodes that its `emplace`s allocate. -/
structure RegisterEnv where
  now : TimePoint
  now' : TimePoint
  record : Addr
  entry : Addr
  entry' : Addr
  deriving Repr, DecidableEq

/-- In `openfile_register`: the record of the inode, which is created when there is none. -/
def findOrCreate (addr : Addr) (ino : Ino) : Locked (Addr × Bool) := do
  let (mi, created) ← emplaceRecord addr ino
  if created then
    let (_, mr) ← derefRecord mi
    setRecord mi { mr with miter := mi }
  return (mi, created)

/-- In `openfile_register`: a record without an entry in the queue gets one. -/
def ensureEntry (mi : Addr) (r : Begetattr) (env : RegisterEnv) : Locked Unit := do
  let (_, mr) ← derefRecord mi
  if !mr.qiterDereferenceable then
    let q ← emplaceEntry env.entry (r.expires env.now) mi
    setRecord mi { mr with qiter := q, qiterDereferenceable := true }

/-- In `openfile_register`: add a reference, and replace an entry that does not expire at `goodTill`. -/
def addReference (mi : Addr) (r : Begetattr) (env : RegisterEnv) : Locked Addr := do
  let (_, mr) ← derefRecord mi
  let q ← derefEntry mr.qiter
  if q.val ≠ mi then
    throwEio (bytes "inconsistent iterators in ofmap/ofpq")
  setRecord mi { mr with refcnt := mr.refcnt + 1 }
  if q.key ≠ r.goodTill then
    -- The new entry expires no sooner than `noSoonerThan` from now, also when `goodTill` is earlier.
    eraseEntry mr.qiter
    let q' ← emplaceEntry env.entry' (r.expires env.now') mi
    setRecord mi { mr with refcnt := mr.refcnt + 1, qiter := q' }
  return mi

/-- The `try` block of `openfile_register`. -/
def registerEntry (mi : Addr) (r : Begetattr) (env : RegisterEnv) : Locked Addr := do
  ensureEntry mi r env
  addReference mi r env

/-- `openfile_register(ino, r)`. The value is the address of the record, the handle of the open file. -/
def openfileRegister (ino : Ino) (r : Begetattr) (env : RegisterEnv) : Locked Addr := do
  if r.eno ≠ 0 then
    throwEio (bytes "openfile_register called with r.eno!=0.  This shouldn't happen")
  let (mi, created) ← findOrCreate env.record ino
  catchException (registerEntry mi r env) fun e => do
    if created then
      eraseRecord mi
    fun g => .error (.throws (e.nest .runtimeError
      (bytes "ofmap_register with created = " ++ decimal (if created then 1 else 0)))) g

/-- `openfile_expire_now(ino, fifh)`; `entry` is the node of its `emplace`. -/
def openfileExpireNow (ino : Ino) (fifh : Addr) (entry : Addr) : Locked Unit := do
  if fifh = 0 then
    return ()
  let (_, mr) ← derefRecord fifh
  let (ino', _) ← derefRecord mr.miter
  if ino ≠ ino' ∨ fifh ≠ mr.miter then
    throwEio (bytes "openfile_expire_now: mr.miter does not 'point' back to (ino,mr).  "
      ++ bytes "Something is very wrong")
  if mr.qiterDereferenceable then
    eraseEntry mr.qiter
    let q ← emplaceEntry entry TimePoint.min mr.miter
    setRecord fifh { mr with qiter := q }

/-- `openfile_release(ino, fifh)`. -/
def openfileRelease (ino : Ino) (fifh : Addr) : Locked Unit := do
  if fifh = 0 then
    return ()
  let (_, mr) ← derefRecord fifh
  let (ino', _) ← derefRecord mr.miter
  if ino ≠ ino' ∨ fifh ≠ mr.miter then
    throwEio (bytes "openfilemap_release: mr.miter does not point back to (ino,mr).  "
      ++ bytes "Something is very wrong")
  let _ ← decrefcnt fifh

/-- The loop head of `scan`, with the lock held: the record that it pops, with a reference added, or `none`
when the loop ends. -/
def scanPop (now : TimePoint) : Locked (Option (Ino × Addr)) := do
  let g ← get
  match g.ofpq.nodes.head? with
  | none => return none
  | some p =>
    if now < p.key then
      return none
    let (ino, mr) ← derefRecord p.val
    if mr.miter ≠ p.val then
      return none
    eraseEntry p.addr
    setRecord p.val { mr with qiterDereferenceable := false, refcnt := mr.refcnt + 1 }
    return some (ino, p.val)

/-- The end of the loop body of `scan`, with the lock held again: drop the reference, and put the inode back
into the queue unless its record is gone or `r` is an error. -/
def scanReinsert (mi : Addr) (r : Begetattr) (now : TimePoint) (entry : Addr) : Locked Unit := do
  let n ← decrefcnt mi
  if n = 0 ∨ r.eno ≠ 0 then
    return ()
  let (_, mr) ← derefRecord mi
  if mr.qiterDereferenceable then
    eraseEntry mr.qiter
  let q ← emplaceEntry entry (r.expires now) mi
  setRecord mi { mr with qiter := q, qiterDereferenceable := true }

/-- The body of `scan` between `begetattr` and the notification. `result` is `none` when `begetattr` throws;
`updated` is what `ino_update_validator` returns, `none` when it throws. -/
def scanReply (result : Option Begetattr) (updated : Option ℕ) : Begetattr :=
  let r := result.getD .default
  if r.eno = 0 ∧ updated = none then { r with eno := 5 } else r

/-- Whether `scan` notifies the kernel. -/
def scanMustNotify (result : Option Begetattr) (updated : Option ℕ) : Bool :=
  let r := scanReply result updated
  r.eno ≠ 0 ∨ updated ≠ some r.validator

end Fs123
