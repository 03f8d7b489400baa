import Fs123.Common.Transition
import Fs123.Mount.OpenFileMap

/-!
# Interleavings of the open-file map

The threads that open, release and read files call the functions of the open-file map, and the scanning
thread runs `scan`. One step of the system is one stretch of code that holds the lock, or one of the calls
that `scan` makes without it.
-/

namespace Fs123.Scan

open Cxx

/-- Where the scanning thread is. -/
inductive Pc where
  /-- Waiting in `scanloop`. -/
  | idle
  /-- At the loop head of `scan`, with the lock held. -/
  | head
  /-- The lock is released; `begetattr` is called next. -/
  | popped (ino : Ino) (mi : Addr)
  /-- In `begetattr`. -/
  | fetching (ino : Ino) (mi : Addr)
  /-- After `begetattr`, which threw if there is no result. -/
  | fetched (ino : Ino) (mi : Addr) (result : Option Begetattr)
  /-- The kernel is notified where it has to be; the lock is taken next. -/
  | notified (ino : Ino) (mi : Addr) (r : Begetattr)
  deriving Repr, DecidableEq

/-- The record that the scanning thread holds a reference to. -/
def Pc.held : Pc → Option (Ino × Addr)
  | .idle | .head => none
  | .popped ino mi | .fetching ino mi | .fetched ino mi _ | .notified ino mi _ => some (ino, mi)

/-- The containers, the handles that are registered and not yet released, and the scanning thread. -/
structure State where
  files : OpenFiles
  handles : List (Ino × Addr)
  scan : Pc

/-- Before anything is opened. -/
def init : State := ⟨⟨.empty, .empty⟩, [], .idle⟩

/-- The steps. What the clock, the allocator, the server and the inode map answer is part of the label. -/
inductive Label where
  | register (ino : Ino) (r : Begetattr) (env : RegisterEnv)
  | release (ino : Ino) (fh : Addr)
  | expireNow (ino : Ino) (fh : Addr) (entry : Addr)
  /-- `scan` takes the lock. -/
  | lock
  /-- From the loop head to the release of the lock. -/
  | pop (now : TimePoint)
  | begetattr
  | returned (result : Option Begetattr)
  | notify (updated : Option ℕ)
  /-- `scan` takes the lock again and gets back to the loop head. -/
  | relock (now : TimePoint) (entry : Addr)
  deriving Repr, DecidableEq

/-- A node of the queue at `a` is free, or it is that of the entry being replaced. -/
def EntryFree (g : OpenFiles) (a mi : Addr) : Prop := ∀ p ∈ g.ofpq.nodes, p.addr = a → p.val = mi

/-- The handle is registered, or it is 0, which `fs123_open` stores for a file that it does not register. -/
def State.Open (s : State) (ino : Ino) (fh : Addr) : Prop := fh = 0 ∨ (ino, fh) ∈ s.handles

/-- The program order of the scanning thread. -/
def Pc.next : Pc → Label → Bool
  | .idle, .lock | .head, .pop _ | .popped .., .begetattr | .fetching .., .returned _
  | .fetched .., .notify _ | .notified .., .relock .. => true
  | _, _ => false

/-- The steps that the threads can take: the lock is free, handles are registered, allocated nodes are not
in use, and the clock is not before its minimum. -/
def Enabled (s : State) : Label → Prop
  | .register ino _ env => s.scan ≠ .head ∧ env.record ≠ 0 ∧ s.files.ofmap.node env.record = none
      ∧ EntryFree s.files env.entry ((s.files.ofmap.index ino).getD env.record)
      ∧ EntryFree s.files env.entry' ((s.files.ofmap.index ino).getD env.record)
      ∧ TimePoint.min ≤ env.now ∧ TimePoint.min ≤ env.now'
  | .release ino fh => s.scan ≠ .head ∧ s.Open ino fh
  | .expireNow ino fh entry => s.scan ≠ .head ∧ s.Open ino fh ∧ EntryFree s.files entry fh
  | .relock now entry => s.scan.next (.relock now entry) ∧ TimePoint.min ≤ now
      ∧ ∀ p ∈ s.scan.held, EntryFree s.files entry p.2
  | l => s.scan.next l

instance (g : OpenFiles) (a mi : Addr) : Decidable (EntryFree g a mi) :=
  inferInstanceAs (Decidable (∀ p ∈ g.ofpq.nodes, _ → _))

instance (s : State) (ino : Ino) (fh : Addr) : Decidable (s.Open ino fh) :=
  inferInstanceAs (Decidable (_ ∨ _))

instance (s : State) : (l : Label) → Decidable (Enabled s l)
  | .register .. => inferInstanceAs (Decidable (_ ∧ _))
  | .release .. => inferInstanceAs (Decidable (_ ∧ _))
  | .expireNow .. => inferInstanceAs (Decidable (_ ∧ _))
  | .relock .. => inferInstanceAs (Decidable (_ ∧ _ ∧ ∀ p ∈ Pc.held _, _))
  | .lock => inferInstanceAs (Decidable (Pc.next _ _ = true))
  | .pop _ => inferInstanceAs (Decidable (Pc.next _ _ = true))
  | .begetattr => inferInstanceAs (Decidable (Pc.next _ _ = true))
  | .returned _ => inferInstanceAs (Decidable (Pc.next _ _ = true))
  | .notify _ => inferInstanceAs (Decidable (Pc.next _ _ = true))

/-- How a call with the lock held ends: `ok` takes its value, `thrown` follows an exception, and there is no
next state after an access through a dangling iterator. -/
def ended {α : Type} (ok : α → OpenFiles → State) (thrown : OpenFiles → State) :
    EStateM.Result Fault OpenFiles α → Option State
  | .ok a g => some (ok a g)
  | .error (.throws _) g => some (thrown g)
  | .error .oob _ => none

/-- What a step does. -/
def effect (s : State) : Label → Option State
  | .register ino r env =>
    ended (fun fh g => { s with files := g, handles := (ino, fh) :: s.handles })
      (fun g => { s with files := g }) (openfileRegister ino r env s.files)
  | .release ino fh =>
    ended (fun _ g => { s with files := g, handles := s.handles.erase (ino, fh) })
      (fun g => { s with files := g }) (openfileRelease ino fh s.files)
  | .expireNow ino fh entry =>
    ended (fun _ g => { s with files := g }) (fun g => { s with files := g })
      (openfileExpireNow ino fh entry s.files)
  | .lock => some { s with scan := .head }
  | .pop now =>
    ended
      (fun popped g => { s with files := g, scan := popped.elim .idle fun p => .popped p.1 p.2 })
      (fun g => { s with files := g, scan := .idle }) (scanPop now s.files)
  | .begetattr =>
    match s.scan with
    | .popped ino mi => some { s with scan := .fetching ino mi }
    | _ => none
  | .returned result =>
    match s.scan with
    | .fetching ino mi => some { s with scan := .fetched ino mi result }
    | _ => none
  | .notify updated =>
    match s.scan with
    | .fetched ino mi result => some { s with scan := .notified ino mi (scanReply result updated) }
    | _ => none
  | .relock now entry =>
    match s.scan with
    | .notified _ mi r =>
      ended (fun _ g => { s with files := g, scan := .head })
        (fun g => { s with files := g, scan := .idle }) (scanReinsert mi r now entry s.files)
    | _ => none

/-- One step of the system. -/
def step (s : State) (l : Label) : Option State := if Enabled s l then effect s l else none

theorem step_eq_some {s s' : State} {l : Label} :
    step s l = some s' ↔ Enabled s l ∧ effect s l = some s' := by
  by_cases h : Enabled s l <;> simp [step, h]

end Fs123.Scan
