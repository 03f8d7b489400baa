import Fs123.Common.Transition
import Mathlib.Data.Int.Notation
import Mathlib.Data.Nat.Notation

/-!
# The elastic thread pool

The model of `core123/elastic_threadpool.hpp`: threads that submit tasks, detached workers that carry them
out, and one thread that shuts the pool down. A step is one atomic operation, one operation of the work
queue, or the creation or the end of a thread. Threads in the same place are alike, so the pool keeps lists
of places whose order says nothing; a task is a number.
-/

namespace Fs123.Threadpool

/-- The arguments of the constructor, which throws unless they are in order. -/
structure Limits where
  nthreadmax : ℤ
  nidlemax : ℤ
  nidlemax_pos : 0 < nidlemax
  nidlemax_le : nidlemax ≤ nthreadmax

/-- Where a worker is: what it does next. -/
inductive Worker where
  /-- In `enough_idle_threads`: load `nidl`. -/
  | start
  /-- In `enough_idle_threads`: load `nth`. -/
  | loadNth
  /-- In `enough_idle_threads`: compare and exchange `nth`, which was `old`. -/
  | cas (old : ℤ)
  /-- In `wait_for_work`: add to `nidl`. -/
  | idle
  /-- In `wait_for_work`: dequeue. -/
  | waiting
  /-- In `wait_for_work`: subtract from `nidl`. -/
  | dequeued (task : Option ℕ)
  /-- In `worker_loop`: carry out the task. -/
  | running (task : ℕ)
  /-- After the loop of `worker_loop`, because there are enough idle threads or because the queue is closed:
  lock `all_done_mtx`. -/
  | leaving (retired : Bool)
  /-- Subtract from `ndet`, with `all_done_mtx` locked. -/
  | locked (retired : Bool)
  /-- End the thread, which unlocks `all_done_mtx` and notifies `cv`. -/
  | exiting (retired : Bool)
  deriving Repr, DecidableEq

namespace Worker

/-- The worker is counted in `nidl`. -/
def isIdle : Worker → Bool
  | waiting | dequeued _ => true
  | _ => false

/-- The worker is still in its loop. -/
def staying : Worker → Bool
  | leaving _ | locked _ | exiting _ => false
  | _ => true

/-- The worker is between the steps of retiring: it is no longer counted in `nth`, and its thread exists. -/
def retiring : Worker → Bool
  | leaving r | locked r | exiting r => r
  | _ => false

/-- The worker has not subtracted itself from `ndet`. -/
def detached : Worker → Bool
  | exiting _ => false
  | _ => true

/-- The worker holds `all_done_mtx`. -/
def holds : Worker → Bool
  | locked _ | exiting _ => true
  | _ => false

/-- The worker has found the queue closed and empty. -/
def drained : Worker → Bool
  | dequeued none | leaving false | locked false | exiting false => true
  | _ => false

/-- The task that the worker has dequeued and not yet carried out. -/
def task? : Worker → Option ℕ
  | dequeued task => task
  | running task => some task
  | _ => none

end Worker

/-- Where a thread in `submit` is, after its task was accepted: what it does next. -/
inductive Submit where
  /-- In `no_more_threads`: load `nidl`. -/
  | enqueued
  /-- In `no_more_threads`: load `nth`. -/
  | loadNth
  /-- In `maybe_start_thread`: create a detached thread. -/
  | create
  /-- In `maybe_start_thread`: add to `ndet`. -/
  | countDet
  /-- In `maybe_start_thread`: add to `nth`. -/
  | countNth
  deriving Repr, DecidableEq

namespace Submit

/-- The thread has created a worker that is not counted in `nth`. -/
def uncounted : Submit → Bool
  | countDet | countNth => true
  | _ => false

/-- The thread may still create a worker. -/
def mayCreate : Submit → Bool
  | enqueued | loadNth | create => true
  | _ => false

end Submit

/-- The pool: its atomic counters, its queue, the threads, whether `shutdown` has returned, the tasks that
`submit` has accepted and those that have been carried out. -/
structure State where
  nth : ℤ
  nidl : ℤ
  ndet : ℤ
  queue : List ℕ
  closed : Bool
  returned : Bool
  workers : List Worker
  submits : List Submit
  accepted : List ℕ
  ran : List ℕ
  deriving Repr, DecidableEq

/-- A pool that was just constructed. -/
def init : State := ⟨0, 0, 0, [], false, false, [], [], [], []⟩

inductive Label where
  /-- `submit` of a task, up to its `enqueue`. -/
  | submit (task : ℕ)
  /-- A thread in `submit`, from this place. -/
  | submitter (p : Submit)
  /-- A worker, from this place. -/
  | worker (w : Worker)
  /-- The `compare_exchange_weak` of a worker fails for no reason. -/
  | spurious (old : ℤ)
  /-- `shutdown` closes the queue. -/
  | close
  /-- `shutdown` finds that all threads are done, and returns. -/
  | allDone
  deriving Repr, DecidableEq

namespace State

/-- A worker goes on from `w` to `w'`. -/
def move (s : State) (w w' : Worker) : State := { s with workers := w' :: s.workers.erase w }

/-- A thread in `submit` goes on from `p` to `p'`. -/
def moveSubmit (s : State) (p p' : Submit) : State := { s with submits := p' :: s.submits.erase p }

/-- `submit` returns. -/
def endSubmit (s : State) (p : Submit) : State := { s with submits := s.submits.erase p }

end State

open State

/-- One step of `maybe_start_thread`. -/
def submitStep (lim : Limits) (s : State) : Submit → State
  | .enqueued => if 0 < s.nidl then s.endSubmit .enqueued else s.moveSubmit .enqueued .loadNth
  | .loadNth => if lim.nthreadmax ≤ s.nth then s.endSubmit .loadNth else s.moveSubmit .loadNth .create
  | .create => { s.moveSubmit .create .countDet with workers := .start :: s.workers }
  | .countDet => { s.moveSubmit .countDet .countNth with ndet := s.ndet + 1 }
  | .countNth => { s.endSubmit .countNth with nth := s.nth + 1 }

/-- One step of a worker; `none` says that it has to wait. -/
def workerStep (lim : Limits) (s : State) : Worker → Option State
  | .start => some (s.move .start (if s.nidl < lim.nidlemax then .idle else .loadNth))
  | .loadNth => some (s.move .loadNth (.cas s.nth))
  | .cas old =>
    if s.nth = old then
      some { s.move (.cas old) (if 1 < old then .leaving true else .idle) with
        nth := if old - 1 ≠ 0 then old - 1 else 1 }
    else some (s.move (.cas old) (.cas s.nth))
  | .idle => some { s.move .idle .waiting with nidl := s.nidl + 1 }
  | .waiting =>
    match s.queue with
    | task :: queue => some { s.move .waiting (.dequeued (some task)) with queue }
    | [] => if s.closed then some (s.move .waiting (.dequeued none)) else none
  | .dequeued (some task) =>
    some { s.move (.dequeued (some task)) (.running task) with nidl := s.nidl - 1 }
  | .dequeued none => some { s.move (.dequeued none) (.leaving false) with nidl := s.nidl - 1 }
  | .running task => some { s.move (.running task) .start with ran := s.ran ++ [task] }
  | .leaving retired =>
    if ∀ w ∈ s.workers, w.holds = false then some (s.move (.leaving retired) (.locked retired)) else none
  | .locked retired => some { s.move (.locked retired) (.exiting retired) with ndet := s.ndet - 1 }
  | .exiting retired => some { s with workers := s.workers.erase (.exiting retired) }

/-- One step of the system. A `submit` that finds the queue closed throws, which changes nothing. -/
def step (lim : Limits) (s : State) : Label → Option State
  | .submit task =>
    if s.closed then some s
    else some { s with
      queue := s.queue ++ [task]
      submits := .enqueued :: s.submits
      accepted := s.accepted ++ [task] }
  | .submitter p => if p ∈ s.submits then some (submitStep lim s p) else none
  | .worker w => if w ∈ s.workers then workerStep lim s w else none
  | .spurious old =>
    if .cas old ∈ s.workers then some (s.move (.cas old) (.cas s.nth)) else none
  | .close => some { s with closed := true }
  | .allDone =>
    if s.closed ∧ s.ndet = 0 ∧ ∀ w ∈ s.workers, w.holds = false then some { s with returned := true }
    else none

end Fs123.Threadpool
