import Fs123.Core.ProducerConsumerQueue
import Mathlib.Data.List.Perm.Basic

/-!
# The thread pool

The model of `core123/threadpool.hpp`: `n` workers that take workunits out of a queue and run them, threads that
submit, and one thread that constructs the pool and shuts it down. What the threads do in the queue is
`Pcq.step`, so a run of the pool contains a run of its queue (`State.Inv.queue`), and what is known of the queue
holds in the pool.

`threadpool_runs_each`: every workunit that was accepted is run exactly once, at the latest when `shutdown`
returns; one worker runs them in the order in which they were accepted; and the pool cannot get stuck.
-/

namespace Fs123.PlainThreadpool

open Condvar Transition

variable {α : Type*}

/-- The queue `q`, with the workers that are in `dequeue` as its consumers, the size of `threads`, the workunits
that are being run and those that have been run, and how far `shutdown` has come. -/
structure State (α : Type*) where
  q : Pcq.State α
  threads : ℕ
  running : List α
  ran : List α
  isShutdown : Bool
  joined : Bool
  deriving Repr, DecidableEq

def init (backlog : ℕ) : State α := ⟨Pcq.init backlog, 0, [], [], false, false⟩

inductive Label (α : Type*) where
  /-- The constructor creates a thread. -/
  | spawn
  /-- The constructor cannot create a thread: it calls `shutdown` and throws. -/
  | spawnFails
  /-- `submit` of a workunit. -/
  | submit (inPool : Bool) (wu : α)
  /-- A thread in `submit` takes its turn in `enqueue`. -/
  | enqueue (wu : α) (woken : Option Unit)
  /-- A worker takes its turn in `dequeue`. -/
  | dequeue (woken : Option α)
  /-- A workunit comes to its end, and its worker calls `dequeue` again. -/
  | ends (wu : α)
  /-- `shutdown` closes the queue. -/
  | shutdown
  /-- `threads.clear()` has joined all threads. -/
  | join
  /-- A `wait` returns without a notification. -/
  | spuriousEnqueue (wu : α)
  | spuriousDequeue
  deriving Repr, DecidableEq

/-- The constructor, a thread in `submit` or a worker goes on. -/
def Label.isProgress : Label α → Bool
  | spawn | enqueue _ _ | dequeue _ | ends _ => true
  | _ => false

variable [DecidableEq α]

/-- A thread goes on in the queue. -/
def inQueue (s : State α) (l : Pcq.Label α) : Option (State α) :=
  (Pcq.step s.q l).map fun q => { s with q }

/-- A worker goes on in the queue: it may come back with a workunit. -/
def worker (s : State α) (woken : Option α) : Option (State α) :=
  (inQueue s (.dequeue woken)).map fun s' =>
    match (s.q.q.dequeue).1 with
    | .returns (some wu) => { s' with running := wu :: s.running }
    | _ => s'

/-- One step of a pool of `n` threads. A `submit` by a workunit throws, which changes nothing, and so does one that
finds the queue closed. The pool is used when its constructor has returned. -/
def step (n : ℕ) (s : State α) : Label α → Option (State α)
  | .spawn => if s.threads < n ∧ s.isShutdown = false
    then (inQueue s .callDequeue).map fun s' => { s' with threads := s.threads + 1 } else none
  | .spawnFails => if s.threads < n ∧ s.isShutdown = false
    then (inQueue s .close).map fun s' => { s' with isShutdown := true } else none
  | .submit inPool wu =>
    if s.threads = n ∧ (inPool = true → s.running ≠ []) then
      if inPool then some s else inQueue s (.callEnqueue wu)
    else none
  | .enqueue wu woken => inQueue s (.enqueue wu woken)
  | .dequeue woken => worker s woken
  | .ends wu => if wu ∈ s.running
    then (inQueue s .callDequeue).map fun s' => { s' with running := s.running.erase wu, ran := s.ran ++ [wu] }
    else none
  | .shutdown => if s.threads = n
    then (inQueue s .close).map fun s' => { s' with isShutdown := true } else none
  | .join => if s.isShutdown = true ∧ s.q.drained = s.threads then some { s with joined := true }
    else none
  | .spuriousEnqueue wu => inQueue s (.spuriousEnqueue wu)
  | .spuriousDequeue => inQueue s .spuriousDequeue

variable {s s' : State α} {n backlog : ℕ} {ls : List (Label α)}

/-! ## What a worker does -/

theorem inQueue_cases {l : Pcq.Label α} (h : inQueue s l = some s') :
    ∃ q, Pcq.step s.q l = some q ∧ s' = { s with q } := by
  obtain ⟨q, hq, rfl⟩ := Option.map_eq_some_iff.mp h
  exact ⟨q, hq, rfl⟩

/-- What the turn of a worker can do. -/
inductive Works (s : State α) (q : Pcq.State α) : State α → Prop where
  | sleeps (hconsumers : q.consumers.length = s.q.consumers.length) (hdrained : q.drained = s.q.drained)
    (hdequeued : q.dequeued = s.q.dequeued) : Works s q { s with q }
  | exits (hconsumers : q.consumers.length + 1 = s.q.consumers.length) (hdrained : q.drained = s.q.drained + 1)
    (hdequeued : q.dequeued = s.q.dequeued) : Works s q { s with q }
  | takes (wu : α) (hconsumers : q.consumers.length + 1 = s.q.consumers.length) (hdrained : q.drained = s.q.drained)
    (hdequeued : q.dequeued = s.q.dequeued ++ [wu]) : Works s q { s with q, running := wu :: s.running }

/-- What a turn in `dequeue` leaves alone. -/
structure SameCalls (q q' : Pcq.State α) : Prop where
  producers : q'.producers.length = q.producers.length
  enqueued : q'.enqueued = q.enqueued
  isClosed : q'.q.isClosed = q.q.isClosed

theorem worker_cases {woken : Option α} (h : worker s woken = some s') :
    ∃ q, Pcq.step s.q (.dequeue woken) = some q ∧ SameCalls s.q q ∧ Works s q s' := by
  obtain ⟨s₁, hs₁, rfl⟩ := Option.map_eq_some_iff.mp h
  obtain ⟨q, hq, rfl⟩ := inQueue_cases hs₁
  obtain ⟨hc, hturn⟩ := Option.ite_none_right_eq_some.mp hq
  refine ⟨q, hq, ?_⟩
  unfold Pcq.Queue.dequeue
  cases Pcq.dequeueTurn_cases hturn with
  | wait hempty hopen =>
    rw [if_pos ⟨hempty, hopen⟩]
    exact ⟨⟨rfl, rfl, rfl⟩, .sleeps (length_sleep hc) rfl rfl⟩
  | drained hempty hclosed =>
    rw [if_neg (fun hwait => Bool.eq_false_iff.mp hwait.2 hclosed), hempty]
    exact ⟨⟨rfl, rfl, rfl⟩, .exits (length_leave hc) rfl rfl⟩
  | popped wu l woken producers hl hnotify =>
    rw [if_neg (fun hwait => List.cons_ne_nil wu l (hl ▸ hwait.1)), hl]
    exact ⟨⟨length_notifyOne hnotify, rfl, rfl⟩, .takes wu (length_leave hc) rfl rfl⟩

/-- What a turn in `enqueue` leaves alone. -/
theorem enqueue_frame {wu : α} {woken : Option Unit} {q : Pcq.State α}
    (h : Pcq.step s.q (.enqueue wu woken) = some q) :
    s.q.producers ≠ [] ∧ q.consumers.length = s.q.consumers.length ∧ q.drained = s.q.drained
      ∧ q.dequeued = s.q.dequeued ∧ q.q.isClosed = s.q.q.isClosed := by
  obtain ⟨ht, hturn⟩ := Option.ite_none_right_eq_some.mp h
  have hne := List.ne_nil_of_mem ht
  cases Pcq.enqueueTurn_cases hturn with
  | wait _ _ => exact ⟨hne, rfl, rfl, rfl, rfl⟩
  | refused _ => exact ⟨hne, rfl, rfl, rfl, rfl⟩
  | pushed _ _ _ _ hnotify => exact ⟨hne, length_notifyOne hnotify, rfl, rfl, rfl⟩

/-! ## The invariant -/

structure Inv (n backlog : ℕ) (s : State α) : Prop where
  queue : ∃ ls, run Pcq.step (Pcq.init backlog) ls = some s.q
  threads_le : s.threads ≤ n
  workers : s.q.consumers.length + s.running.length + s.q.drained = s.threads
  taken : s.q.dequeued.Perm (s.ran ++ s.running)
  inOrder : n = 1 → s.q.dequeued = s.ran ++ s.running
  closed : s.q.q.isClosed = s.isShutdown
  constructed : s.q.producers ≠ [] ∨ s.q.enqueued ≠ [] → s.threads = n
  joined : s.joined = true → s.isShutdown = true ∧ s.q.drained = s.threads

theorem Inv.init (n backlog : ℕ) : Inv n backlog (init backlog : State α) where
  queue := ⟨[], rfl⟩
  threads_le := Nat.zero_le _
  workers := rfl
  taken := .refl _
  inOrder _ := rfl
  closed := rfl
  constructed h := by simp [PlainThreadpool.init, Pcq.init] at h
  joined h := by cases h

/-- A step of the queue makes its run longer. -/
theorem Inv.queue_step (h : Inv n backlog s) {l : Pcq.Label α} {q : Pcq.State α} (hq : Pcq.step s.q l = some q) :
    ∃ ls, run Pcq.step (Pcq.init backlog) ls = some q := by
  obtain ⟨ls, hls⟩ := h.queue
  exact ⟨ls ++ [l], run_concat_eq_some.mpr ⟨s.q, hls, hq⟩⟩

theorem Inv.queue_inv (h : Inv n backlog s) : Pcq.Inv backlog s.q := by
  obtain ⟨ls, hls⟩ := h.queue
  exact Pcq.Inv.of_run hls

theorem Inv.works (h : Inv n backlog s) {woken : Option α} (hw : worker s woken = some s') : Inv n backlog s' := by
  obtain ⟨q, hq, hsame, hworks⟩ := worker_cases hw
  have hqueue := h.queue_step hq
  have hworkers := h.workers
  have hthreads := h.threads_le
  have hclosed := hsame.isClosed.trans h.closed
  have hconstructed : q.producers ≠ [] ∨ q.enqueued ≠ [] → s.threads = n := by
    rw [hsame.enqueued, ← List.length_pos_iff, hsame.producers, List.length_pos_iff]
    exact h.constructed
  cases hworks with
  | sleeps hconsumers hdrained hdequeued =>
    exact {
      queue := hqueue
      threads_le := hthreads
      workers := by
        show q.consumers.length + s.running.length + q.drained = s.threads
        omega
      taken := hdequeued ▸ h.taken
      inOrder := hdequeued ▸ h.inOrder
      closed := hclosed
      constructed := hconstructed
      joined := hdrained ▸ h.joined }
  | exits hconsumers hdrained hdequeued =>
    exact {
      queue := hqueue
      threads_le := hthreads
      workers := by
        show q.consumers.length + s.running.length + q.drained = s.threads
        omega
      taken := hdequeued ▸ h.taken
      inOrder := hdequeued ▸ h.inOrder
      closed := hclosed
      constructed := hconstructed
      joined := fun hj => by
        have := (h.joined hj).2
        omega }
  | takes wu hconsumers hdrained hdequeued =>
    exact {
      queue := hqueue
      threads_le := hthreads
      workers := by
        show q.consumers.length + (s.running.length + 1) + q.drained = s.threads
        omega
      taken := by
        rw [hdequeued]
        refine (h.taken.append_right [wu]).trans ?_
        rw [List.append_assoc]
        exact (List.perm_append_singleton wu s.running).append_left s.ran
      inOrder := fun hone => by
        have hidle : s.running = [] := List.eq_nil_of_length_eq_zero (by omega)
        rw [hdequeued, h.inOrder hone, hidle, List.append_nil]
      closed := hclosed
      constructed := hconstructed
      joined := hdrained ▸ h.joined }

theorem Inv.ends (h : Inv n backlog s) {wu : α} (hwu : wu ∈ s.running) {q : Pcq.State α}
    (hq : Pcq.step s.q .callDequeue = some q) :
    Inv n backlog { s with q, running := s.running.erase wu, ran := s.ran ++ [wu] } := by
  have hqueue := h.queue_step hq
  have hworkers := h.workers
  have hthreads := h.threads_le
  have hlength := List.length_erase_of_mem hwu
  have hpos := List.length_pos_of_mem hwu
  obtain rfl := Option.some.inj hq
  exact {
    queue := hqueue
    threads_le := hthreads
    workers := by
      show s.q.consumers.length + 1 + (s.running.erase wu).length + s.q.drained = s.threads
      omega
    taken := by
      refine h.taken.trans ?_
      rw [List.append_assoc]
      exact (List.perm_cons_erase hwu).append_left s.ran
    inOrder := fun hone => by
      have hsingle : s.running = [wu] := by
        obtain ⟨wu', hsingle⟩ := List.length_eq_one_iff.mp (show s.running.length = 1 by omega)
        rw [hsingle, List.mem_singleton] at hwu
        rw [hsingle, hwu]
      show s.q.dequeued = s.ran ++ [wu] ++ s.running.erase wu
      rw [h.inOrder hone, hsingle, List.erase_cons_head, List.append_nil]
    closed := h.closed
    constructed := h.constructed
    joined := h.joined }

/-- Steps of the queue that the workers and the workunits have no part in. -/
theorem Inv.same (h : Inv n backlog s) {l : Pcq.Label α} {q : Pcq.State α} (hq : Pcq.step s.q l = some q)
    (hconsumers : q.consumers.length = s.q.consumers.length) (hdrained : q.drained = s.q.drained)
    (hdequeued : q.dequeued = s.q.dequeued) (hclosed : q.q.isClosed = s.q.q.isClosed)
    (hconstructed : q.producers ≠ [] ∨ q.enqueued ≠ [] → s.threads = n) : Inv n backlog { s with q } where
  queue := h.queue_step hq
  threads_le := h.threads_le
  workers := by
    show q.consumers.length + s.running.length + q.drained = s.threads
    rw [hconsumers, hdrained, h.workers]
  taken := hdequeued ▸ h.taken
  inOrder := hdequeued ▸ h.inOrder
  closed := hclosed.trans h.closed
  constructed := hconstructed
  joined := hdrained ▸ h.joined

theorem Inv.close (h : Inv n backlog s) {q : Pcq.State α} (hq : Pcq.step s.q .close = some q) :
    Inv n backlog { s with q, isShutdown := true } := by
  have hqueue := h.queue_step hq
  obtain rfl := Option.some.inj hq
  exact {
    queue := hqueue
    threads_le := h.threads_le
    workers := by
      show (notifyAll s.q.consumers).length + s.running.length + s.q.drained = s.threads
      rw [length_notifyAll, h.workers]
    taken := h.taken
    inOrder := h.inOrder
    closed := rfl
    constructed := by
      rw [← List.length_pos_iff, length_notifyAll, List.length_pos_iff]
      exact h.constructed
    joined := fun hj => ⟨rfl, (h.joined hj).2⟩ }

theorem Inv.step {l : Label α} (h : Inv n backlog s) (hstep : step n s l = some s') : Inv n backlog s' := by
  cases l with
  | spawn =>
    obtain ⟨⟨hlt, hopen⟩, hstep⟩ := Option.ite_none_right_eq_some.mp hstep
    obtain ⟨s₁, hs₁, rfl⟩ := Option.map_eq_some_iff.mp hstep
    obtain ⟨q, hq, rfl⟩ := inQueue_cases hs₁
    have hqueue := h.queue_step hq
    obtain rfl := Option.some.inj hq
    exact {
      queue := hqueue
      threads_le := hlt
      workers := by
        show s.q.consumers.length + 1 + s.running.length + s.q.drained = s.threads + 1
        have := h.workers
        omega
      taken := h.taken
      inOrder := h.inOrder
      closed := h.closed
      constructed := fun hcalls => by
        have := h.constructed hcalls
        omega
      joined := fun hj => by
        have := (h.joined hj).1
        rw [hopen] at this
        cases this }
  | spawnFails =>
    obtain ⟨-, hstep⟩ := Option.ite_none_right_eq_some.mp hstep
    obtain ⟨s₁, hs₁, rfl⟩ := Option.map_eq_some_iff.mp hstep
    obtain ⟨q, hq, rfl⟩ := inQueue_cases hs₁
    exact h.close hq
  | submit inPool wu =>
    obtain ⟨⟨hthreads, -⟩, hstep⟩ := Option.ite_none_right_eq_some.mp hstep
    cases inPool with
    | true =>
      obtain rfl := Option.some.inj hstep
      exact h
    | false =>
      obtain ⟨q, hq, rfl⟩ := inQueue_cases hstep
      have hsame := h.same hq
      obtain rfl := Option.some.inj hq
      exact hsame rfl rfl rfl rfl (fun _ => hthreads)
  | enqueue wu woken =>
    obtain ⟨q, hq, rfl⟩ := inQueue_cases hstep
    obtain ⟨hne, hconsumers, hdrained, hdequeued, hclosed⟩ := enqueue_frame hq
    exact h.same hq hconsumers hdrained hdequeued hclosed (fun _ => h.constructed (.inl hne))
  | dequeue woken => exact h.works hstep
  | ends wu =>
    obtain ⟨hwu, hstep⟩ := Option.ite_none_right_eq_some.mp hstep
    obtain ⟨s₁, hs₁, rfl⟩ := Option.map_eq_some_iff.mp hstep
    obtain ⟨q, hq, rfl⟩ := inQueue_cases hs₁
    exact h.ends hwu hq
  | shutdown =>
    obtain ⟨-, hstep⟩ := Option.ite_none_right_eq_some.mp hstep
    obtain ⟨s₁, hs₁, rfl⟩ := Option.map_eq_some_iff.mp hstep
    obtain ⟨q, hq, rfl⟩ := inQueue_cases hs₁
    exact h.close hq
  | join =>
    obtain ⟨hdone, hstep⟩ := Option.ite_none_right_eq_some.mp hstep
    obtain rfl := Option.some.inj hstep
    exact { h with joined := fun _ => hdone }
  | spuriousEnqueue wu =>
    obtain ⟨q, hq, rfl⟩ := inQueue_cases hstep
    have hsame := h.same hq
    obtain ⟨hwu, hq⟩ := Option.ite_none_right_eq_some.mp hq
    obtain rfl := Option.some.inj hq
    exact hsame rfl rfl rfl rfl (fun _ => h.constructed (.inl (List.ne_nil_of_mem hwu)))
  | spuriousDequeue =>
    obtain ⟨q, hq, rfl⟩ := inQueue_cases hstep
    have hsame := h.same hq
    obtain ⟨hc, hq⟩ := Option.ite_none_right_eq_some.mp hq
    obtain rfl := Option.some.inj hq
    exact hsame (length_wakeUp hc) rfl rfl rfl h.constructed

theorem Inv.of_run (hrun : run (PlainThreadpool.step n) (PlainThreadpool.init backlog) ls = some s) :
    Inv n backlog s :=
  run_invariant (Inv.init n backlog) (fun _ _ _ h hstep => h.step hstep) hrun

/-! ## Every workunit is run -/

theorem Inv.enqueued_perm (h : Inv n backlog s) : s.q.enqueued.Perm (s.ran ++ s.running ++ s.q.q.l) := by
  rw [h.queue_inv.enqueued]
  exact h.taken.append_right _

/-- When no workunit is waiting or being run, all of them have been run. -/
theorem Inv.ran_perm (h : Inv n backlog s) (hrunning : s.running = []) (hl : s.q.q.l = []) :
    s.ran.Perm s.q.enqueued := by
  have hperm := h.enqueued_perm
  rw [hrunning, hl, List.append_nil, List.append_nil] at hperm
  exact hperm.symm

/-- No thread of the pool and no `submit` can go on. -/
def Quiet (n : ℕ) (s : State α) : Prop := ∀ l : Label α, l.isProgress = true → step n s l = none

theorem Quiet.running (hq : Quiet n s) : s.running = [] := by
  refine List.eq_nil_iff_forall_not_mem.mpr fun wu hwu => ?_
  have hnone := hq (.ends wu) rfl
  rw [PlainThreadpool.step, if_pos hwu] at hnone
  cases hnone

theorem Quiet.queue (hq : Quiet n s) : Pcq.Quiet s.q := by
  intro l hturn
  cases l with
  | enqueue wu woken => exact Option.map_eq_none_iff.mp (hq (.enqueue wu woken) rfl)
  | dequeue woken =>
    exact Option.map_eq_none_iff.mp (Option.map_eq_none_iff.mp (hq (.dequeue woken) rfl))
  | callEnqueue _ => cases hturn
  | callDequeue => cases hturn
  | close => cases hturn
  | spuriousEnqueue _ => cases hturn
  | spuriousDequeue => cases hturn

/-- A worker that is left sleeps at a queue that is empty and open. -/
theorem Inv.quiet_workers (h : Inv n backlog s) (hq : Quiet n s) :
    s.q.drained = s.threads ∨ s.q.q.isClosed = false ∧ s.q.q.l = [] := by
  have hworkers := h.workers
  rw [hq.running, List.length_nil] at hworkers
  by_cases hnone : s.q.consumers = []
  · rw [hnone, List.length_nil] at hworkers
    exact .inl (by omega)
  · exact .inr (h.queue_inv.quiet_consumers hq.queue hnone)

theorem Inv.quiet_empty (h : Inv n backlog s) (hn : 0 < n) (hq : Quiet n s) : s.q.q.l = [] := by
  rcases h.quiet_workers hq with hdrained | hempty
  · by_contra hne
    -- a workunit in the queue was accepted by a pool that has all of its threads
    have hthreads := h.constructed (.inr (fun hnil => hne (by
      have := h.queue_inv.enqueued
      rw [hnil] at this
      exact (List.append_eq_nil_iff.mp this.symm).2)))
    exact hne (h.queue_inv.drained (by omega)).2
  · exact hempty.2

/-- In every run of a pool of `n` workers: each accepted workunit is in the queue, being run by one of at most `n`
workers, or has been run, and none of them twice. One worker runs them in the order in which they were accepted.
When `shutdown` has joined the threads, each of them has been run. The pool does not get stuck: if no thread can go
on, each of them has been run, no `submit` is waiting, and `shutdown` can join the threads. -/
theorem threadpool_runs_each (hn : 0 < n) (hrun : run (step n) (init backlog) ls = some s) :
    s.q.enqueued.Perm (s.ran ++ s.running ++ s.q.q.l) ∧ s.running.length ≤ n
      ∧ (n = 1 → s.q.enqueued = s.ran ++ s.running ++ s.q.q.l)
      ∧ (s.joined = true → s.ran.Perm s.q.enqueued)
      ∧ (Quiet n s → s.ran.Perm s.q.enqueued ∧ (0 < backlog → s.q.producers = [])
        ∧ (s.isShutdown = true → s.q.drained = s.threads)) := by
  have h := Inv.of_run hrun
  have hworkers := h.workers
  have hthreads := h.threads_le
  refine ⟨h.enqueued_perm, by omega, ?_, ?_, ?_⟩
  · intro hone
    rw [h.queue_inv.enqueued, h.inOrder hone]
  · intro hjoined
    have hdone := (h.joined hjoined).2
    have hrunning : s.running = [] := List.eq_nil_of_length_eq_zero (by omega)
    refine h.ran_perm hrunning ?_
    rcases Nat.eq_zero_or_pos s.threads with hzero | hpos
    · by_contra hne
      have hall := h.constructed (.inr (fun hnil => hne (by
        have := h.queue_inv.enqueued
        rw [hnil] at this
        exact (List.append_eq_nil_iff.mp this.symm).2)))
      omega
    · exact (h.queue_inv.drained (by omega)).2
  · intro hq
    have hempty := h.quiet_empty hn hq
    refine ⟨h.ran_perm hq.running hempty, ?_, ?_⟩
    · intro hbacklog
      by_contra hne
      have hfull := (h.queue_inv.quiet_producers hq.queue hne).2
      rw [hempty, List.length_nil] at hfull
      omega
    · intro hshut
      rcases h.quiet_workers hq with hdrained | hidle
      · exact hdrained
      · rw [h.closed, hshut] at hidle
        cases hidle.1

/-- A pool of one worker, with two workunits and a third that comes after `shutdown`. -/
def oneWorker : List (Label ℕ) :=
  [.spawn, .dequeue none, .submit false 1, .enqueue 1 (some ()), .submit false 2, .dequeue none, .enqueue 2 none,
    .shutdown, .submit false 3, .enqueue 3 none, .ends 1, .dequeue none, .ends 2, .dequeue none, .join]

theorem threadpool_runs_each_one : ∃ s, run (step 1) (init 10) oneWorker = some s ∧ s.joined = true
    ∧ s.ran = [1, 2] ∧ s.q.refused = [3] ∧ s.q.enqueued = s.ran ++ s.running ++ s.q.q.l :=
  ⟨_, rfl, rfl, rfl, rfl,
    (threadpool_runs_each Nat.one_pos (rfl : run (step 1) (init 10) oneWorker = some _)).2.2.1 rfl⟩

end Fs123.PlainThreadpool
