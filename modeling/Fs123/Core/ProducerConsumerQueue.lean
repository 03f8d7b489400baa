import Fs123.Common.Condvar
import Fs123.Common.Transition

/-!
# The queue between producers and consumers

The model of `core123/producerconsumerqueue.hpp`: `Queue` is the data that the mutex protects, `Queue.enqueue`
and `Queue.dequeue` are what a thread does with the mutex locked, from the test of the loop to the next `wait`
or to the return. A state adds the threads inside these calls, and the runs interleave their turns with new
calls, `close` and spurious wakeups.

`queue_serves`: in every run the items come out in the order they went in, each one once, no more than
`capacity` are held, and no wakeup is lost: when no thread can go on, those that wait do so at a queue that is
open and empty, or open and full.
-/

namespace Fs123.Pcq

open Condvar Transition

variable {α : Type*}

/-! ## The queue under its mutex -/

/-- The data that the mutex protects. -/
structure Queue (α : Type*) where
  l : List α
  isClosed : Bool
  capacity : ℕ
  deriving Repr, DecidableEq

/-- What comes of the loop at the head of a call: the thread waits, or the call goes on and returns. -/
inductive Turn (β : Type*) where
  | wait
  | returns (b : β)
  deriving Repr, DecidableEq

namespace Queue

/-- `enqueue(t)`, and `emplace(args...)`, where `t` is made of `args`. -/
def enqueue (q : Queue α) (t : α) : Turn Bool × Queue α :=
  if q.capacity ≤ q.l.length ∧ q.isClosed = false then (.wait, q)
  else if q.isClosed then (.returns false, q)
  else (.returns true, { q with l := q.l ++ [t] })

/-- Both versions of `dequeue`. What the caller gets is the item that was replaced, or nothing. -/
def dequeue (q : Queue α) : Turn (Option α) × Queue α :=
  if q.l = [] ∧ q.isClosed = false then (.wait, q)
  else
    match q.l with
    | [] => (.returns none, q)
    | t :: l => (.returns (some t), { q with l })

def close (q : Queue α) : Queue α := { q with isClosed := true }

end Queue

/-! ## The threads -/

/-- The queue, the threads in `enqueue` and `dequeue`, and what has come of the calls that have returned. -/
structure State (α : Type*) where
  q : Queue α
  producers : List (Caller α)
  consumers : List (Caller Unit)
  /-- The items of the calls of `enqueue` that returned true, in their order. -/
  enqueued : List α
  /-- The items of those that returned false. -/
  refused : List α
  /-- The items that calls of `dequeue` returned. -/
  dequeued : List α
  /-- How many calls of `dequeue` returned without one. -/
  drained : ℕ
  deriving Repr, DecidableEq

def init (capacity : ℕ) : State α := ⟨⟨[], false, capacity⟩, [], [], [], [], [], 0⟩

inductive Label (α : Type*) where
  /-- A thread calls `enqueue(t)`. -/
  | callEnqueue (t : α)
  /-- A thread calls `dequeue`. -/
  | callDequeue
  | close
  /-- A thread in `enqueue(t)` takes its turn. If it notifies a consumer, `woken` is woken. -/
  | enqueue (t : α) (woken : Option Unit)
  /-- A thread in `dequeue` takes its turn. If it notifies a producer, `woken` is woken. -/
  | dequeue (woken : Option α)
  /-- A `wait` returns without a notification. -/
  | spuriousEnqueue (t : α)
  | spuriousDequeue
  deriving Repr, DecidableEq

/-- The thread that takes the step is one of those that are in a call, and no spurious wakeup brought it there. -/
def Label.isTurn : Label α → Bool
  | enqueue _ _ | dequeue _ => true
  | _ => false

section

variable [DecidableEq α]

/-- A turn of a thread in `enqueue(t)`. -/
def enqueueTurn (s : State α) (t : α) (woken : Option Unit) : Option (State α) :=
  match s.q.enqueue t with
  | (.wait, q) => some { s with q, producers := sleep t s.producers }
  | (.returns false, q) => some { s with q, producers := leave t s.producers, refused := s.refused ++ [t] }
  | (.returns true, q) => (notifyOne woken s.consumers).map fun consumers =>
    { s with q, consumers, producers := leave t s.producers, enqueued := s.enqueued ++ [t] }

/-- A turn of a thread in `dequeue`. -/
def dequeueTurn (s : State α) (woken : Option α) : Option (State α) :=
  match s.q.dequeue with
  | (.wait, q) => some { s with q, consumers := sleep () s.consumers }
  | (.returns none, q) => some { s with q, consumers := leave () s.consumers, drained := s.drained + 1 }
  | (.returns (some t), q) => (notifyOne woken s.producers).map fun producers =>
    { s with q, producers, consumers := leave () s.consumers, dequeued := s.dequeued ++ [t] }

def step (s : State α) : Label α → Option (State α)
  | .callEnqueue t => some { s with producers := .awake t :: s.producers }
  | .callDequeue => some { s with consumers := .awake () :: s.consumers }
  | .close => some { s with
      q := s.q.close
      producers := notifyAll s.producers
      consumers := notifyAll s.consumers }
  | .enqueue t woken => if .awake t ∈ s.producers then enqueueTurn s t woken else none
  | .dequeue woken => if .awake () ∈ s.consumers then dequeueTurn s woken else none
  | .spuriousEnqueue t =>
    if .asleep t ∈ s.producers then some { s with producers := wakeUp t s.producers } else none
  | .spuriousDequeue =>
    if .asleep () ∈ s.consumers then some { s with consumers := wakeUp () s.consumers } else none

end

variable [DecidableEq α] {s s' : State α} {capacity : ℕ} {ls : List (Label α)}

/-! ## What a turn does -/

/-- What a turn of a thread in `enqueue(t)` can do. -/
inductive Enqueues (s : State α) (t : α) : State α → Prop where
  | wait (hfull : s.q.capacity ≤ s.q.l.length) (hopen : s.q.isClosed = false) :
    Enqueues s t { s with producers := sleep t s.producers }
  | refused (hclosed : s.q.isClosed = true) :
    Enqueues s t { s with producers := leave t s.producers, refused := s.refused ++ [t] }
  | pushed (woken : Option Unit) (consumers : List (Caller Unit)) (hroom : s.q.l.length < s.q.capacity)
    (hopen : s.q.isClosed = false) (hnotify : notifyOne woken s.consumers = some consumers) :
    Enqueues s t { s with
      q := { s.q with l := s.q.l ++ [t] }
      consumers
      producers := leave t s.producers
      enqueued := s.enqueued ++ [t] }

theorem enqueueTurn_cases {t : α} {woken : Option Unit} (h : enqueueTurn s t woken = some s') :
    Enqueues s t s' := by
  unfold enqueueTurn Queue.enqueue at h
  by_cases hwait : s.q.capacity ≤ s.q.l.length ∧ s.q.isClosed = false
  · rw [if_pos hwait] at h
    obtain rfl := Option.some.inj h
    exact .wait hwait.1 hwait.2
  rw [if_neg hwait] at h
  by_cases hclosed : s.q.isClosed = true
  · rw [if_pos hclosed] at h
    obtain rfl := Option.some.inj h
    exact .refused hclosed
  · rw [if_neg hclosed] at h
    obtain ⟨consumers, hnotify, rfl⟩ := Option.map_eq_some_iff.mp h
    have hopen := Bool.eq_false_iff.mpr hclosed
    exact .pushed woken consumers (Nat.not_le.mp fun hfull => hwait ⟨hfull, hopen⟩) hopen hnotify

/-- What a turn of a thread in `dequeue` can do. -/
inductive Dequeues (s : State α) : State α → Prop where
  | wait (hempty : s.q.l = []) (hopen : s.q.isClosed = false) :
    Dequeues s { s with consumers := sleep () s.consumers }
  | drained (hempty : s.q.l = []) (hclosed : s.q.isClosed = true) :
    Dequeues s { s with consumers := leave () s.consumers, drained := s.drained + 1 }
  | popped (t : α) (l : List α) (woken : Option α) (producers : List (Caller α)) (hl : s.q.l = t :: l)
    (hnotify : notifyOne woken s.producers = some producers) :
    Dequeues s { s with
      q := { s.q with l }
      producers
      consumers := leave () s.consumers
      dequeued := s.dequeued ++ [t] }

theorem dequeueTurn_cases {woken : Option α} (h : dequeueTurn s woken = some s') : Dequeues s s' := by
  unfold dequeueTurn Queue.dequeue at h
  by_cases hwait : s.q.l = [] ∧ s.q.isClosed = false
  · rw [if_pos hwait] at h
    obtain rfl := Option.some.inj h
    exact .wait hwait.1 hwait.2
  rw [if_neg hwait] at h
  rcases hl : s.q.l with _ | ⟨t, l⟩
  · rw [hl] at h
    obtain rfl := Option.some.inj h
    exact .drained hl (Bool.not_eq_false _ ▸ fun hopen => hwait ⟨hl, hopen⟩)
  · rw [hl] at h
    obtain ⟨producers, hnotify, rfl⟩ := Option.map_eq_some_iff.mp h
    exact .popped t l woken producers hl hnotify

/-- A thread that is awake in `enqueue(t)` can take its turn. -/
theorem exists_enqueueTurn (s : State α) (t : α) : ∃ woken s', enqueueTurn s t woken = some s' := by
  obtain ⟨woken, consumers, hnotify⟩ := exists_notifyOne s.consumers
  refine ⟨woken, ?_⟩
  unfold enqueueTurn
  rcases s.q.enqueue t with ⟨_ | _ | _, q⟩
  · exact ⟨_, rfl⟩
  · exact ⟨_, rfl⟩
  · exact ⟨_, by rw [hnotify]; rfl⟩

/-- A thread that is awake in `dequeue` can take its turn. -/
theorem exists_dequeueTurn (s : State α) : ∃ woken s', dequeueTurn s woken = some s' := by
  obtain ⟨woken, producers, hnotify⟩ := exists_notifyOne s.producers
  refine ⟨woken, ?_⟩
  unfold dequeueTurn
  rcases s.q.dequeue with ⟨_ | _ | _, q⟩
  · exact ⟨_, rfl⟩
  · exact ⟨_, rfl⟩
  · exact ⟨_, by rw [hnotify]; rfl⟩

/-! ## The invariant -/

structure Inv (capacity : ℕ) (s : State α) : Prop where
  capacity_eq : s.q.capacity = capacity
  length_le : s.q.l.length ≤ capacity
  enqueued : s.enqueued = s.dequeued ++ s.q.l
  refused : s.refused ≠ [] → s.q.isClosed = true
  drained : 0 < s.drained → s.q.isClosed = true ∧ s.q.l = []
  closed : s.q.isClosed = true → sleepers s.producers = 0 ∧ sleepers s.consumers = 0
  /-- The units that producers wait for are places in the queue. -/
  producers : Served s.producers (capacity - s.q.l.length)
  /-- The units that consumers wait for are items. -/
  consumers : Served s.consumers s.q.l.length

omit [DecidableEq α] in
theorem Inv.init (capacity : ℕ) : Inv capacity (init capacity : State α) where
  capacity_eq := rfl
  length_le := Nat.zero_le _
  enqueued := rfl
  refused h := absurd rfl h
  drained h := absurd h (Nat.lt_irrefl 0)
  closed h := by cases h
  producers := .of_sleepers _ rfl
  consumers := .of_sleepers _ rfl

theorem Inv.enqueues {t : α} (h : Inv capacity s) (ht : .awake t ∈ s.producers) (hs : Enqueues s t s') :
    Inv capacity s' := by
  cases hs with
  | wait hfull hopen =>
    have hunits : capacity - s.q.l.length = 0 := by
      have := h.capacity_eq
      omega
    exact { h with
      closed := fun hclosed => absurd hclosed (Bool.eq_false_iff.mp hopen)
      producers := by
        rw [hunits]
        exact .sleep t s.producers }
  | refused hclosed =>
    have hproducers : sleepers (leave t s.producers) = 0 :=
      (sleepers_leave ht).trans (h.closed hclosed).1
    exact { h with
      refused := fun _ => hclosed
      closed := fun _ => ⟨hproducers, (h.closed hclosed).2⟩
      producers := .of_sleepers _ hproducers }
  | pushed woken consumers hroom hopen hnotify =>
    have hnot : ¬ s.q.isClosed = true := Bool.eq_false_iff.mp hopen
    rw [h.capacity_eq] at hroom
    exact {
      capacity_eq := h.capacity_eq
      length_le := by
        rw [List.length_append]
        exact hroom
      enqueued := by rw [h.enqueued, List.append_assoc]
      refused := h.refused
      drained := fun hpos => absurd (h.drained hpos).1 hnot
      closed := fun hclosed => absurd hclosed hnot
      producers := by
        have hleave := h.producers.leave ht
        rw [Nat.sub_sub] at hleave
        rwa [List.length_append]
      consumers := by
        rw [List.length_append]
        exact h.consumers.notifyOne hnotify }

theorem Inv.dequeues (h : Inv capacity s) (hc : .awake () ∈ s.consumers) (hs : Dequeues s s') :
    Inv capacity s' := by
  cases hs with
  | wait hempty hopen =>
    exact { h with
      closed := fun hclosed => absurd hclosed (Bool.eq_false_iff.mp hopen)
      consumers := by
        rw [hempty]
        exact .sleep () s.consumers }
  | drained hempty hclosed =>
    have hconsumers : sleepers (leave () s.consumers) = 0 :=
      (sleepers_leave hc).trans (h.closed hclosed).2
    exact { h with
      drained := fun _ => ⟨hclosed, hempty⟩
      closed := fun _ => ⟨(h.closed hclosed).1, hconsumers⟩
      consumers := .of_sleepers _ hconsumers }
  | popped t l woken producers hl hnotify =>
    have hlength : s.q.l.length = l.length + 1 := by rw [hl, List.length_cons]
    have hle := h.length_le
    exact {
      capacity_eq := h.capacity_eq
      length_le := by
        show l.length ≤ capacity
        omega
      enqueued := by rw [h.enqueued, hl, List.append_assoc, List.singleton_append]
      refused := h.refused
      drained := fun hpos => by
        have hnil := (h.drained hpos).2
        rw [hl] at hnil
        cases hnil
      closed := fun hclosed => by
        have hasleep := h.closed hclosed
        refine ⟨?_, (sleepers_leave hc).trans hasleep.2⟩
        obtain ⟨b, hb, -⟩ | ⟨hnone, rfl⟩ := notifyOne_cases hnotify
        · have := sleepers_wakeUp hb
          omega
        · exact hnone
      producers := by
        have hwoken := h.producers.notifyOne hnotify
        have hunits : capacity - s.q.l.length + 1 = capacity - l.length := by omega
        rwa [hunits] at hwoken
      consumers := by
        have hleave := h.consumers.leave hc
        rwa [hlength, Nat.add_sub_cancel] at hleave }

theorem Inv.step {l : Label α} (h : Inv capacity s) (hstep : step s l = some s') : Inv capacity s' := by
  cases l with
  | callEnqueue t =>
    obtain rfl := Option.some.inj hstep
    exact { h with producers := h.producers.enter t }
  | callDequeue =>
    obtain rfl := Option.some.inj hstep
    exact { h with consumers := h.consumers.enter () }
  | close =>
    obtain rfl := Option.some.inj hstep
    exact { h with
      refused := fun _ => rfl
      drained := fun hpos => ⟨rfl, (h.drained hpos).2⟩
      closed := fun _ => ⟨sleepers_notifyAll _, sleepers_notifyAll _⟩
      producers := .of_sleepers _ (sleepers_notifyAll _)
      consumers := .of_sleepers _ (sleepers_notifyAll _) }
  | enqueue t woken =>
    obtain ⟨ht, hturn⟩ := Option.ite_none_right_eq_some.mp hstep
    exact h.enqueues ht (enqueueTurn_cases hturn)
  | dequeue woken =>
    obtain ⟨hc, hturn⟩ := Option.ite_none_right_eq_some.mp hstep
    exact h.dequeues hc (dequeueTurn_cases hturn)
  | spuriousEnqueue t =>
    obtain ⟨ht, hs⟩ := Option.ite_none_right_eq_some.mp hstep
    obtain rfl := Option.some.inj hs
    have hsleepers := sleepers_wakeUp ht
    exact { h with
      closed := fun hclosed => by
        have := h.closed hclosed
        omega
      producers := (h.producers.wakeUp ht).mono (Nat.le_succ _) }
  | spuriousDequeue =>
    obtain ⟨hc, hs⟩ := Option.ite_none_right_eq_some.mp hstep
    obtain rfl := Option.some.inj hs
    have hsleepers := sleepers_wakeUp hc
    exact { h with
      closed := fun hclosed => by
        have := h.closed hclosed
        omega
      consumers := (h.consumers.wakeUp hc).mono (Nat.le_succ _) }

theorem Inv.of_run (hrun : run Pcq.step (Pcq.init capacity) ls = some s) : Inv capacity s :=
  run_invariant (Inv.init capacity) (fun _ _ _ h hstep => h.step hstep) hrun

/-! ## A closed queue -/

theorem step_closed {l : Label α} (hclosed : s.q.isClosed = true) (hstep : step s l = some s') :
    s'.q.isClosed = true ∧ s'.enqueued = s.enqueued := by
  cases l with
  | callEnqueue t =>
    obtain rfl := Option.some.inj hstep
    exact ⟨hclosed, rfl⟩
  | callDequeue =>
    obtain rfl := Option.some.inj hstep
    exact ⟨hclosed, rfl⟩
  | close =>
    obtain rfl := Option.some.inj hstep
    exact ⟨rfl, rfl⟩
  | enqueue t woken =>
    obtain ⟨ht, hturn⟩ := Option.ite_none_right_eq_some.mp hstep
    cases enqueueTurn_cases hturn with
    | wait hfull hopen => exact ⟨hclosed, rfl⟩
    | refused _ => exact ⟨hclosed, rfl⟩
    | pushed _ _ _ hopen _ => exact absurd hclosed (Bool.eq_false_iff.mp hopen)
  | dequeue woken =>
    obtain ⟨hc, hturn⟩ := Option.ite_none_right_eq_some.mp hstep
    cases dequeueTurn_cases hturn with
    | wait _ _ => exact ⟨hclosed, rfl⟩
    | drained _ _ => exact ⟨hclosed, rfl⟩
    | popped _ _ _ _ _ _ => exact ⟨hclosed, rfl⟩
  | spuriousEnqueue t =>
    obtain ⟨_, hs⟩ := Option.ite_none_right_eq_some.mp hstep
    obtain rfl := Option.some.inj hs
    exact ⟨hclosed, rfl⟩
  | spuriousDequeue =>
    obtain ⟨_, hs⟩ := Option.ite_none_right_eq_some.mp hstep
    obtain rfl := Option.some.inj hs
    exact ⟨hclosed, rfl⟩

/-- Nothing is pushed after `close`. -/
theorem run_closed (hclosed : s.q.isClosed = true) (hrun : run step s ls = some s') :
    s'.q.isClosed = true ∧ s'.enqueued = s.enqueued := by
  refine run_invariant (P := fun t => t.q.isClosed = true ∧ t.enqueued = s.enqueued) ⟨hclosed, rfl⟩ ?_ hrun
  intro t l t' ht hstep
  have hnext := step_closed ht.1 hstep
  exact ⟨hnext.1, hnext.2.trans ht.2⟩

/-! ## The threads come to rest -/

/-- A turn leaves fewer turns to take. -/
theorem turnsLeft_step {l : Label α} (hturn : l.isTurn = true) (hstep : step s l = some s') :
    turnsLeft s'.producers + turnsLeft s'.consumers < turnsLeft s.producers + turnsLeft s.consumers := by
  cases l with
  | enqueue t woken =>
    obtain ⟨ht, hturn⟩ := Option.ite_none_right_eq_some.mp hstep
    have hsleep := turnsLeft_sleep ht
    have hleave := turnsLeft_leave ht
    cases enqueueTurn_cases hturn with
    | wait _ _ =>
      dsimp only
      omega
    | refused _ =>
      dsimp only
      omega
    | pushed _ _ _ _ hnotify =>
      have := turnsLeft_notifyOne hnotify
      dsimp only
      omega
  | dequeue woken =>
    obtain ⟨hc, hturn⟩ := Option.ite_none_right_eq_some.mp hstep
    have hsleep := turnsLeft_sleep hc
    have hleave := turnsLeft_leave hc
    cases dequeueTurn_cases hturn with
    | wait _ _ =>
      dsimp only
      omega
    | drained _ _ =>
      dsimp only
      omega
    | popped _ _ _ _ _ hnotify =>
      have := turnsLeft_notifyOne hnotify
      dsimp only
      omega
  | callEnqueue _ => cases hturn
  | callDequeue => cases hturn
  | close => cases hturn
  | spuriousEnqueue _ => cases hturn
  | spuriousDequeue => cases hturn

/-- Without new calls and spurious wakeups there are only so many turns. -/
theorem length_turns_le (hturns : ∀ l ∈ ls, l.isTurn = true) (hrun : run step s ls = some s') :
    ls.length + (turnsLeft s'.producers + turnsLeft s'.consumers)
      ≤ turnsLeft s.producers + turnsLeft s.consumers := by
  induction ls generalizing s with
  | nil =>
    obtain rfl := Option.some.inj hrun
    exact Nat.le_of_eq (Nat.zero_add _)
  | cons l ls ih =>
    obtain ⟨t, hstep, htail⟩ := run_cons_eq_some.mp hrun
    have hfirst := turnsLeft_step (hturns l (List.mem_cons_self ..)) hstep
    have hrest := ih (fun k hk => hturns k (List.mem_cons_of_mem _ hk)) htail
    rw [List.length_cons]
    omega

/-- No thread in a call can take a turn. -/
def Quiet (s : State α) : Prop := ∀ l : Label α, l.isTurn = true → step s l = none

theorem Quiet.producers (h : Quiet s) : awakes s.producers = 0 := by
  by_contra hne
  obtain ⟨t, ht⟩ := exists_awake (Nat.pos_of_ne_zero hne)
  obtain ⟨woken, s', hturn⟩ := exists_enqueueTurn s t
  have hnone := h (.enqueue t woken) rfl
  rw [step, if_pos ht, hturn] at hnone
  cases hnone

theorem Quiet.consumers (h : Quiet s) : awakes s.consumers = 0 := by
  by_contra hne
  obtain ⟨_, hc⟩ := exists_awake (Nat.pos_of_ne_zero hne)
  obtain ⟨woken, s', hturn⟩ := exists_dequeueTurn s
  have hnone := h (.dequeue woken) rfl
  rw [step, if_pos hc, hturn] at hnone
  cases hnone

theorem Inv.quiet_producers (h : Inv capacity s) (hq : Quiet s) (hne : s.producers ≠ []) :
    s.q.isClosed = false ∧ s.q.l.length = capacity := by
  have hawake := hq.producers
  have hcount := awakes_add_sleepers s.producers
  have hpos := List.length_pos_iff.mpr hne
  have hserved := h.producers (by omega)
  have hle := h.length_le
  refine ⟨Bool.eq_false_iff.mpr fun hclosed => ?_, by omega⟩
  have := (h.closed hclosed).1
  omega

theorem Inv.quiet_consumers (h : Inv capacity s) (hq : Quiet s) (hne : s.consumers ≠ []) :
    s.q.isClosed = false ∧ s.q.l = [] := by
  have hawake := hq.consumers
  have hcount := awakes_add_sleepers s.consumers
  have hpos := List.length_pos_iff.mpr hne
  have hserved := h.consumers (by omega)
  refine ⟨Bool.eq_false_iff.mpr fun hclosed => ?_, List.eq_nil_of_length_eq_zero (by omega)⟩
  have := (h.closed hclosed).2
  omega

/-- In every run: the items that came out are the first of those that went in, in their order, and the others are
in the queue, which holds no more than `capacity`. A call is refused only when the queue is closed, and nothing
goes in from then on; a call comes back without an item only when the queue is closed and empty. If no more calls
are made, the threads take only so many turns, and when none of them can take one, then those that are still in
`enqueue` wait at a full queue and those in `dequeue` at an empty one, which is not closed. -/
theorem queue_serves (hrun : run step (init capacity) ls = some s) :
    s.enqueued = s.dequeued ++ s.q.l ∧ s.q.l.length ≤ capacity
      ∧ (s.refused ≠ [] → s.q.isClosed = true) ∧ (0 < s.drained → s.q.isClosed = true ∧ s.q.l = [])
      ∧ (∀ ls₁ ls₂ t, ls = ls₁ ++ ls₂ → run step (init capacity) ls₁ = some t → t.q.isClosed = true →
        s.q.isClosed = true ∧ s.enqueued = t.enqueued)
      ∧ (∀ turns s', (∀ l ∈ turns, l.isTurn = true) → run step s turns = some s' →
        turns.length ≤ 3 * (s.producers.length + s.consumers.length))
      ∧ (Quiet s → (s.producers ≠ [] → s.q.isClosed = false ∧ s.q.l.length = capacity)
        ∧ (s.consumers ≠ [] → s.q.isClosed = false ∧ s.q.l = [])) := by
  have h := Inv.of_run hrun
  refine ⟨h.enqueued, h.length_le, h.refused, h.drained, ?_, ?_, ?_⟩
  · rintro ls₁ ls₂ t rfl ht hclosed
    obtain ⟨t', ht', htail⟩ := run_append_eq_some.mp hrun
    obtain rfl : t = t' := Option.some.inj (ht.symm.trans ht')
    exact run_closed hclosed htail
  · intro turns s' hturns hrest
    have hlength := length_turns_le hturns hrest
    have hproducers := turnsLeft_le s.producers
    have hconsumers := turnsLeft_le s.consumers
    omega
  · intro hq
    exact ⟨h.quiet_producers hq, h.quiet_consumers hq⟩

/-- A queue for one item: a consumer sleeps until the first item is there, a producer until it is gone; after
`close` an item is refused and a call comes back without one. -/
def oneItem : List (Label ℕ) :=
  [.callDequeue, .dequeue none, .callEnqueue 1, .callEnqueue 2, .enqueue 1 (some ()), .enqueue 2 none,
    .dequeue (some 2), .enqueue 2 none, .close, .callEnqueue 3, .enqueue 3 none, .callDequeue, .dequeue none,
    .callDequeue, .dequeue none]

theorem queue_serves_oneItem : ∃ s, run step (init 1) oneItem = some s ∧ s.dequeued = [1, 2] ∧ s.refused = [3]
    ∧ s.drained = 1 ∧ s.enqueued = s.dequeued ++ s.q.l :=
  ⟨_, rfl, rfl, rfl, rfl, (queue_serves (rfl : run step (init 1) oneItem = some _)).1⟩

end Fs123.Pcq
