import Mathlib.Data.List.Count
import Mathlib.Data.List.Perm.Basic
import Mathlib.Data.Nat.Notation

/-!
# Condition variables

The threads inside a call that waits on one condition variable, all under one mutex. A caller is awake, and
about to test its condition with the mutex locked, or it is asleep in `wait`. Each of them wants one unit of
something that others supply: `Served cs n` says that the `n` units at hand are not more than the awake
callers, if any caller sleeps. Every supplier who wakes one caller for one unit keeps it.
-/

namespace Condvar

variable {β : Type*}

/-- A thread inside a call with the argument `b`. -/
inductive Caller (β : Type*) where
  | awake (b : β)
  | asleep (b : β)
  deriving Repr, DecidableEq

namespace Caller

def isAwake : Caller β → Bool
  | awake _ => true
  | asleep _ => false

def isAsleep : Caller β → Bool
  | awake _ => false
  | asleep _ => true

def wake : Caller β → Caller β
  | awake b => awake b
  | asleep b => awake b

end Caller

open Caller

/-- The number of callers that are awake. -/
def awakes (cs : List (Caller β)) : ℕ := cs.countP isAwake

/-- The number of callers that are asleep. -/
def sleepers (cs : List (Caller β)) : ℕ := cs.countP isAsleep

/-- Wake all callers. -/
def notifyAll (cs : List (Caller β)) : List (Caller β) := cs.map wake

section

variable [DecidableEq β]

instance decidableMem (c : Caller β) (cs : List (Caller β)) : Decidable (c ∈ cs) :=
  List.instDecidableMemOfLawfulBEq c cs

/-- A caller finds that it has to wait. -/
def sleep (b : β) (cs : List (Caller β)) : List (Caller β) := asleep b :: cs.erase (awake b)

/-- A caller returns from `wait`. -/
def wakeUp (b : β) (cs : List (Caller β)) : List (Caller β) := awake b :: cs.erase (asleep b)

/-- A caller returns from its call. -/
def leave (b : β) (cs : List (Caller β)) : List (Caller β) := cs.erase (awake b)

/-- Wake one of the callers that are asleep, if there are any. Which one is not determined: it is `woken`. -/
def notifyOne (woken : Option β) (cs : List (Caller β)) : Option (List (Caller β)) :=
  match woken with
  | some b => if asleep b ∈ cs then some (wakeUp b cs) else none
  | none => if sleepers cs = 0 then some cs else none

end

/-- If a caller sleeps, there are not more units than callers on their way to take them. -/
def Served (cs : List (Caller β)) (units : ℕ) : Prop := 0 < sleepers cs → units ≤ awakes cs

/-! ## The number of callers -/

@[simp] theorem awakes_awake_cons (b : β) (cs : List (Caller β)) :
    awakes (awake b :: cs) = awakes cs + 1 := List.countP_cons_of_pos rfl

@[simp] theorem sleepers_awake_cons (b : β) (cs : List (Caller β)) :
    sleepers (awake b :: cs) = sleepers cs := List.countP_cons_of_neg Bool.false_ne_true

@[simp] theorem awakes_asleep_cons (b : β) (cs : List (Caller β)) :
    awakes (asleep b :: cs) = awakes cs := List.countP_cons_of_neg Bool.false_ne_true

@[simp] theorem sleepers_asleep_cons (b : β) (cs : List (Caller β)) :
    sleepers (asleep b :: cs) = sleepers cs + 1 := List.countP_cons_of_pos rfl

theorem awakes_add_sleepers (cs : List (Caller β)) : awakes cs + sleepers cs = cs.length := by
  induction cs with
  | nil => rfl
  | cons c cs ih =>
    cases c with
    | awake b =>
      rw [awakes_awake_cons, sleepers_awake_cons, List.length_cons]
      omega
    | asleep b =>
      rw [awakes_asleep_cons, sleepers_asleep_cons, List.length_cons]
      omega

theorem exists_awake {cs : List (Caller β)} (h : 0 < awakes cs) : ∃ b, awake b ∈ cs := by
  obtain ⟨c, hc, hawake⟩ := List.countP_pos_iff.mp h
  cases c with
  | awake b => exact ⟨b, hc⟩
  | asleep b => cases hawake

theorem exists_asleep {cs : List (Caller β)} (h : 0 < sleepers cs) : ∃ b, asleep b ∈ cs := by
  obtain ⟨c, hc, hasleep⟩ := List.countP_pos_iff.mp h
  cases c with
  | awake b => cases hasleep
  | asleep b => exact ⟨b, hc⟩

@[simp] theorem sleepers_notifyAll (cs : List (Caller β)) : sleepers (notifyAll cs) = 0 := by
  induction cs with
  | nil => rfl
  | cons c cs ih => cases c <;> exact ih

@[simp] theorem length_notifyAll (cs : List (Caller β)) : (notifyAll cs).length = cs.length :=
  List.length_map _

section

variable [DecidableEq β] {b : β} {woken : Option β} {cs cs' : List (Caller β)}

theorem awakes_wakeUp (h : asleep b ∈ cs) : awakes (wakeUp b cs) = awakes cs + 1 := by
  have hcount : awakes cs = awakes (asleep b :: cs.erase (asleep b)) :=
    (List.perm_cons_erase h).countP_eq isAwake
  rw [hcount]
  simp [wakeUp]

theorem sleepers_wakeUp (h : asleep b ∈ cs) : sleepers (wakeUp b cs) + 1 = sleepers cs := by
  have hcount : sleepers cs = sleepers (asleep b :: cs.erase (asleep b)) :=
    (List.perm_cons_erase h).countP_eq isAsleep
  rw [hcount]
  simp [wakeUp]

theorem length_wakeUp (h : asleep b ∈ cs) : (wakeUp b cs).length = cs.length :=
  (List.perm_cons_erase h).length_eq.symm

theorem awakes_leave (h : awake b ∈ cs) : awakes (leave b cs) + 1 = awakes cs := by
  have hcount : awakes cs = awakes (awake b :: cs.erase (awake b)) :=
    (List.perm_cons_erase h).countP_eq isAwake
  rw [hcount]
  simp [leave]

theorem sleepers_leave (h : awake b ∈ cs) : sleepers (leave b cs) = sleepers cs := by
  have hcount : sleepers cs = sleepers (awake b :: cs.erase (awake b)) :=
    (List.perm_cons_erase h).countP_eq isAsleep
  rw [hcount]
  simp [leave]

theorem length_leave (h : awake b ∈ cs) : (leave b cs).length + 1 = cs.length :=
  (List.perm_cons_erase h).length_eq.symm

theorem awakes_sleep (h : awake b ∈ cs) : awakes (sleep b cs) + 1 = awakes cs :=
  awakes_leave h

theorem length_sleep (h : awake b ∈ cs) : (sleep b cs).length = cs.length :=
  length_leave h

/-- `notify_one` wakes a caller or finds none asleep. -/
theorem notifyOne_cases (h : notifyOne woken cs = some cs') :
    (∃ b, asleep b ∈ cs ∧ cs' = wakeUp b cs) ∨ (sleepers cs = 0 ∧ cs' = cs) := by
  cases woken with
  | some b =>
    obtain ⟨hb, h⟩ := Option.ite_none_right_eq_some.mp h
    obtain rfl := Option.some.inj h
    exact .inl ⟨b, hb, rfl⟩
  | none =>
    obtain ⟨hnone, h⟩ := Option.ite_none_right_eq_some.mp h
    obtain rfl := Option.some.inj h
    exact .inr ⟨hnone, rfl⟩

theorem length_notifyOne (h : notifyOne woken cs = some cs') : cs'.length = cs.length := by
  obtain ⟨b, hb, rfl⟩ | ⟨-, rfl⟩ := notifyOne_cases h
  · exact length_wakeUp hb
  · rfl

/-- There is always a caller for `notify_one` to wake, or no need for one. -/
theorem exists_notifyOne (cs : List (Caller β)) : ∃ woken cs', notifyOne woken cs = some cs' := by
  rcases Nat.eq_zero_or_pos (sleepers cs) with hnone | hsome
  · exact ⟨none, cs, if_pos hnone⟩
  · obtain ⟨b, hb⟩ := exists_asleep hsome
    exact ⟨some b, wakeUp b cs, if_pos hb⟩

/-! ## No wakeup is lost -/

omit [DecidableEq β] in
theorem Served.of_sleepers (n : ℕ) (h : sleepers cs = 0) : Served cs n := by
  intro hpos
  omega

omit [DecidableEq β] in
theorem Served.mono {m n : ℕ} (h : Served cs n) (hmn : m ≤ n) : Served cs m :=
  fun hpos => Nat.le_trans hmn (h hpos)

omit [DecidableEq β] in
/-- A call begins. -/
theorem Served.enter {n : ℕ} (b : β) (h : Served cs n) : Served (awake b :: cs) n := by
  intro hpos
  rw [sleepers_awake_cons] at hpos
  rw [awakes_awake_cons]
  exact Nat.le_succ_of_le (h hpos)

/-- A caller that is woken makes up for one more unit. -/
theorem Served.wakeUp {n : ℕ} (hb : asleep b ∈ cs) (h : Served cs n) : Served (wakeUp b cs) (n + 1) := by
  intro _
  have hsleepers := sleepers_wakeUp hb
  rw [awakes_wakeUp hb]
  have hn := h (by omega)
  omega

/-- One more unit, with a notification. -/
theorem Served.notifyOne {n : ℕ} (hw : notifyOne woken cs = some cs') (h : Served cs n) :
    Served cs' (n + 1) := by
  obtain ⟨b, hb, rfl⟩ | ⟨hnone, rfl⟩ := notifyOne_cases hw
  · exact h.wakeUp hb
  · exact .of_sleepers _ hnone

/-- A caller takes one unit and returns. -/
theorem Served.leave {n : ℕ} (hb : awake b ∈ cs) (h : Served cs n) : Served (leave b cs) (n - 1) := by
  intro hpos
  rw [sleepers_leave hb] at hpos
  have hawakes := awakes_leave hb
  have hn := h hpos
  omega

/-- A caller that finds no unit goes to sleep. -/
theorem Served.sleep (b : β) (cs : List (Caller β)) : Served (sleep b cs) 0 :=
  fun _ => Nat.zero_le _

/-! ## The turns that callers can still take -/

/-- A caller that is awake can go to sleep or leave; one that sleeps can be woken and leave. -/
def turnsLeft (cs : List (Caller β)) : ℕ := 2 * cs.length + awakes cs

omit [DecidableEq β] in
theorem turnsLeft_le (cs : List (Caller β)) : turnsLeft cs ≤ 3 * cs.length := by
  have := awakes_add_sleepers cs
  unfold turnsLeft
  omega

theorem turnsLeft_sleep (h : awake b ∈ cs) : turnsLeft (sleep b cs) + 1 = turnsLeft cs := by
  have := awakes_sleep h
  have := length_sleep h
  unfold turnsLeft
  omega

theorem turnsLeft_leave (h : awake b ∈ cs) : turnsLeft (leave b cs) + 3 = turnsLeft cs := by
  have := awakes_leave h
  have := length_leave h
  unfold turnsLeft
  omega

theorem turnsLeft_notifyOne (hw : notifyOne woken cs = some cs') :
    turnsLeft cs' ≤ turnsLeft cs + 1 := by
  obtain ⟨b, hb, rfl⟩ | ⟨_, rfl⟩ := notifyOne_cases hw
  · have := awakes_wakeUp hb
    have := length_wakeUp hb
    unfold turnsLeft
    omega
  · exact Nat.le_succ _

end

end Condvar
