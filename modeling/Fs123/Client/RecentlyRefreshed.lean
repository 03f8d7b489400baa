import Fs123.Common.Decimal
import Fs123.Common.LowerBound
import Fs123.Common.Transition
import Mathlib.Data.Int.Order.Basic

/-!
# Repeated background refreshes

The model of `recently_refreshed` in `diskcache.cpp`. A call reads the clock, and takes the lock some time later; what
it does under the lock is one step. While the calls take the lock in the order of their readings, the vector is in the
order of time and only what no later call needs is erased (`Ordered`). A call that has waited for the lock may find its
entry erased by one with a later reading.
-/

namespace Fs123

open Cxx LowerBound

/-- 500 milliseconds, in the ticks of the `system_clock`. -/
def shortTime : ℤ := 500000000

/-- An entry of `recently`. -/
structure RecentEntry where
  url : Bytes
  time : ℤ
  deriving Repr, DecidableEq

/-- `recently_refreshed(url)` under the lock: the result, and the vector. -/
def recentlyRefreshed (recently : List RecentEntry) (url : Bytes) (now : ℤ) : Bool × List RecentEntry :=
  let shortTimeAgo := now - shortTime
  let e := lowerBound (fun a => decide (a.time < shortTimeAgo)) recently
  let recently := recently.drop e
  if recently.any fun a => a.url = url then (true, recently) else (false, recently ++ [⟨url, now⟩])

/-- A call that has returned. -/
structure RecentCall where
  url : Bytes
  now : ℤ
  returned : Bool
  deriving Repr, DecidableEq

/-- The clock, the calls of the threads that have read it, the vector, and the calls that have returned, in the order
of their locks. -/
structure RecentState where
  clock : ℤ
  waiting : ℕ → Option RecentEntry
  recently : List RecentEntry
  calls : List RecentCall

/-- What can happen: the clock is set, a thread calls and reads it, a thread has the lock and returns. -/
inductive RecentLabel where
  | tick (t : ℤ)
  | read (thread : ℕ) (url : Bytes)
  | locked (thread : ℕ)
  deriving Repr, DecidableEq

namespace RecentState

/-- The beginning. -/
def init (t : ℤ) : RecentState := ⟨t, fun _ => none, [], []⟩

/-- One step of the system. -/
def step (s : RecentState) : RecentLabel → Option RecentState
  | .tick t => some { s with clock := t }
  | .read thread url =>
    match s.waiting thread with
    | some _ => none
    | none => some { s with waiting := Function.update s.waiting thread (some ⟨url, s.clock⟩) }
  | .locked thread =>
    match s.waiting thread with
    | none => none
    | some ⟨url, now⟩ =>
      let (returned, recently) := recentlyRefreshed s.recently url now
      some { s with
        waiting := Function.update s.waiting thread none, recently, calls := s.calls ++ [⟨url, now, returned⟩] }

/-- No call with a later reading had the lock before. -/
def InOrder (s : RecentState) : RecentLabel → Prop
  | .locked thread => ∀ a ∈ s.waiting thread, ∀ c ∈ s.calls, c.now ≤ a.time
  | _ => True

/-- Exactly the repeats are suppressed: a call that returned true has an admitted one for its url before it, of the last
500 milliseconds, and two admitted calls for one url are 500 milliseconds apart. -/
structure Suppresses (calls : List RecentCall) : Prop where
  repeated : ∀ before c, before ++ [c] <+: calls → c.returned = true → ∃ c' ∈ before, c'.url = c.url ∧ c'.returned = false ∧ c.now - c'.now ≤ shortTime
  apart : calls.Pairwise fun c' c => c'.url = c.url → c'.returned = false → c.returned = false →
    shortTime ≤ |c.now - c'.now|

/-- The vector and the calls, when the locks were taken in order. -/
structure Ordered (recently : List RecentEntry) (calls : List RecentCall) : Prop where
  sorted : recently.Pairwise fun a b => a.time ≤ b.time
  admitted : ∀ a ∈ recently, ⟨a.url, a.time, false⟩ ∈ calls
  kept : ∀ c ∈ calls, c.returned = false → ⟨c.url, c.now⟩ ∈ recently ∨ ∃ last ∈ calls, c.now < last.now - shortTime
  suppresses : Suppresses calls

variable {recently : List RecentEntry} {calls : List RecentCall} {url : Bytes} {now : ℤ}

/-- What is not erased, while the vector is in order. -/
theorem mem_unerased (hsorted : recently.Pairwise fun a b => a.time ≤ b.time) {a : RecentEntry} :
    a ∈ recently.drop (lowerBound (fun a => decide (a.time < now - shortTime)) recently)
      ↔ a ∈ recently ∧ now - shortTime ≤ a.time := by
  have hr : ∀ a b : RecentEntry, a.time ≤ b.time → decide (b.time < now - shortTime) = true →
      decide (a.time < now - shortTime) = true := by
    intro a b hle hlt
    rw [decide_eq_true_eq] at hlt ⊢
    omega
  rw [mem_drop_lowerBound hr hsorted, decide_eq_false_iff_not, not_lt]

/-- An admitted call that has left the vector is older than any later one may need. -/
theorem Ordered.kept_next (h : Ordered recently calls) (hnow : ∀ c ∈ calls, c.now ≤ now) {c : RecentCall}
    (hc : c ∈ calls) (hadmitted : c.returned = false) :
    ⟨c.url, c.now⟩ ∈ recently.drop (lowerBound (fun a => decide (a.time < now - shortTime)) recently)
      ∨ c.now < now - shortTime := by
  rw [mem_unerased h.sorted]
  rcases h.kept c hc hadmitted with hmem | ⟨last, hlast, hlt⟩
  · rcases Int.lt_or_le c.now (now - shortTime) with hlt | hle
    · exact .inr hlt
    · exact .inl ⟨hmem, hle⟩
  · have hle := hnow last hlast
    exact .inr (by omega)

theorem Suppresses.snoc (h : Suppresses calls) {c : RecentCall}
    (hrepeated : c.returned = true →
      ∃ c' ∈ calls, c'.url = c.url ∧ c'.returned = false ∧ c.now - c'.now ≤ shortTime)
    (hapart : c.returned = false → ∀ c' ∈ calls, c'.url = c.url → c'.returned = false →
      shortTime ≤ |c.now - c'.now|) : Suppresses (calls ++ [c]) := by
  constructor
  · intro before d hd hreturned
    rcases List.prefix_concat_iff.mp hd with heq | hprefix
    · obtain ⟨rfl, hcd⟩ := List.append_inj' heq rfl
      obtain rfl := List.singleton_inj.mp hcd
      exact hrepeated hreturned
    · exact h.repeated before d hprefix hreturned
  · refine List.pairwise_append.mpr ⟨h.apart, List.pairwise_singleton _ _, ?_⟩
    intro c' hc' d hd hurl hreturned' hreturned
    obtain rfl := List.mem_singleton.mp hd
    exact hapart hreturned c' hc' hurl hreturned'

/-- A call that takes the lock in order. -/
theorem Ordered.call (h : Ordered recently calls) (hnow : ∀ c ∈ calls, c.now ≤ now) (url : Bytes) :
    Ordered (recentlyRefreshed recently url now).2
      (calls ++ [⟨url, now, (recentlyRefreshed recently url now).1⟩]) := by
  obtain ⟨R, hR⟩ : ∃ R, R = recently.drop (lowerBound (fun a => decide (a.time < now - shortTime)) recently) :=
    ⟨_, rfl⟩
  have hmem : ∀ {a}, a ∈ R ↔ a ∈ recently ∧ now - shortTime ≤ a.time := by
    intro a
    rw [hR]
    exact mem_unerased h.sorted
  have hsorted : R.Pairwise fun a b => a.time ≤ b.time := hR ▸ h.sorted.sublist (List.drop_sublist _ _)
  have hnext : ∀ c ∈ calls, c.returned = false → ⟨c.url, c.now⟩ ∈ R ∨ c.now < now - shortTime := by
    intro c hc hadmitted
    rw [hR]
    exact h.kept_next hnow hc hadmitted
  unfold recentlyRefreshed
  dsimp only
  rw [← hR]
  split
  · next hany =>
    -- The url is on the list.
    obtain ⟨a, ha, hurl⟩ := List.any_eq_true.mp hany
    have hentry := hmem.mp ha
    refine ⟨hsorted, fun b hb => ?_, fun c hc hadmitted => ?_, h.suppresses.snoc (fun _ => ?_) (by simp)⟩
    · exact List.mem_append_left _ (h.admitted b (hmem.mp hb).1)
    · rcases List.mem_append.mp hc with hc | hc
      · rcases hnext c hc hadmitted with hmem | hlt
        · exact .inl hmem
        · exact .inr ⟨_, List.mem_append_right _ (List.mem_singleton_self _), hlt⟩
      · obtain rfl := List.mem_singleton.mp hc
        cases hadmitted
    · refine ⟨_, h.admitted a hentry.1, of_decide_eq_true hurl, rfl, ?_⟩
      dsimp only
      omega
  · next hany =>
    have hnone : ∀ a ∈ R, a.url ≠ url := by
      intro a ha hurl
      exact hany (List.any_eq_true.mpr ⟨a, ha, decide_eq_true hurl⟩)
    refine ⟨?_, fun b hb => ?_, fun c hc hadmitted => ?_, h.suppresses.snoc (fun h => ?_) fun _ c hc hurl hadmitted => ?_⟩
    · refine List.pairwise_append.mpr ⟨hsorted, List.pairwise_singleton _ _, fun a ha b hb => ?_⟩
      obtain rfl := List.mem_singleton.mp hb
      exact hnow _ (h.admitted a (hmem.mp ha).1)
    · rcases List.mem_append.mp hb with hb | hb
      · exact List.mem_append_left _ (h.admitted b (hmem.mp hb).1)
      · obtain rfl := List.mem_singleton.mp hb
        exact List.mem_append_right _ (List.mem_singleton_self _)
    · rcases List.mem_append.mp hc with hc | hc
      · rcases hnext c hc hadmitted with hmem | hlt
        · exact .inl (List.mem_append_left _ hmem)
        · exact .inr ⟨_, List.mem_append_right _ (List.mem_singleton_self _), hlt⟩
      · obtain rfl := List.mem_singleton.mp hc
        exact .inl (List.mem_append_right _ (List.mem_singleton_self _))
    · cases h
    · rcases hnext c hc hadmitted with hmem | hlt
      · exact absurd hurl (hnone _ hmem)
      · have hle := le_abs_self (now - c.now)
        dsimp only
        omega

/-- Every step in order keeps the order. -/
theorem Ordered.next {s s' : RecentState} {l : RecentLabel} (h : Ordered s.recently s.calls) (hin : s.InOrder l)
    (hstep : s.step l = some s') : Ordered s'.recently s'.calls := by
  cases l with
  | tick t =>
    obtain rfl := Option.some.inj hstep
    exact h
  | read thread url =>
    dsimp only [step] at hstep
    split at hstep
    · cases hstep
    · obtain rfl := Option.some.inj hstep
      exact h
  | locked thread =>
    dsimp only [step] at hstep
    split at hstep
    · cases hstep
    · next url now hwaiting =>
      obtain rfl := Option.some.inj hstep
      exact h.call (hin _ hwaiting) url

/-- While the calls have the lock in the order of their readings, exactly the repeats are suppressed. -/
theorem recently_refreshed_suppresses (t : ℤ) (ls : List RecentLabel)
    (h : Transition.EachStep step InOrder (init t) ls) :
    Transition.Along step (fun _ s => Suppresses s.calls) (init t) ls := by
  have hinit : Ordered (init t).recently (init t).calls :=
    ⟨List.Pairwise.nil, by simp [init], by simp [init], ⟨by simp [init], List.Pairwise.nil⟩⟩
  intro ls₁ ls₂ s hls hs
  have halong := h.along hinit fun s l s' hs hin hstep => Ordered.next hs hin hstep
  exact (halong ls₁ ls₂ s hls hs).suppresses

/-- Two calls of a thread for one url at the same time. -/
theorem suppresses_second : Transition.Along step (fun _ s => Suppresses s.calls) (init 0)
    [.read 1 (bytes "u"), .locked 1, .read 1 (bytes "u"), .locked 1] := by
  refine recently_refreshed_suppresses 0 _ ?_
  refine Transition.eachStep_cons rfl trivial (Transition.eachStep_cons rfl ?_
    (Transition.eachStep_cons rfl trivial (Transition.eachStep_cons rfl ?_ Transition.eachStep_nil)))
  · intro a _ c hc
    exact absurd hc List.not_mem_nil
  · intro a ha c hc
    obtain rfl := Option.some.inj ha
    obtain rfl := List.mem_singleton.mp hc
    exact le_refl _

/-- The second call for `u` reads the clock after 400 milliseconds, and has the lock after a call of another thread that
has read it after 600 milliseconds and erased the entry. -/
def lateCall : List RecentLabel :=
  [.read 1 (bytes "u"), .locked 1, .tick 400000000, .read 2 (bytes "u"), .tick 600000000, .read 3 (bytes "v"),
    .locked 3, .locked 2]

theorem lateCall_admitted : ∃ s, Transition.run step (init 0) lateCall = some s
    ∧ s.calls = [⟨bytes "u", 0, false⟩, ⟨bytes "v", 600000000, false⟩, ⟨bytes "u", 400000000, false⟩]
    ∧ ¬ Suppresses s.calls := by
  refine ⟨_, rfl, rfl, fun h => ?_⟩
  have hle := List.rel_of_pairwise_cons h.apart (List.mem_of_getElem? (i := 1) rfl) rfl rfl rfl
  exact absurd hle (by decide)

end RecentState

end Fs123
