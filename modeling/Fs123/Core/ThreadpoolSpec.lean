import Fs123.Core.ElasticThreadpool
import Mathlib.Data.List.Perm.Basic
import Mathlib.Tactic.Linarith

/-!
# The accounting of the elastic thread pool

`Inv` relates the three counters of the pool to the places where its threads are. It is kept by the steps
that are `Timely`: a thread is created only while there is still room for it, a worker does not look for
enough idle threads before any worker is counted, and `shutdown` does not overtake a `submit`.
-/

namespace Fs123.Threadpool

open Transition State

variable {lim : Limits} {s s' : State} {l : Label} {w w' : Worker} {p p' : Submit}

/-! ## Counting threads -/

/-- One thread of a list goes on to another place. -/
theorem countP_move {α : Type} [DecidableEq α] (f : α → Bool) {l : List α} {a : α} (b : α) (h : a ∈ l) :
    (b :: l.erase a).countP f + (f a).toNat = l.countP f + (f b).toNat := by
  rw [(List.perm_cons_erase h).countP_eq f, List.countP_cons, List.countP_cons]
  cases f a <;> cases f b <;> simp

/-- A thread is added to a list. -/
theorem countP_new {α : Type} (f : α → Bool) (a : α) (l : List α) :
    (a :: l).countP f = l.countP f + (f a).toNat := by
  rw [List.countP_cons]
  cases f a <;> simp

/-- One thread of a list ends. -/
theorem countP_end {α : Type} [DecidableEq α] (f : α → Bool) {l : List α} {a : α} (h : a ∈ l) :
    (l.erase a).countP f + (f a).toNat = l.countP f := by
  rw [(List.perm_cons_erase h).countP_eq f, List.countP_cons]
  cases f a <;> simp

/-- A worker is in its loop, or it is retiring, or it has drained the queue. -/
theorem length_le_countP (ws : List Worker) :
    ws.length ≤ ws.countP Worker.staying + ws.countP Worker.retiring + ws.countP Worker.drained := by
  induction ws with
  | nil => rfl
  | cons w ws ih =>
    rw [List.length_cons, List.countP_cons, List.countP_cons, List.countP_cons]
    rcases w with _ | _ | _ | _ | _ | _ | _ | (_ | _) | (_ | _) | (_ | _) <;>
      simp only [Worker.staying, Worker.retiring, Worker.drained] <;> simp <;> omega

/-! ## The invariant -/

/-- What the counters say about the threads, and where the accepted tasks are. -/
structure Inv (lim : Limits) (s : State) : Prop where
  nth_nonneg : 0 ≤ s.nth
  nidl_eq : s.nidl = s.workers.countP Worker.isIdle
  ndet_eq : s.ndet + s.submits.countP (fun p => p = .countDet) = s.workers.countP Worker.detached
  /-- As long as tasks can come, `nth` counts the workers in their loop, but for those that their creators
  have not counted yet. -/
  nth_eq : ¬ (s.closed = true ∧ s.queue = []) → s.workers.countP Worker.drained = 0 ∧
    s.nth + s.submits.countP Submit.uncounted = s.workers.countP Worker.staying
  served : s.queue ≠ [] → 0 < s.workers.countP Worker.staying + s.submits.countP Submit.mayCreate
  tasks : s.accepted.Perm (s.queue ++ (s.workers.filterMap Worker.task? ++ s.ran))
  live_le : s.workers.length ≤ lim.nthreadmax
  closed_submits : s.closed = true → s.submits = []
  returned_idle : s.returned = true → s.closed = true ∧ s.queue = [] ∧ s.workers = []

/-- The steps that the counters survive: a thread is created when, with the threads that are not counted yet
and those that are retiring, there are fewer than `nthreadmax`; a worker that finds enough idle threads is
not the first to touch `nth`; and `shutdown` is called when no `submit` is in progress. -/
def Timely (lim : Limits) (s : State) : Label → Prop
  | .submitter .create =>
    s.nth + s.submits.countP Submit.uncounted + s.workers.countP Worker.retiring < lim.nthreadmax
  | .worker (.cas old) => s.nth = old → old ≠ 0
  | .close => s.submits = []
  | _ => True

theorem Inv.init (lim : Limits) : Inv lim init where
  nth_nonneg := le_refl 0
  nidl_eq := rfl
  ndet_eq := rfl
  nth_eq _ := ⟨rfl, rfl⟩
  served h := absurd rfl h
  tasks := List.Perm.refl _
  live_le := le_trans lim.nidlemax_pos.le lim.nidlemax_le
  closed_submits _ := rfl
  returned_idle h := by simp [Threadpool.init] at h

/-! ## Steps of a worker -/

/-- Tasks that stay where they are do not matter to a permutation. -/
theorem perm_frame {queue queue' held held' ran ran' : List ℕ} (others : List ℕ)
    (h : (queue' ++ (held' ++ ran')).Perm (queue ++ (held ++ ran))) :
    (queue' ++ (held' ++ others ++ ran')).Perm (queue ++ (held ++ others ++ ran)) := by
  rw [List.perm_iff_count] at h ⊢
  intro task
  have := h task
  simp only [List.count_append] at this ⊢
  omega

theorem filterMap_cons_toList {α β : Type} (f : α → Option β) (a : α) (l : List α) :
    (a :: l).filterMap f = (f a).toList ++ l.filterMap f := by
  rw [List.filterMap_cons]
  cases f a <;> rfl

/-- A worker goes on from `w` to `w'`, and the counters and tasks with it. -/
structure Follows (s t : State) (w w' : Worker) : Prop where
  workers : t.workers = w' :: s.workers.erase w
  submits : t.submits = s.submits
  accepted : t.accepted = s.accepted
  closed : t.closed = s.closed
  returned : t.returned = s.returned
  nth_nonneg : 0 ≤ t.nth
  nidl : t.nidl + w.isIdle.toNat = s.nidl + w'.isIdle.toNat
  ndet : t.ndet + w.detached.toNat = s.ndet + w'.detached.toNat
  nth : ¬ (s.closed = true ∧ t.queue = []) →
    w'.drained = false ∧ t.nth + w.staying.toNat = s.nth + w'.staying.toNat
  queue : t.queue ≠ [] → s.queue ≠ []
  /-- The worker stays, or it leaves another one in the loop, or there is nothing left to do. -/
  served : t.queue ≠ [] → w'.staying = true ∨ 1 < s.nth
  tasks : (t.queue ++ (w'.task?.toList ++ t.ran)).Perm (s.queue ++ (w.task?.toList ++ s.ran))

theorem Inv.follows (h : Inv lim s) (hw : w ∈ s.workers) (w' : Worker) {t : State} (hf : Follows s t w w') :
    Inv lim t := by
  have hstay := countP_move Worker.staying w' hw
  have hdrained := countP_move Worker.drained w' hw
  have hsq : ¬ (t.closed = true ∧ t.queue = []) → ¬ (s.closed = true ∧ s.queue = []) := by
    rw [hf.closed, not_and, not_and]
    exact fun ht hc => hf.queue (ht hc)
  have hnth : ¬ (t.closed = true ∧ t.queue = []) → t.workers.countP Worker.drained = 0 ∧
      t.nth + t.submits.countP Submit.uncounted = t.workers.countP Worker.staying := by
    intro ht
    obtain ⟨hd, hs⟩ := h.nth_eq (hsq ht)
    obtain ⟨hd', hn⟩ := hf.nth (by rwa [← hf.closed])
    rw [hf.workers, hf.submits]
    rw [hd'] at hdrained
    simp only [Bool.toNat_false] at hdrained
    omega
  refine ⟨hf.nth_nonneg, ?_, ?_, hnth, ?_, ?_, ?_, ?_, ?_⟩
  · have := h.nidl_eq
    have := countP_move Worker.isIdle w' hw
    have := hf.nidl
    rw [hf.workers]
    omega
  · have := h.ndet_eq
    have := countP_move Worker.detached w' hw
    have := hf.ndet
    rw [hf.workers, hf.submits]
    omega
  · intro ht
    have hserved := h.served (hf.queue ht)
    rw [hf.workers, hf.submits]
    rcases hf.served ht with hstays | hmore
    · rw [hstays] at hstay
      simp only [Bool.toNat_true] at hstay
      have := Bool.toNat_le w.staying
      omega
    · -- another worker is counted in `nth`
      have := (h.nth_eq fun hc => hf.queue ht hc.2).2
      have := Bool.toNat_le w.staying
      omega
  · rw [hf.accepted, hf.workers, filterMap_cons_toList]
    have hheld := (List.perm_cons_erase hw).filterMap Worker.task?
    rw [filterMap_cons_toList] at hheld
    refine h.tasks.trans (((hheld.append_right s.ran).append_left s.queue).trans ?_)
    exact (perm_frame _ hf.tasks).symm
  · rw [hf.workers, List.length_cons, List.length_erase_of_mem hw]
    have := h.live_le
    have := List.length_pos_of_mem hw
    omega
  · rw [hf.closed, hf.submits]
    exact h.closed_submits
  · rw [hf.returned]
    intro hr
    rw [(h.returned_idle hr).2.2] at hw
    exact absurd hw List.not_mem_nil

/-- A step that leaves the counters and the tasks alone. -/
theorem Inv.follows_move (h : Inv lim s) (hstay : w.staying = w'.staying ∧ w'.staying = true)
    (hidle : w.isIdle = w'.isIdle) (hdet : w.detached = w'.detached) (hdrained : w'.drained = false)
    (htask : w.task? = w'.task?) : Follows s (s.move w w') w w' where
  workers := rfl
  submits := rfl
  accepted := rfl
  closed := rfl
  returned := rfl
  nth_nonneg := h.nth_nonneg
  nidl := by rw [hidle]; rfl
  ndet := by rw [hdet]; rfl
  nth _ := ⟨hdrained, by rw [hstay.1]; rfl⟩
  queue := id
  served _ := .inl hstay.2
  tasks := by rw [htask]; exact List.Perm.refl _

/-- A worker that is out of the loop. -/
theorem Inv.follows_left (h : Inv lim s) (retired : Bool) (hw : w ∈ s.workers) {ndet : ℤ}
    (hstay : w.staying = false ∧ w'.staying = false) (hidle : w.isIdle = w'.isIdle)
    (hdet : ndet + w.detached.toNat = s.ndet + w'.detached.toNat)
    (hdrained : w.drained = !retired ∧ w'.drained = !retired) (htask : w.task? = w'.task?) :
    Inv lim { s.move w w' with ndet := ndet } := by
  have hstaying := countP_move Worker.staying w' hw
  have hdrain := countP_move Worker.drained w' hw
  rw [hstay.1, hstay.2] at hstaying
  rw [hdrained.1, hdrained.2] at hdrain
  simp only [Bool.toNat_false, add_zero] at hstaying
  refine ⟨h.nth_nonneg, ?_, ?_, ?_, ?_, ?_, ?_, h.closed_submits, ?_⟩
  · have := countP_move Worker.isIdle w' hw
    rw [hidle] at this
    have hn := h.nidl_eq
    dsimp only [State.move]
    omega
  · have := countP_move Worker.detached w' hw
    have hn := h.ndet_eq
    dsimp only [State.move]
    omega
  · intro hc
    obtain ⟨hd, hn⟩ := h.nth_eq hc
    dsimp only [State.move]
    omega
  · intro hq
    have := h.served hq
    dsimp only [State.move]
    omega
  · have hheld := (List.perm_cons_erase hw).filterMap Worker.task?
    rw [filterMap_cons_toList, htask, ← filterMap_cons_toList] at hheld
    exact h.tasks.trans ((hheld.append_right s.ran).append_left s.queue)
  · have := h.live_le
    have := List.length_pos_of_mem hw
    dsimp only [State.move]
    rw [List.length_cons, List.length_erase_of_mem hw]
    omega
  · intro hr
    rw [(h.returned_idle hr).2.2] at hw
    exact absurd hw List.not_mem_nil

/-- A worker that has drained the queue. -/
theorem Inv.drained (h : Inv lim s) (hw : w ∈ s.workers) (hd : w.drained = true) :
    s.closed = true ∧ s.queue = [] := by
  by_contra hc
  have := List.countP_pos_iff.mpr ⟨w, hw, hd⟩
  have := (h.nth_eq hc).1
  omega

/-- The compare and exchange of `nth` succeeds: the worker retires if another one is counted. -/
theorem Inv.cas (h : Inv lim s) {old : ℤ} (hw : .cas old ∈ s.workers) (hold : s.nth = old) (hne : old ≠ 0) :
    Inv lim { s.move (.cas old) (if 1 < old then .leaving true else .idle) with
      nth := if old - 1 ≠ 0 then old - 1 else 1 } := by
  have hnonneg := h.nth_nonneg
  by_cases hmore : 1 < old
  · refine h.follows hw (.leaving true) ⟨?_, rfl, rfl, rfl, rfl, ?_, rfl, rfl, ?_, id, ?_, List.Perm.refl _⟩
    · rw [if_pos hmore]
      rfl
    · dsimp only
      split <;> omega
    · intro _
      refine ⟨rfl, ?_⟩
      simp only [Worker.staying, Bool.toNat_true, Bool.toNat_false]
      split <;> omega
    · intro _
      exact .inr (by omega)
  · refine h.follows hw .idle ⟨?_, rfl, rfl, rfl, rfl, ?_, rfl, rfl, ?_, id, ?_, List.Perm.refl _⟩
    · rw [if_neg hmore]
      rfl
    · dsimp only
      split <;> omega
    · intro _
      refine ⟨rfl, ?_⟩
      simp only [Worker.staying]
      split <;> omega
    · exact fun _ => .inl rfl

/-- The thread of a worker ends. -/
theorem Inv.end (h : Inv lim s) {retired : Bool} (hw : .exiting retired ∈ s.workers) :
    Inv lim { s with workers := s.workers.erase (.exiting retired) } := by
  have hstay := countP_end Worker.staying hw
  have hidle := countP_end Worker.isIdle hw
  have hdet := countP_end Worker.detached hw
  have hdrained := countP_end Worker.drained hw
  simp only [Worker.staying, Worker.isIdle, Worker.detached, Bool.toNat_false, add_zero] at hstay hidle hdet
  refine ⟨h.nth_nonneg, ?_, ?_, ?_, ?_, ?_, ?_, h.closed_submits, ?_⟩
  · rw [h.nidl_eq, hidle]
  · rw [h.ndet_eq, hdet]
  · intro hc
    obtain ⟨hd, hn⟩ := h.nth_eq hc
    dsimp only
    exact ⟨by omega, by rw [hn, hstay]⟩
  · intro hq
    have := h.served hq
    dsimp only
    rw [hstay]
    exact this
  · have hheld := (List.perm_cons_erase hw).filterMap Worker.task?
    rw [filterMap_cons_toList] at hheld
    exact h.tasks.trans ((hheld.append_right s.ran).append_left s.queue)
  · have := h.live_le
    have := List.length_erase_le (a := Worker.exiting retired) (l := s.workers)
    dsimp only
    omega
  · intro hr
    rw [(h.returned_idle hr).2.2] at hw
    exact absurd hw List.not_mem_nil

/-- A timely step of a worker. -/
theorem Inv.worker (h : Inv lim s) (hw : w ∈ s.workers) (htimely : Timely lim s (.worker w))
    (hstep : workerStep lim s w = some s') : Inv lim s' := by
  cases w with
  | start =>
    obtain rfl := Option.some.inj hstep
    split
    · exact h.follows hw _ (h.follows_move ⟨rfl, rfl⟩ rfl rfl rfl rfl)
    · exact h.follows hw _ (h.follows_move ⟨rfl, rfl⟩ rfl rfl rfl rfl)
  | loadNth =>
    obtain rfl := Option.some.inj hstep
    exact h.follows hw _ (h.follows_move ⟨rfl, rfl⟩ rfl rfl rfl rfl)
  | cas old =>
    rw [workerStep] at hstep
    split at hstep
    · next hold =>
      obtain rfl := Option.some.inj hstep
      exact h.cas hw hold (htimely hold)
    · obtain rfl := Option.some.inj hstep
      exact h.follows hw _ (h.follows_move ⟨rfl, rfl⟩ rfl rfl rfl rfl)
  | idle =>
    obtain rfl := Option.some.inj hstep
    refine h.follows hw .waiting ⟨rfl, rfl, rfl, rfl, rfl, h.nth_nonneg, ?_, rfl, fun _ => ⟨rfl, rfl⟩, id,
      fun _ => .inl rfl, List.Perm.refl _⟩
    simp [Worker.isIdle]
  | waiting =>
    rw [workerStep] at hstep
    rcases hqueue : s.queue with _ | ⟨task, queue⟩
    · rw [hqueue] at hstep
      dsimp only at hstep
      split at hstep
      · next hclosed =>
        obtain rfl := Option.some.inj hstep
        refine h.follows hw (.dequeued none) ⟨rfl, rfl, rfl, rfl, rfl, h.nth_nonneg, rfl, rfl, ?_, id, ?_,
          List.Perm.refl _⟩
        · exact fun hc => absurd ⟨hclosed, hqueue⟩ hc
        · exact fun hq => absurd hqueue hq
      · simp at hstep
    · rw [hqueue] at hstep
      obtain rfl := Option.some.inj hstep
      refine h.follows hw (.dequeued (some task)) ⟨rfl, rfl, rfl, rfl, rfl, h.nth_nonneg, rfl, rfl,
        fun _ => ⟨rfl, rfl⟩, fun _ => ?_, fun _ => .inl rfl, ?_⟩
      · rw [hqueue]
        exact List.cons_ne_nil _ _
      · rw [hqueue]
        exact List.perm_middle
  | dequeued task =>
    rcases task with _ | task
    · obtain rfl := Option.some.inj hstep
      obtain ⟨hclosed, hqueue⟩ := h.drained hw rfl
      refine h.follows hw (.leaving false) ⟨rfl, rfl, rfl, rfl, rfl, h.nth_nonneg, ?_, rfl, ?_, id, ?_,
        List.Perm.refl _⟩
      · simp [Worker.isIdle]
      · exact fun hc => absurd ⟨hclosed, hqueue⟩ hc
      · exact fun hq => absurd hqueue hq
    · obtain rfl := Option.some.inj hstep
      refine h.follows hw (.running task) ⟨rfl, rfl, rfl, rfl, rfl, h.nth_nonneg, ?_, rfl,
        fun _ => ⟨rfl, rfl⟩, id, fun _ => .inl rfl, List.Perm.refl _⟩
      simp [Worker.isIdle]
  | running task =>
    obtain rfl := Option.some.inj hstep
    refine h.follows hw .start ⟨rfl, rfl, rfl, rfl, rfl, h.nth_nonneg, rfl, rfl,
      fun _ => ⟨rfl, rfl⟩, id, fun _ => .inl rfl, ?_⟩
    exact List.Perm.append_left _ (List.perm_append_singleton task s.ran)
  | leaving retired =>
    rw [workerStep] at hstep
    split at hstep
    · obtain rfl := Option.some.inj hstep
      exact h.follows_left retired hw ⟨rfl, rfl⟩ rfl rfl (by cases retired <;> exact ⟨rfl, rfl⟩) rfl
    · simp at hstep
  | locked retired =>
    obtain rfl := Option.some.inj hstep
    refine h.follows_left retired hw ⟨rfl, rfl⟩ rfl ?_ (by cases retired <;> exact ⟨rfl, rfl⟩) rfl
    simp [Worker.detached]
  | exiting retired =>
    obtain rfl := Option.some.inj hstep
    exact h.end hw

/-! ## Steps of `submit` and `shutdown` -/

/-- While a thread is in `submit`, the queue is open. -/
theorem Inv.open_of_mem (h : Inv lim s) (hp : p ∈ s.submits) : s.closed = false := by
  by_contra hc
  rw [h.closed_submits (by simpa using hc)] at hp
  exact absurd hp List.not_mem_nil

theorem Inv.not_returned (h : Inv lim s) (hopen : s.closed = false) : s.returned ≠ true := by
  intro hr
  have := (h.returned_idle hr).1
  simp [hopen] at this

/-- A task is accepted. -/
theorem Inv.submit (h : Inv lim s) (hopen : s.closed = false) (task : ℕ) :
    Inv lim { s with
      queue := s.queue ++ [task]
      submits := .enqueued :: s.submits
      accepted := s.accepted ++ [task] } := by
  refine ⟨h.nth_nonneg, h.nidl_eq, h.ndet_eq, ?_, ?_, ?_, h.live_le, ?_, ?_⟩
  · intro _
    exact h.nth_eq (by simp [hopen])
  · intro _
    dsimp only
    rw [List.countP_cons]
    simp [Submit.mayCreate]
  · have htasks := h.tasks
    rw [List.perm_iff_count] at htasks ⊢
    intro t
    have := htasks t
    simp only [List.count_append] at this ⊢
    omega
  · intro hc
    simp [hopen] at hc
  · intro hr
    exact absurd hr (h.not_returned hopen)

/-- A thread in `submit` is not going to create a worker, or it is not yet sure. -/
theorem Inv.check (h : Inv lim s) (hp : p ∈ s.submits) (p' : Submit) {submits : List Submit}
    (hsub : submits = s.submits.erase p ∨ submits = p' :: s.submits.erase p)
    (huncounted : p.uncounted = false ∧ p'.uncounted = false) (hdet : p ≠ .countDet ∧ p' ≠ .countDet)
    (hserved : 0 < s.workers.countP Worker.staying + submits.countP Submit.mayCreate) :
    Inv lim { s with submits } := by
  have hopen := h.open_of_mem hp
  have hcount : ∀ f : Submit → Bool, f p = false → f p' = false →
      submits.countP f = s.submits.countP f := by
    intro f hfp hfp'
    rcases hsub with rfl | rfl
    · have := countP_end f hp
      simpa [hfp] using this
    · have := countP_move f p' hp
      simpa [hfp, hfp'] using this
  refine ⟨h.nth_nonneg, h.nidl_eq, ?_, ?_, fun _ => hserved, h.tasks, h.live_le, ?_, ?_⟩
  · dsimp only
    rw [hcount _ (by simpa using hdet.1) (by simpa using hdet.2)]
    exact h.ndet_eq
  · intro hc
    dsimp only
    rw [hcount _ huncounted.1 huncounted.2]
    exact h.nth_eq hc
  · intro hc
    simp [hopen] at hc
  · intro hr
    exact absurd hr (h.not_returned hopen)

/-- A worker is created where there is room for it. -/
theorem Inv.create (h : Inv lim s) (hp : .create ∈ s.submits)
    (hroom : s.nth + s.submits.countP Submit.uncounted + s.workers.countP Worker.retiring
      < lim.nthreadmax) :
    Inv lim { s.moveSubmit .create .countDet with workers := .start :: s.workers } := by
  have hopen := h.open_of_mem hp
  obtain ⟨hdrained, hnth⟩ := h.nth_eq (by simp [hopen])
  have huncounted := countP_move Submit.uncounted .countDet hp
  have hdet := countP_move (fun p => decide (p = Submit.countDet)) .countDet hp
  simp only [Submit.uncounted, Bool.toNat_false, Bool.toNat_true, add_zero] at huncounted
  simp only [reduceCtorEq, decide_false, decide_true, Bool.toNat_false, Bool.toNat_true, add_zero] at hdet
  have hlive := length_le_countP s.workers
  have hnew := countP_new Worker.detached .start s.workers
  have hnewDrained := countP_new Worker.drained .start s.workers
  have hnewStaying := countP_new Worker.staying .start s.workers
  simp only [Worker.detached, Worker.drained, Worker.staying, Bool.toNat_false, Bool.toNat_true, add_zero]
    at hnew hnewDrained hnewStaying
  refine ⟨h.nth_nonneg, ?_, ?_, ?_, ?_, ?_, ?_, ?_, ?_⟩
  · rw [List.countP_cons]
    exact h.nidl_eq
  · have := h.ndet_eq
    dsimp only [State.moveSubmit]
    omega
  · intro _
    dsimp only [State.moveSubmit]
    omega
  · intro _
    dsimp only [State.moveSubmit]
    rw [List.countP_cons]
    simp [Worker.staying]
  · exact h.tasks
  · dsimp only [State.moveSubmit]
    rw [List.length_cons]
    omega
  · intro hc
    simp [State.moveSubmit, hopen] at hc
  · intro hr
    exact absurd hr (h.not_returned hopen)

/-- The new worker is counted in `ndet`. -/
theorem Inv.countDet (h : Inv lim s) (hp : .countDet ∈ s.submits) :
    Inv lim { s.moveSubmit .countDet .countNth with ndet := s.ndet + 1 } := by
  have hopen := h.open_of_mem hp
  have huncounted := countP_move Submit.uncounted .countNth hp
  have hmay := countP_move Submit.mayCreate .countNth hp
  have hdet := countP_move (fun p => decide (p = Submit.countDet)) .countNth hp
  simp only [Submit.uncounted, Submit.mayCreate, Bool.toNat_false, Bool.toNat_true, add_zero]
    at huncounted hmay
  simp only [reduceCtorEq, decide_false, decide_true, Bool.toNat_false, Bool.toNat_true, add_zero] at hdet
  refine ⟨h.nth_nonneg, h.nidl_eq, ?_, ?_, ?_, h.tasks, h.live_le, ?_, ?_⟩
  · have := h.ndet_eq
    dsimp only [State.moveSubmit]
    omega
  · intro hc
    have := h.nth_eq hc
    dsimp only [State.moveSubmit]
    omega
  · intro hq
    have := h.served hq
    dsimp only [State.moveSubmit]
    omega
  · intro hc
    simp [State.moveSubmit, hopen] at hc
  · intro hr
    exact absurd hr (h.not_returned hopen)

/-- The new worker is counted in `nth`, and `submit` returns. -/
theorem Inv.countNth (h : Inv lim s) (hp : .countNth ∈ s.submits) :
    Inv lim { s.endSubmit .countNth with nth := s.nth + 1 } := by
  have hopen := h.open_of_mem hp
  have huncounted := countP_end Submit.uncounted hp
  have hmay := countP_end Submit.mayCreate hp
  have hdet := countP_end (fun p => decide (p = Submit.countDet)) hp
  simp only [Submit.uncounted, Submit.mayCreate, Bool.toNat_false, Bool.toNat_true, add_zero]
    at huncounted hmay
  simp only [reduceCtorEq, decide_false, Bool.toNat_false, add_zero] at hdet
  refine ⟨?_, h.nidl_eq, ?_, ?_, ?_, h.tasks, h.live_le, ?_, ?_⟩
  · have := h.nth_nonneg
    dsimp only
    omega
  · have := h.ndet_eq
    dsimp only [State.endSubmit]
    omega
  · intro hc
    have := h.nth_eq hc
    dsimp only [State.endSubmit]
    omega
  · intro hq
    have := h.served hq
    dsimp only [State.endSubmit]
    omega
  · intro hc
    simp [State.endSubmit, hopen] at hc
  · intro hr
    exact absurd hr (h.not_returned hopen)

/-- A timely step of a thread in `submit`. -/
theorem Inv.submitter (h : Inv lim s) (hp : p ∈ s.submits) (htimely : Timely lim s (.submitter p)) :
    Inv lim (submitStep lim s p) := by
  cases p with
  | enqueued =>
    rw [submitStep]
    split
    · next hidle =>
      -- a worker that is idle is in its loop
      refine h.check hp .loadNth (.inl rfl) ⟨rfl, rfl⟩ ⟨by decide, by decide⟩ ?_
      have := List.countP_mono_left (l := s.workers) (p := Worker.isIdle) (q := Worker.staying)
        (by rintro (_ | _) <;> simp [Worker.isIdle, Worker.staying])
      have := h.nidl_eq
      omega
    · refine h.check hp _ (.inr rfl) ⟨rfl, rfl⟩ ⟨by decide, by decide⟩ ?_
      rw [List.countP_cons]
      simp [Submit.mayCreate]
  | loadNth =>
    rw [submitStep]
    split
    · next hfull =>
      refine h.check hp .create (.inl rfl) ⟨rfl, rfl⟩ ⟨by decide, by decide⟩ ?_
      have := (h.nth_eq (by simp [h.open_of_mem hp])).2
      have := lim.nidlemax_pos
      have := lim.nidlemax_le
      omega
    · refine h.check hp _ (.inr rfl) ⟨rfl, rfl⟩ ⟨by decide, by decide⟩ ?_
      rw [List.countP_cons]
      simp [Submit.mayCreate]
  | create => exact h.create hp htimely
  | countDet => exact h.countDet hp
  | countNth => exact h.countNth hp

/-- When `shutdown` finds that all threads are done, all tasks have been carried out. -/
theorem Inv.allDone (h : Inv lim s) (hclosed : s.closed = true) (hndet : s.ndet = 0)
    (hfree : ∀ w ∈ s.workers, w.holds = false) : Inv lim { s with returned := true } := by
  have hsubmits := h.closed_submits hclosed
  have hworkers : s.workers = [] := by
    have hdet := h.ndet_eq
    rw [hsubmits, hndet] at hdet
    rw [List.eq_nil_iff_forall_not_mem]
    intro w hw
    have hpos : w.detached = true → 0 < s.workers.countP Worker.detached :=
      fun hd => List.countP_pos_iff.mpr ⟨w, hw, hd⟩
    have hholds := hfree w hw
    cases w with
    | exiting retired => simp [Worker.holds] at hholds
    | _ =>
      have := hpos rfl
      simp at hdet
      omega
  have hqueue : s.queue = [] := by
    by_contra hq
    have := h.served hq
    simp [hworkers, hsubmits] at this
  exact ⟨h.nth_nonneg, h.nidl_eq, h.ndet_eq, h.nth_eq, h.served, h.tasks, h.live_le, h.closed_submits,
    fun _ => ⟨hclosed, hqueue, hworkers⟩⟩

/-! ## Runs -/

/-- A timely step keeps the invariant. -/
theorem Inv.step (h : Inv lim s) (htimely : Timely lim s l) (hstep : step lim s l = some s') :
    Inv lim s' := by
  cases l with
  | submit task =>
    rw [Threadpool.step] at hstep
    split at hstep
    · obtain rfl := Option.some.inj hstep
      exact h
    · next hopen =>
      obtain rfl := Option.some.inj hstep
      exact h.submit (by simpa using hopen) task
  | submitter p =>
    obtain ⟨hp, rfl⟩ : p ∈ s.submits ∧ submitStep lim s p = s' := by simpa [Threadpool.step] using hstep
    exact h.submitter hp htimely
  | worker w =>
    obtain ⟨hw, hstep⟩ : w ∈ s.workers ∧ workerStep lim s w = some s' := by
      simpa [Threadpool.step] using hstep
    exact h.worker hw htimely hstep
  | spurious old =>
    obtain ⟨hw, rfl⟩ : .cas old ∈ s.workers ∧ s.move (.cas old) (.cas s.nth) = s' := by
      simpa [Threadpool.step] using hstep
    exact h.follows hw _ (h.follows_move ⟨rfl, rfl⟩ rfl rfl rfl rfl)
  | close =>
    obtain rfl := Option.some.inj hstep
    refine ⟨h.nth_nonneg, h.nidl_eq, h.ndet_eq, ?_, h.served, h.tasks, h.live_le, fun _ => htimely, ?_⟩
    · intro hc
      exact h.nth_eq fun hclosed => hc ⟨rfl, hclosed.2⟩
    · intro hr
      exact ⟨rfl, (h.returned_idle hr).2⟩
  | allDone =>
    obtain ⟨⟨hclosed, hndet, hfree⟩, rfl⟩ :
        (s.closed = true ∧ s.ndet = 0 ∧ ∀ w ∈ s.workers, w.holds = false) ∧
          { s with returned := true } = s' := by
      simpa [Threadpool.step] using hstep
    exact h.allDone hclosed hndet hfree

end Fs123.Threadpool
