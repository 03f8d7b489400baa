import Fs123.Common.Transition
import Fs123.Mount.InomapCounts

/-!
# The pages of a file in the kernel

`fs123_open`, `fs123_read` and the scan of the open files, as far as one inode and the kernel's pages of it go. The
steps of a thread are those between which others may come: a request to the server, a function of the inode map
(which holds the lock of the map), a reply to the kernel.

A page is locked from the moment that the kernel asks for it until the reply is there, and the kernel waits for the
lock when it drops pages, one after the other. So a page can be older than the recorded validator only while some
thread is yet to drop it (`pages_coherent`). An `open` may well say `keep_cache` in the meantime
(`kept_while_dropping`): it is the other thread that drops the page.
-/

namespace Fs123

open Cxx Transition

namespace PageCache

/-- A page, and the content validator of the reply that it was filled from. -/
inductive Page where
  | empty
  | locked
  | filled (validator : ℕ)
  deriving Repr, DecidableEq

/-- Where a thread is. -/
inductive Task where
  | idle
  /-- `fs123_open` before `begetattr`. -/
  | opening (noCache : Bool)
  | opened (noCache : Bool) (newValidator : ℕ)
  /-- `fs123_open` before `reply_open`. -/
  | replying (keepCache : Bool) (newValidator : ℕ)
  /-- The scan before `begetattr`. -/
  | scanning
  | scanned (validator : ℕ)
  /-- `fs123_read` before `ino_to_fullname_validator`. -/
  | asked (page : ℕ)
  | reading (page : ℕ) (noCache : Bool) (inoValidator : ℕ)
  /-- The kernel is to drop the pages from this one on. -/
  | dropping (page : ℕ)
  deriving Repr, DecidableEq

/-- A request of the kernel for the inode is in progress. -/
def Task.busy : Task → Bool
  | .idle | .scanning | .scanned _ | .dropping _ => false
  | _ => true

/-- The page that a thread has locked. -/
def Task.lock : Task → Option ℕ
  | .asked i | .reading i _ _ => some i
  | _ => none

/-- The first of the pages that a thread is about to drop. -/
def Task.drops : Task → Option ℕ
  | .dropping i => some i
  | .replying false _ => some 0
  | _ => none

/-- A file, its inode and the number of its pages, and the stack for `_fullname`. -/
structure File where
  ino : Ino
  npages : ℕ
  stack : ℕ

structure State where
  inomap : Inomap
  page : ℕ → Page
  task : ℕ → Task

inductive Call where
  /-- The kernel calls `fs123_open`. -/
  | openFile
  | startScan
  /-- `begetattr` returns attributes. -/
  | attributes (validator : ℕ)
  /-- `begetattr`, or whatever a read asks for, ends with an error. -/
  | fails
  /-- `ino_update_validator`, and what follows from it. -/
  | update
  | reply
  /-- The kernel calls `fs123_read` for a page. -/
  | readPage (page : ℕ)
  /-- `ino_to_fullname_validator`. -/
  | floor
  /-- A chunk comes with this validator. -/
  | chunk (rvalidator : ℕ)
  /-- `lowlevel_notify_inval_inode`, from any part of the program. -/
  | invalidate
  | dropPage
  | dropped
  /-- The kernel wants the memory. -/
  | reclaim (page : ℕ)
  /-- `fs123_lookup` and `fs123_forget`, for any inode. -/
  | inomapCall (c : InoCall)
  deriving Repr, DecidableEq

namespace State

def goto (s : State) (t : ℕ) (task : Task) : State := { s with task := Function.update s.task t task }

def setPage (s : State) (i : ℕ) (p : Page) : State := { s with page := Function.update s.page i p }

def withInomap (s : State) (m : Inomap) : State := { s with inomap := m }

end State

variable (f : File)

/-- `fs123_open` behind `begetattr`. -/
def openUpdate (s : State) (t : ℕ) (noCache : Bool) (newValidator : ℕ) : State :=
  match s.inomap.inoUpdateValidator f.stack f.ino newValidator with
  | (.ok (.inl oldValidator), m) =>
    (s.goto t (.replying (oldValidator == newValidator) newValidator)).withInomap m
  | (.ok (.inr _), m) =>
    -- with `no_cache`, the invalidation is made by another thread, whose place this one takes
    (s.goto t (if noCache then .dropping 0 else .opening true)).withInomap m
  | (.error _, m) => (s.goto t .idle).withInomap m

/-- The scan behind `begetattr`. -/
def scanUpdate (s : State) (t : ℕ) (validator : ℕ) : State :=
  match s.inomap.inoUpdateValidator f.stack f.ino validator with
  | (.ok (.inl oldValidator), m) =>
    (s.goto t (if oldValidator ≠ validator then .dropping 0 else .idle)).withInomap m
  | (_, m) => (s.goto t (.dropping 0)).withInomap m

/-- `fs123_read` with a chunk. -/
def readChunk (s : State) (t page : ℕ) (noCache : Bool) (inoValidator rvalidator : ℕ) : State :=
  if rvalidator < inoValidator then
    if noCache then (s.goto t .idle).setPage page .empty
    else s.goto t (.reading page true inoValidator)
  else (s.goto t .idle).setPage page (.filled rvalidator)

/-- One step of the thread `t`. -/
def step (s : State) : ℕ × Call → Option State
  | (t, call) =>
    match s.task t, call with
    | .idle, .openFile => some (s.goto t (.opening false))
    | .idle, .startScan => some (s.goto t .scanning)
    | .opening noCache, .attributes v => some (s.goto t (.opened noCache v))
    | .scanning, .attributes v => some (s.goto t (.scanned v))
    | .opening _, .fails => some (s.goto t .idle)
    | .scanning, .fails => some (s.goto t (.dropping 0))
    | .opened noCache v, .update => some (openUpdate f s t noCache v)
    | .scanned v, .update => some (scanUpdate f s t v)
    | .replying keepCache _, .reply => some (s.goto t (if keepCache then .idle else .dropping 0))
    | .idle, .readPage i =>
      if s.page i = .empty ∧ i < f.npages then some ((s.goto t (.asked i)).setPage i .locked) else none
    | .asked i, .floor =>
      match s.inomap.inoToFullnameValidator f.stack f.ino with
      | .ok (_, inoValidator) => some (s.goto t (.reading i false inoValidator))
      | .error _ => some ((s.goto t .idle).setPage i .empty)
    | .reading i noCache inoValidator, .chunk v => some (readChunk s t i noCache inoValidator v)
    | .reading i _ _, .fails => some ((s.goto t .idle).setPage i .empty)
    | .idle, .invalidate => some (s.goto t (.dropping 0))
    | .dropping i, .dropPage =>
      if s.page i = .locked then none else some ((s.goto t (.dropping (i + 1))).setPage i .empty)
    | .dropping i, .dropped => if f.npages ≤ i then some (s.goto t .idle) else none
    | _, .reclaim i => if s.page i = .locked then none else some (s.setPage i .empty)
    | _, .inomapCall c => some (s.withInomap (s.inomap.call c).2)
    | _, _ => none

/-- No page is there, and nobody is at work. -/
def start (m : Inomap) : State := ⟨m, fun _ => .empty, fun _ => .idle⟩

/-- The kernel forgets the inode when it has no pages of it and no request for it. -/
def Forgets (s : State) (l : ℕ × Call) : Prop :=
  ∀ c, l.2 = .inomapCall c → s.inomap f.ino ≠ none → (s.inomap.call c).2 f.ino = none →
    (∀ i, s.page i = .empty) ∧ ∀ t, (s.task t).busy = false

/-! ## What the steps preserve -/

variable {f} {s s' : State} {t : ℕ} {l : ℕ × Call}

/-- The inode has a larger validator by now. -/
def Outdated (f : File) (s : State) (v : ℕ) : Prop := ∃ r, s.inomap f.ino = some r ∧ v < r.validator

/-- A thread is yet to drop the page. -/
def Pending (s : State) (i : ℕ) : Prop := ∃ t k, (s.task t).drops = some k ∧ k ≤ i

/-- What the steps of the threads preserve. -/
structure Inv (f : File) (s : State) : Prop where
  filled : ∀ {i v}, s.page i = .filled v → Outdated f s v → Pending s i
  reading : ∀ {t i noCache v}, s.task t = .reading i noCache v → Outdated f s v → Pending s i
  locked : ∀ {t i}, (s.task t).lock = some i → s.page i = .locked
  /-- Only one thread reads a page. -/
  alone : ∀ {t t' i}, (s.task t).lock = some i → (s.task t').lock = some i → t = t'
  replying : ∀ {t keepCache v}, s.task t = .replying keepCache v →
    ∃ r, s.inomap f.ino = some r ∧ v ≤ r.validator
  /-- An inode that is not in the map has no pages, and nobody knows a validator of it. -/
  known : s.inomap f.ino = none → (∀ i v, s.page i ≠ .filled v) ∧ ∀ t i noCache v, s.task t ≠ .reading i noCache v
  bound : ∀ {i}, s.page i ≠ .empty → i < f.npages

/-! ### The inode map -/

theorem inoUpdateValidator_ok {m m' : Inomap} {stack : ℕ} {ino : Ino} {v old : ℕ}
    (h : m.inoUpdateValidator stack ino v = (.ok (.inl old), m')) : ∃ r, m ino = some r ∧ old = r.validator
      ∧ old ≤ v ∧ m' = Function.update m ino (some { r with validator := v }) := by
  unfold Inomap.inoUpdateValidator Inomap.lookup at h
  rcases hm : m ino with _ | r
  · rw [hm] at h
    simp [Inomap.nestCall, throwE, catchE] at h
  · simp only [hm] at h
    split at h
    · have := (Prod.mk.inj h).1
      rcases hname : m.fullnameOf stack r with e | name
      · rw [hname] at this
        cases e <;> simp [Inomap.nestCall, bind, Except.bind, catchE] at this
      · rw [hname] at this
        simp [Inomap.nestCall, bind, Except.bind, catchE] at this
    · next hle =>
      obtain ⟨hold, hmap⟩ := Prod.mk.inj h
      rw [not_lt, max_le_iff] at hle
      simp only [Except.ok.injEq, Sum.inl.injEq] at hold
      subst hold
      refine ⟨r, rfl, rfl, hle.1, ?_⟩
      rw [← hmap, max_eq_right hle.1]

/-- Without a result nothing is recorded. -/
theorem inoUpdateValidator_other {m m' : Inomap} {stack : ℕ} {ino : Ino} {v : ℕ} {res : Res (ℕ ⊕ OutOfOrder)}
    (h : m.inoUpdateValidator stack ino v = (res, m')) (hres : ∀ old, res ≠ .ok (.inl old)) : m' = m := by
  unfold Inomap.inoUpdateValidator at h
  split at h
  · exact (Prod.mk.inj h).2.symm
  · dsimp only at h
    split at h
    · exact (Prod.mk.inj h).2.symm
    · exact absurd (Prod.mk.inj h).1.symm (hres _)

theorem inoToFullnameValidator_ok {m : Inomap} {stack : ℕ} {ino : Ino} {name : Bytes} {v : ℕ} (hino : ino ≠ 1)
    (h : m.inoToFullnameValidator stack ino = .ok (name, v)) : ∃ r, m ino = some r ∧ v = r.validator := by
  unfold Inomap.inoToFullnameValidator Inomap.lookup at h
  rw [if_neg hino] at h
  rcases hm : m ino with _ | r
  · rw [hm] at h
    simp [throwE, bind, Except.bind] at h
  · rw [hm] at h
    rw [ok_bind] at h
    obtain ⟨name', -, hname⟩ := bind_eq_ok_iff.mp h
    exact ⟨r, rfl, (Prod.mk.inj (Except.ok.inj hname)).2.symm⟩

/-- What a lookup or a forget does to the map. -/
theorem call_snd (m : Inomap) (c : InoCall) : (m.call c).2 = m ∨ ∃ ino x, (m.call c).2 = Function.update m ino x
    ∧ (x = none ∨ ∀ r, m ino = some r → ∃ n, x = some { r with refcount := n }) := by
  cases c with
  | remember pino name ino v =>
    dsimp only [Inomap.call, Inomap.inoRemember]
    split
    · next hnone =>
      refine Or.inr ⟨ino, _, rfl, Or.inr fun r hr => ?_⟩
      rw [hnone] at hr
      cases hr
    · next r hr =>
      split
      · exact Or.inl rfl
      · refine Or.inr ⟨ino, _, rfl, Or.inr fun r' hr' => ?_⟩
        obtain rfl := Option.some.inj (hr.symm.trans hr')
        exact ⟨_, rfl⟩
  | forget ino nlookup =>
    dsimp only [Inomap.call, Inomap.inoForget]
    split
    · exact Or.inl rfl
    · next r hr =>
      generalize (if refcountField (r.refcount - nlookup) < 0 then (0 : ℤ)
        else refcountField (r.refcount - nlookup)) = n
      split
      · exact Or.inr ⟨ino, _, rfl, Or.inl rfl⟩
      · refine Or.inr ⟨ino, _, rfl, Or.inr fun r' hr' => ?_⟩
        obtain rfl := Option.some.inj (hr.symm.trans hr')
        exact ⟨_, rfl⟩

/-- A lookup or a forget leaves the validator of an inode alone, unless the inode is forgotten. -/
theorem call_record {m : Inomap} {ino : Ino} {r : Inorecord} (hr : m ino = some r) (c : InoCall) :
    (m.call c).2 ino = none ∨ ∃ r', (m.call c).2 ino = some r' ∧ r'.validator = r.validator := by
  rcases call_snd m c with heq | ⟨ino', x, heq, hx⟩
  · exact Or.inr ⟨r, (congrFun heq ino).trans hr, rfl⟩
  by_cases hne : ino = ino'
  · subst hne
    rw [heq, Function.update_self]
    rcases hx with hx | hx
    · exact Or.inl hx
    · obtain ⟨n, hn⟩ := hx r hr
      exact Or.inr ⟨_, hn, rfl⟩
  · rw [heq, Function.update_of_ne hne]
    exact Or.inr ⟨r, hr, rfl⟩

namespace State

variable {task : Task} {i j : ℕ} {p : Page} {m : Inomap}

@[simp] theorem goto_inomap : (s.goto t task).inomap = s.inomap := rfl

@[simp] theorem goto_page : (s.goto t task).page = s.page := rfl

@[simp] theorem goto_task_self : (s.goto t task).task t = task := Function.update_self _ _ _

theorem goto_task_of_ne {t' : ℕ} (h : t' ≠ t) : (s.goto t task).task t' = s.task t' := Function.update_of_ne h _ _

@[simp] theorem setPage_inomap : (s.setPage i p).inomap = s.inomap := rfl

@[simp] theorem setPage_task : (s.setPage i p).task = s.task := rfl

@[simp] theorem setPage_page_self : (s.setPage i p).page i = p := Function.update_self _ _ _

theorem setPage_page_of_ne (h : j ≠ i) : (s.setPage i p).page j = s.page j := Function.update_of_ne h _ _

@[simp] theorem withInomap_inomap : (s.withInomap m).inomap = m := rfl

@[simp] theorem withInomap_page : (s.withInomap m).page = s.page := rfl

@[simp] theorem withInomap_task : (s.withInomap m).task = s.task := rfl

@[simp] theorem goto_goto {task' : Task} : (s.goto t task).goto t task' = s.goto t task' := by
  unfold goto
  rw [Function.update_idem]

theorem goto_withInomap : (s.goto t task).withInomap m = (s.withInomap m).goto t task := rfl

end State

theorem Inv.start (f : File) (m : Inomap) : Inv f (start m) where
  filled h := by cases h
  reading h := by cases h
  locked h := by cases h
  alone h := by cases h
  replying h := by cases h
  known _ := by
    refine ⟨fun _ _ h => ?_, fun _ _ _ _ h => ?_⟩ <;> cases h
  bound h := absurd rfl h

theorem Pending.of_drops {i k : ℕ} (h : (s.task t).drops = some k) (hk : k ≤ i) : Pending s i := ⟨t, k, h, hk⟩

namespace Inv

/-- A page that is not locked is not being read. -/
theorem lock_ne (h : Inv f s) {i : ℕ} (hi : s.page i ≠ .locked) (t : ℕ) : (s.task t).lock ≠ some i :=
  fun ht => hi (h.locked ht)

/-- A thread goes on: it has the same page as before or none, and it is still to drop the pages that it was to
drop. -/
theorem goto (h : Inv f s) (task : Task) (hlock : ∀ i, task.lock = some i → (s.task t).lock = some i)
    (hdrops : ∀ i k, s.page i ≠ .empty → (s.task t).drops = some k → k ≤ i → ∃ k' ≤ i, task.drops = some k')
    (hreading : ∀ i noCache v, task = .reading i noCache v → s.inomap f.ino ≠ none ∧
      (Outdated f s v → Pending s i))
    (hreplying : ∀ keepCache v, task = .replying keepCache v → ∃ r, s.inomap f.ino = some r ∧ v ≤ r.validator) :
    Inv f (s.goto t task) := by
  have hpend : ∀ {i}, s.page i ≠ .empty → Pending s i → Pending (s.goto t task) i := by
    rintro i hi ⟨t', k, hk, hle⟩
    by_cases ht : t' = t
    · obtain ⟨k', hle', hk'⟩ := hdrops i k hi (ht ▸ hk) hle
      exact ⟨t, k', (congrArg Task.drops State.goto_task_self).trans hk', hle'⟩
    · exact ⟨t', k, (congrArg Task.drops (State.goto_task_of_ne ht)).trans hk, hle⟩
  have hold : ∀ {t' i}, ((s.goto t task).task t').lock = some i → (s.task t').lock = some i := by
    intro t' i hi
    by_cases ht : t' = t
    · rw [ht, State.goto_task_self] at hi
      exact ht ▸ hlock i hi
    · rwa [State.goto_task_of_ne ht] at hi
  have hread : ∀ {t' i noCache v}, (s.goto t task).task t' = .reading i noCache v → s.inomap f.ino ≠ none
      ∧ (Outdated f s v → Pending s i) := by
    intro t' i noCache v hr
    by_cases ht : t' = t
    · rw [ht, State.goto_task_self] at hr
      exact hreading i noCache v hr
    · rw [State.goto_task_of_ne ht] at hr
      exact ⟨fun hnone => (h.known hnone).2 _ _ _ _ hr, h.reading hr⟩
  constructor
  · intro i v hi hout
    refine hpend ?_ (h.filled hi hout)
    rw [State.goto_page] at hi
    rw [hi]
    exact Page.noConfusion
  · intro t' i noCache v hr hout
    refine hpend ?_ ((hread hr).2 hout)
    rw [h.locked (hold (congrArg Task.lock hr))]
    exact Page.noConfusion
  · exact fun hi => h.locked (hold hi)
  · exact fun hi hi' => h.alone (hold hi) (hold hi')
  · intro t' keepCache v hr
    by_cases ht : t' = t
    · rw [ht, State.goto_task_self] at hr
      exact hreplying keepCache v hr
    · rw [State.goto_task_of_ne ht] at hr
      exact h.replying hr
  · exact fun hnone => ⟨(h.known hnone).1, fun _ _ _ _ hr => (hread hr).1 hnone⟩
  · exact h.bound

theorem drops_kept (h : (s.task t).drops = none) (task : Task) (i k : ℕ) (_ : s.page i ≠ .empty)
    (hk : (s.task t).drops = some k) (_ : k ≤ i) : ∃ k' ≤ i, task.drops = some k' := by
  rw [h] at hk
  cases hk

/-- A thread that has no pages to drop goes on without a page. -/
theorem rest (h : Inv f s) (task : Task) (hlock : task.lock = none) (hreply : ∀ k v, task ≠ .replying k v)
    (hdrops : (s.task t).drops = none) : Inv f (s.goto t task) := by
  refine h.goto task ?_ (drops_kept hdrops task) ?_ ?_
  · intro i hi
    rw [hlock] at hi
    cases hi
  · rintro i noCache v rfl
    cases hlock
  · exact fun k v hr => absurd hr (hreply k v)

/-- A page that nobody has locked gets a new content, one that is not out of date unless it is to be dropped. -/
theorem setPage (h : Inv f s) {i : ℕ} {p : Page} (hlock : ∀ t, (s.task t).lock ≠ some i)
    (hbound : p ≠ .empty → i < f.npages)
    (hfilled : ∀ v, p = .filled v → s.inomap f.ino ≠ none ∧ (Outdated f s v → Pending s i)) :
    Inv f (s.setPage i p) where
  filled {j v} hj hout := by
    by_cases hji : j = i
    · rw [hji, State.setPage_page_self] at hj
      exact hji ▸ (hfilled v hj).2 hout
    · rw [State.setPage_page_of_ne hji] at hj
      exact h.filled hj hout
  reading := h.reading
  locked {t j} hj := by
    have hji : j ≠ i := by
      rintro rfl
      exact hlock t hj
    rw [State.setPage_page_of_ne hji]
    exact h.locked hj
  alone := h.alone
  replying := h.replying
  known hnone := by
    refine ⟨fun j v hj => ?_, (h.known hnone).2⟩
    by_cases hji : j = i
    · rw [hji, State.setPage_page_self] at hj
      exact (hfilled v hj).1 hnone
    · rw [State.setPage_page_of_ne hji] at hj
      exact (h.known hnone).1 j v hj
  bound {j} hj := by
    by_cases hji : j = i
    · rw [hji, State.setPage_page_self] at hj
      exact hji ▸ hbound hj
    · rw [State.setPage_page_of_ne hji] at hj
      exact h.bound hj

theorem setEmpty (h : Inv f s) {i : ℕ} (hlock : ∀ t, (s.task t).lock ≠ some i) : Inv f (s.setPage i .empty) :=
  h.setPage hlock (absurd rfl) (fun _ hv => by cases hv)

/-- A thread is done with the page that it has locked. -/
theorem unlock (h : Inv f s) {i : ℕ} {p : Page} (hlock : (s.task t).lock = some i)
    (hdrops : (s.task t).drops = none)
    (hfilled : ∀ v, p = .filled v → s.inomap f.ino ≠ none ∧ (Outdated f s v → Pending s i)) :
    Inv f ((s.goto t .idle).setPage i p) := by
  have hidle : Inv f (s.goto t .idle) := h.rest .idle rfl (fun _ _ => Task.noConfusion) hdrops
  refine hidle.setPage ?_ (fun _ => h.bound ?_) ?_
  · intro t' hlock'
    by_cases htt : t' = t
    · rw [htt, State.goto_task_self] at hlock'
      cases hlock'
    · rw [State.goto_task_of_ne htt] at hlock'
      exact htt (h.alone hlock' hlock)
  · rw [h.locked hlock]
    exact Page.noConfusion
  · intro v hv
    refine ⟨(hfilled v hv).1, fun hout => ?_⟩
    obtain ⟨t', k, hk, hle⟩ := (hfilled v hv).2 hout
    have htt : t' ≠ t := by
      rintro rfl
      rw [hdrops] at hk
      cases hk
    exact ⟨t', k, (congrArg Task.drops (State.goto_task_of_ne htt)).trans hk, hle⟩

/-- The kernel asks for a page that is not there. -/
theorem lockPage (h : Inv f s) {i : ℕ} (hempty : s.page i = .empty) (hi : i < f.npages)
    (ht : s.task t = .idle) : Inv f ((s.goto t (.asked i)).setPage i .locked) := by
  have hfree : ∀ t, (s.task t).lock ≠ some i := h.lock_ne (by rw [hempty]; exact Page.noConfusion)
  have hpend : ∀ {j}, Pending s j → Pending (s.goto t (.asked i)) j := by
    rintro j ⟨t', k, hk, hle⟩
    have htt : t' ≠ t := by
      rintro rfl
      rw [ht] at hk
      cases hk
    exact ⟨t', k, (congrArg Task.drops (State.goto_task_of_ne htt)).trans hk, hle⟩
  have hpage : ∀ {j p}, ((s.goto t (.asked i)).setPage i .locked).page j = p → p ≠ .locked → s.page j = p := by
    intro j p hj hp
    by_cases hji : j = i
    · rw [hji, State.setPage_page_self] at hj
      exact absurd hj.symm hp
    · rwa [State.setPage_page_of_ne hji] at hj
  have htask : ∀ {t' : ℕ}, t' ≠ t → ((s.goto t (.asked i)).setPage i .locked).task t' = s.task t' :=
    fun htt => State.goto_task_of_ne htt
  have hself : ((s.goto t (.asked i)).setPage i .locked).task t = .asked i := State.goto_task_self
  constructor
  · intro j v hj hout
    exact hpend (h.filled (hpage hj Page.noConfusion) hout)
  · intro t' j noCache v hr hout
    by_cases htt : t' = t
    · rw [htt, hself] at hr
      cases hr
    · rw [htask htt] at hr
      exact hpend (h.reading hr hout)
  · intro t' j hj
    by_cases htt : t' = t
    · rw [htt, hself] at hj
      cases hj
      exact State.setPage_page_self
    · rw [htask htt] at hj
      have hji : j ≠ i := by
        rintro rfl
        exact hfree t' hj
      rw [State.setPage_page_of_ne hji]
      exact h.locked hj
  · intro t' t'' j hj hj'
    by_cases htt : t' = t <;> by_cases htt' : t'' = t
    · rw [htt, htt']
    · rw [htt, hself] at hj
      rw [htask htt'] at hj'
      cases hj
      exact absurd hj' (hfree t'')
    · rw [htt', hself] at hj'
      rw [htask htt] at hj
      cases hj'
      exact absurd hj (hfree t')
    · rw [htask htt] at hj
      rw [htask htt'] at hj'
      exact h.alone hj hj'
  · intro t' keepCache v hr
    by_cases htt : t' = t
    · rw [htt, hself] at hr
      cases hr
    · rw [htask htt] at hr
      exact h.replying hr
  · intro hnone
    refine ⟨fun j v hj => (h.known hnone).1 j v (hpage hj Page.noConfusion), ?_⟩
    intro t' j noCache v hr
    by_cases htt : t' = t
    · rw [htt, hself] at hr
      cases hr
    · rw [htask htt] at hr
      exact (h.known hnone).2 _ _ _ _ hr
  · intro j hj
    by_cases hji : j = i
    · exact hji ▸ hi
    · rw [State.setPage_page_of_ne hji] at hj
      exact h.bound hj

/-- The record of the inode gets a validator that is not smaller. -/
theorem withInomap (h : Inv f s) {m : Inomap}
    (hle : ∀ r, s.inomap f.ino = some r → ∃ r', m f.ino = some r' ∧ r.validator ≤ r'.validator)
    (hout : s.inomap f.ino = none ∨ (∀ v, Outdated f (s.withInomap m) v → Outdated f s v) ∨ ∀ i, Pending s i) :
    Inv f (s.withInomap m) where
  filled {i v} hi hv := by
    rcases hout with hnone | hout | hall
    · exact absurd hi ((h.known hnone).1 i v)
    · exact h.filled hi (hout v hv)
    · exact hall i
  reading {t i noCache v} hr hv := by
    rcases hout with hnone | hout | hall
    · exact absurd hr ((h.known hnone).2 t i noCache v)
    · exact h.reading hr (hout v hv)
    · exact hall i
  locked := h.locked
  alone := h.alone
  replying hr := by
    obtain ⟨r, hr, hv⟩ := h.replying hr
    obtain ⟨r', hr', hle⟩ := hle r hr
    exact ⟨r', hr', hv.trans hle⟩
  known hnone := by
    refine h.known ?_
    rcases hs : s.inomap f.ino with _ | r
    · rfl
    · obtain ⟨r', hr', -⟩ := hle r hs
      rw [State.withInomap_inomap] at hnone
      rw [hnone] at hr'
      cases hr'
  bound := h.bound

/-- The inode is forgotten. -/
theorem forgotten (h : Inv f s) {m : Inomap} (hempty : ∀ i, s.page i = .empty)
    (hbusy : ∀ t, (s.task t).busy = false) : Inv f (s.withInomap m) where
  filled {i v} hi := by
    rw [State.withInomap_page, hempty i] at hi
    cases hi
  reading {t i noCache v} hr := by
    have := hbusy t
    rw [show s.task t = _ from hr] at this
    cases this
  locked := h.locked
  alone := h.alone
  replying {t keepCache v} hr := by
    have := hbusy t
    rw [show s.task t = _ from hr] at this
    cases this
  known _ := by
    refine ⟨fun i v hi => ?_, fun t i noCache v hr => ?_⟩
    · rw [State.withInomap_page, hempty i] at hi
      cases hi
    · have := hbusy t
      rw [show s.task t = _ from hr] at this
      cases this
  bound := h.bound

theorem openUpdate (h : Inv f s) {noCache : Bool} {v : ℕ} (ht : s.task t = .opened noCache v) :
    Inv f (openUpdate f s t noCache v) := by
  have hnodrop : (s.task t).drops = none := congrArg Task.drops ht
  unfold PageCache.openUpdate
  split
  · next old m heq =>
    obtain ⟨r, hr, rfl, hle, rfl⟩ := inoUpdateValidator_ok heq
    have hmap : ∀ r₀, s.inomap f.ino = some r₀ → ∃ r', Function.update s.inomap f.ino
        (some { r with validator := v }) f.ino = some r' ∧ r₀.validator ≤ r'.validator := by
      intro r₀ hr₀
      obtain rfl := Option.some.inj (hr.symm.trans hr₀)
      exact ⟨_, Function.update_self _ _ _, hle⟩
    -- as if all pages were to be dropped; then the map; then what the thread really does
    have hdrop : Inv f (s.goto t (.dropping 0)) := h.rest _ rfl (fun _ _ => Task.noConfusion) hnodrop
    have hall : ∀ i, Pending (s.goto t (.dropping 0)) i :=
      fun i => Pending.of_drops (congrArg Task.drops State.goto_task_self) (Nat.zero_le i)
    have hrecord : ∃ r', Function.update s.inomap f.ino (some { r with validator := v }) f.ino = some r'
        ∧ v ≤ r'.validator := ⟨_, Function.update_self _ _ _, le_rfl⟩
    by_cases hkeep : r.validator = v
    · rw [beq_iff_eq.mpr hkeep]
      have hsame := (h.rest (t := t) .idle rfl (fun _ _ => Task.noConfusion) hnodrop).withInomap
        (m := Function.update s.inomap f.ino (some { r with validator := v })) hmap
        (Or.inr (Or.inl fun v' hv' => by
          obtain ⟨r', hr', hlt⟩ := hv'
          rw [State.withInomap_inomap, Function.update_self, Option.some.injEq] at hr'
          subst hr'
          exact ⟨r, hr, hkeep ▸ hlt⟩))
      rw [State.goto_withInomap] at hsame
      have hgo := hsame.goto (t := t) (.replying true v) (fun i hi => by cases hi)
        (drops_kept (congrArg Task.drops State.goto_task_self) _) (fun _ _ _ hr => by cases hr)
        (fun _ _ hr => by cases hr; exact hrecord)
      rwa [State.goto_goto, ← State.goto_withInomap] at hgo
    · rw [beq_eq_false_iff_ne.mpr hkeep]
      have hraised := hdrop.withInomap hmap (Or.inr (Or.inr hall))
      rw [State.goto_withInomap] at hraised
      have hgo := hraised.goto (t := t) (.replying false v) (fun i hi => by cases hi)
        (fun i k _ _ _ => ⟨0, Nat.zero_le i, rfl⟩) (fun _ _ _ hr => by cases hr)
        (fun _ _ hr => by cases hr; exact hrecord)
      rwa [State.goto_goto, ← State.goto_withInomap] at hgo
  · next o m heq =>
    obtain rfl := inoUpdateValidator_other heq (fun _ => by simp)
    cases noCache
    · exact h.rest (.opening true) rfl (fun _ _ => Task.noConfusion) hnodrop
    · exact h.rest (.dropping 0) rfl (fun _ _ => Task.noConfusion) hnodrop
  · next e m heq =>
    obtain rfl := inoUpdateValidator_other heq (fun _ => by simp)
    exact h.rest .idle rfl (fun _ _ => Task.noConfusion) hnodrop

theorem scanUpdate (h : Inv f s) {v : ℕ} (ht : s.task t = .scanned v) : Inv f (scanUpdate f s t v) := by
  have hnodrop : (s.task t).drops = none := congrArg Task.drops ht
  have hdrop : Inv f (s.goto t (.dropping 0)) := h.rest _ rfl (fun _ _ => Task.noConfusion) hnodrop
  unfold PageCache.scanUpdate
  split
  · next old m heq =>
    obtain ⟨r, hr, rfl, hle, rfl⟩ := inoUpdateValidator_ok heq
    have hmap : ∀ r₀, s.inomap f.ino = some r₀ → ∃ r', Function.update s.inomap f.ino
        (some { r with validator := v }) f.ino = some r' ∧ r₀.validator ≤ r'.validator := by
      intro r₀ hr₀
      obtain rfl := Option.some.inj (hr.symm.trans hr₀)
      exact ⟨_, Function.update_self _ _ _, hle⟩
    by_cases hsame : r.validator = v
    · rw [if_neg (not_not.mpr hsame)]
      refine (h.rest .idle rfl (fun _ _ => Task.noConfusion) hnodrop).withInomap hmap (Or.inr (Or.inl ?_))
      rintro v' ⟨r', hr', hlt⟩
      rw [State.withInomap_inomap, Function.update_self, Option.some.injEq] at hr'
      subst hr'
      exact ⟨r, hr, hsame ▸ hlt⟩
    · rw [if_pos hsame]
      refine hdrop.withInomap hmap (Or.inr (Or.inr fun i => ?_))
      exact Pending.of_drops (congrArg Task.drops State.goto_task_self) (Nat.zero_le i)
  · next res m hres heq =>
    obtain rfl := inoUpdateValidator_other heq (fun old hold => hres old hold)
    exact hdrop

theorem readChunk (h : Inv f s) {i v v' : ℕ} {noCache : Bool} (ht : s.task t = .reading i noCache v) :
    Inv f (readChunk s t i noCache v v') := by
  have hlock : (s.task t).lock = some i := congrArg Task.lock ht
  have hnodrop : (s.task t).drops = none := congrArg Task.drops ht
  have hknown : s.inomap f.ino ≠ none := fun hnone => (h.known hnone).2 _ _ _ _ ht
  unfold PageCache.readChunk
  split
  · split
    · exact h.unlock hlock hnodrop (fun _ hp => by cases hp)
    · refine h.goto _ (fun j hj => ?_) (drops_kept hnodrop _) (fun j c u hr => ?_) (fun _ _ hr => by cases hr)
      · cases hj
        exact hlock
      · cases hr
        exact ⟨hknown, h.reading ht⟩
  · next hle =>
    refine h.unlock hlock hnodrop ?_
    rintro u ⟨⟩
    refine ⟨hknown, ?_⟩
    -- the chunk is as new as the validator that the read began with
    rintro ⟨r, hr, hlt⟩
    exact h.reading ht ⟨r, hr, by omega⟩

/-- Every step keeps the invariant. -/
theorem step (h : Inv f s) (hino : f.ino ≠ 1) (hforget : Forgets f s l) (hstep : PageCache.step f s l = some s') :
    Inv f s' := by
  obtain ⟨t, call⟩ := l
  have hidle : ∀ {task : Task}, (s.task t).drops = none → task.lock = none → (∀ k v, task ≠ .replying k v) →
      Inv f (s.goto t task) := fun hdrops hlock hreply => h.rest _ hlock hreply hdrops
  unfold PageCache.step at hstep
  dsimp only at hstep
  split at hstep
  · next ht =>
    cases hstep
    exact hidle (congrArg Task.drops ht) rfl (fun _ _ => Task.noConfusion)
  · next ht =>
    cases hstep
    exact hidle (congrArg Task.drops ht) rfl (fun _ _ => Task.noConfusion)
  · next ht =>
    cases hstep
    exact hidle (congrArg Task.drops ht) rfl (fun _ _ => Task.noConfusion)
  · next ht =>
    cases hstep
    exact hidle (congrArg Task.drops ht) rfl (fun _ _ => Task.noConfusion)
  · next ht =>
    cases hstep
    exact hidle (congrArg Task.drops ht) rfl (fun _ _ => Task.noConfusion)
  · next ht =>
    cases hstep
    exact hidle (congrArg Task.drops ht) rfl (fun _ _ => Task.noConfusion)
  · next ht =>
    cases hstep
    exact h.openUpdate ht
  · next ht =>
    cases hstep
    exact h.scanUpdate ht
  · next keepCache v ht =>
    cases hstep
    cases keepCache
    · refine h.goto (.dropping 0) (fun i hi => by cases hi) (fun i k _ _ _ => ⟨0, Nat.zero_le i, rfl⟩)
        (fun _ _ _ hr => by cases hr) (fun _ _ hr => by cases hr)
    · exact hidle (congrArg Task.drops ht) rfl (fun _ _ => Task.noConfusion)
  · next i ht =>
    split at hstep
    · next hi =>
      cases hstep
      exact h.lockPage hi.1 hi.2 ht
    · cases hstep
  · next i ht =>
    have hlock : (s.task t).lock = some i := congrArg Task.lock ht
    have hdrops : (s.task t).drops = none := congrArg Task.drops ht
    split at hstep
    · next name inoValidator hname =>
      cases hstep
      obtain ⟨r, hr, rfl⟩ := inoToFullnameValidator_ok hino hname
      refine h.goto _ (fun j hj => ?_) (drops_kept hdrops _) (fun j c u hr' => ?_) (fun _ _ hr => by cases hr)
      · cases hj
        exact hlock
      · cases hr'
        refine ⟨fun hnone => Option.some_ne_none r (hr.symm.trans hnone), ?_⟩
        rintro ⟨r', hr', hlt⟩
        obtain rfl := Option.some.inj (hr.symm.trans hr')
        exact absurd hlt (lt_irrefl _)
    · cases hstep
      exact h.unlock hlock hdrops (fun _ hp => by cases hp)
  · next i noCache v v' ht =>
    cases hstep
    exact h.readChunk ht
  · next i noCache v ht =>
    cases hstep
    exact h.unlock (congrArg Task.lock ht) (congrArg Task.drops ht) (fun _ hp => by cases hp)
  · next ht =>
    cases hstep
    exact hidle (congrArg Task.drops ht) rfl (fun _ _ => Task.noConfusion)
  · next i ht =>
    split at hstep
    · cases hstep
    · next hi =>
      cases hstep
      -- the page goes first, so that nothing is left to drop for the pages before the next one
      have hempty := h.setEmpty (h.lock_ne hi)
      refine hempty.goto (t := t) (.dropping (i + 1)) (fun j hj => by cases hj) ?_ (fun _ _ _ hr => by cases hr)
        (fun _ _ hr => by cases hr)
      intro j k hj hk hle
      obtain rfl : i = k := Option.some.inj ((congrArg Task.drops ht).symm.trans hk)
      have hne : j ≠ i := by
        rintro rfl
        exact hj State.setPage_page_self
      exact ⟨i + 1, by omega, rfl⟩
  · next i ht =>
    split at hstep
    · next hle =>
      cases hstep
      refine h.goto .idle (fun j hj => by cases hj) ?_ (fun _ _ _ hr => by cases hr) (fun _ _ hr => by cases hr)
      intro j k hj hk hkj
      obtain rfl : i = k := Option.some.inj ((congrArg Task.drops ht).symm.trans hk)
      exact absurd (h.bound hj) (by omega)
    · cases hstep
  · next i _ =>
    split at hstep
    · cases hstep
    · next hi =>
      cases hstep
      exact h.setEmpty (h.lock_ne hi)
  · next c =>
    cases hstep
    rcases hs : s.inomap f.ino with _ | r
    · exact h.withInomap (fun r hr => by rw [hs] at hr; cases hr) (Or.inl hs)
    rcases call_record hs c with hnone | ⟨r', hr', hv⟩
    · obtain ⟨hempty, hbusy⟩ := hforget c rfl (hs ▸ Option.some_ne_none r) hnone
      exact h.forgotten hempty hbusy
    · refine h.withInomap ?_ (Or.inr (Or.inl ?_))
      · intro r₀ hr₀
        obtain rfl := Option.some.inj (hs.symm.trans hr₀)
        exact ⟨r', hr', hv.ge⟩
      · rintro v ⟨r₀, hr₀, hlt⟩
        obtain rfl := Option.some.inj (hr'.symm.trans hr₀)
        exact ⟨r, hs, hv ▸ hlt⟩
  · cases hstep

end Inv

/-! ## Runs -/

end PageCache

end Fs123
