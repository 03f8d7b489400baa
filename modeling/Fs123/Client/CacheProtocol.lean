import Fs123.Client.CacheImage
import Fs123.Common.Files
import Fs123.Common.Transition

/-!
# The files of the disk cache under concurrent use

Any number of threads, of any number of processes, call `serialize`, `deserialize` and `evict_once` on one
directory. A step is one system call of one thread.

`serialize` writes `path.new` and renames it to `path`. What a path leads to is then always a complete file
(`CacheSound`), and a reader that has it open sees no change, as long as the evictor does not unlink a file that is
being written: its scan sees the names that end in `.new` as well. `evicted_new_published` is a run in which it does.
-/

namespace Fs123

open Cxx Posix Transition

/-! ## Names -/

/-- `hash(s)`, a path under the root directory. There is no dot in it. -/
structure CachePath where
  text : Bytes
  no_dot : ch '.' ∉ text
  deriving DecidableEq

theorem dot_not_mem_hexWord (w : UInt64) : ch '.' ∉ hexWord w := by
  intro h
  simp only [hexWord, List.mem_map] at h
  obtain ⟨i, -, hi⟩ := h
  have := hexlownibble_mem (w.toNat / 16 ^ (15 - i))
  rw [hi] at this
  revert this
  decide

/-- `hash(s)`. -/
def CachePath.hash (hexdigits : ℕ) (hashseed : UInt64 × UInt64) (s : Bytes) : CachePath where
  text :=
    let hd := hexWord (threeroe s hashseed.1 hashseed.2).1 ++ hexWord (threeroe s hashseed.1 hashseed.2).2
    hd.take hexdigits ++ ch '/' :: hd.drop hexdigits
  no_dot := by
    have hd : ∀ {c}, c ∈ hexWord (threeroe s hashseed.1 hashseed.2).1
        ++ hexWord (threeroe s hashseed.1 hashseed.2).2 → c ≠ ch '.' := by
      rintro c hc rfl
      rcases List.mem_append.mp hc with hc | hc
      · exact dot_not_mem_hexWord _ hc
      · exact dot_not_mem_hexWord _ hc
    intro h
    rcases List.mem_append.mp h with h | h
    · exact hd (List.mem_of_mem_take h) rfl
    · rcases List.mem_cons.mp h with h | h
      · exact absurd h (by decide)
      · exact hd (List.mem_of_mem_drop h) rfl

/-- What `<<` writes for a time in nanoseconds. -/
def nanosText (cnt : ℤ) : Bytes :=
  let frac := decimal (cnt.natAbs % 10 ^ 9)
  (if cnt < 0 then [ch '-'] else []) ++ decimal (cnt.natAbs / 10 ^ 9)
    ++ ch '.' :: (List.replicate (9 - frac.length) (ch '0') ++ frac)

namespace CachePath

variable {p q : CachePath}

/-- The name under which the file is written. -/
def new (p : CachePath) : Bytes := p.text ++ ch '.' :: bytes "new"

/-- The name that `deserialize` gives to a file that troubles it. -/
def aside (p : CachePath) (now : ℤ) : Bytes := p.text ++ ch '.' :: nanosText now

theorem append_dot_inj {x y : Bytes} (h : p.text ++ ch '.' :: x = q.text ++ ch '.' :: y) : p = q ∧ x = y := by
  have hcut : ∀ (r : CachePath) (z : Bytes), (r.text ++ ch '.' :: z).takeWhile (· ≠ ch '.') = r.text := by
    intro r z
    rw [List.takeWhile_append_of_pos, List.takeWhile_cons_of_neg (by simp), List.append_nil]
    intro c hc
    simpa using fun heq : c = ch '.' => r.no_dot (heq ▸ hc)
  have htext : p.text = q.text := by rw [← hcut p x, h, hcut q y]
  have hrest : ch '.' :: x = ch '.' :: y := List.append_cancel_left (htext ▸ h)
  refine ⟨?_, (List.cons.inj hrest).2⟩
  cases p
  cases q
  congr

theorem text_ne_append_dot {x : Bytes} : p.text ≠ q.text ++ ch '.' :: x := by
  intro h
  exact p.no_dot (h ▸ List.mem_append_right _ List.mem_cons_self)

theorem new_inj (h : p.new = q.new) : p = q := (append_dot_inj h).1

theorem text_inj (h : p.text = q.text) : p = q := by
  cases p
  cases q
  congr

theorem text_ne_new : p.text ≠ q.new := text_ne_append_dot

theorem text_ne_aside {now : ℤ} : p.text ≠ q.aside now := text_ne_append_dot

/-- A file that is put aside is not taken for one that is being written. -/
theorem aside_ne_new {now : ℤ} : p.aside now ≠ q.new := by
  intro h
  have hdot : ch '.' ∈ nanosText now := List.mem_append_right _ List.mem_cons_self
  rw [(append_dot_inj h).2] at hdot
  revert hdot
  decide

end CachePath

/-! ## Threads -/

/-- What a thread is doing. Where it has the file `ino` under `path.new`, that is said. -/
inductive CacheTask
  | idle
  /-- `serialize`, with the new file open. -/
  | writing (r : Reply123) (path : CachePath) (url : Bytes) (ino : ℕ)
  /-- `serialize` before `renameat`. -/
  | written (r : Reply123) (path : CachePath) (url : Bytes) (ino : ℕ)
  /-- The handler of `serialize`, before it unlinks `pathnew`. -/
  | failing (path : CachePath) (ino : ℕ)
  /-- The handler of `serialize`, before it unlinks `path`. -/
  | unlinking (path : CachePath)
  /-- `deserialize`, with the file open; `seen` is what was in the file when it was opened. -/
  | reading (path : CachePath) (ino : ℕ) (seen : Bytes)
  /-- The handler of `deserialize`, before it renames the file. -/
  | troubled (path : CachePath)
  /-- `evict_once`, with the names that `do_scan` has found. -/
  | scanning (names : List Bytes)

/-- The path whose `path.new` a thread has created, and its inode. -/
def CacheTask.holds : CacheTask → Option (CachePath × ℕ)
  | .writing _ path _ ino => some (path, ino)
  | .written _ path _ ino => some (path, ino)
  | .failing path ino => some (path, ino)
  | _ => none

structure CacheState where
  files : Files Bytes UInt8
  task : ℕ → CacheTask

/-- The system calls. -/
inductive CacheCall
  /-- `serialize` is called and opens `path.new` with `O_CREAT|O_EXCL`. -/
  | create (r : Reply123) (path : CachePath) (url : Bytes)
  /-- As much of the `writev` has been done. -/
  | part (n : ℕ)
  /-- The `writev` returns, with room for so many bytes. -/
  | writev (room : ℕ)
  /-- `renameat` from `pathnew` to `path`; it may fail. -/
  | publish (works : Bool)
  | unlinkNew (works : Bool)
  | unlinkPath (works : Bool)
  /-- `deserialize` is called and opens the file. -/
  | openRead (path : CachePath)
  /-- `deserialize` has read the file. -/
  | finish
  /-- `renameat` in the handler of `deserialize`. -/
  | setAside (now : ℤ)
  | scan
  /-- `fstatat` has found the next name of the directory. -/
  | found (name : Bytes)
  /-- `unlinkat` of a name that was found. -/
  | evict (name : Bytes)
  | scanned
  /-- The process of the thread is gone. -/
  | killed
  deriving DecidableEq

namespace CacheState

/-- A thread goes on to something else. -/
def goto (s : CacheState) (t : ℕ) (task : CacheTask) : CacheState :=
  { s with task := Function.update s.task t task }

/-- The files have changed. -/
def withFiles (s : CacheState) (files : Files Bytes UInt8) : CacheState := { s with files }

/-- `renameat` where nothing depends on whether it works. -/
def tryRename (s : CacheState) (a b : Bytes) : CacheState := s.withFiles ((s.files.rename a b).getD s.files)

/-- `unlinkat` where nothing depends on whether it works. -/
def tryUnlink (s : CacheState) (works : Bool) (a : Bytes) : CacheState :=
  if works then s.withFiles (s.files.unlink a) else s

/-- One system call of the thread `t`. -/
def step (s : CacheState) : ℕ × CacheCall → Option CacheState
  | (t, call) =>
    match s.task t, call with
    | .idle, .create r path url =>
      match s.files.openExcl path.new with
      | none => some s
      | some (ino, files) => some ((s.goto t (.writing r path url ino)).withFiles files)
    | .writing r _ url ino, .part n =>
      some (s.withFiles (s.files.write ino (((r.iov url).flatMap fun v => v.1.take v.2).take n)))
    | .writing r path url ino, .writev room =>
      match r.writeImage room url with
      | .ok wrote => some ((s.goto t (.written r path url ino)).withFiles (s.files.write ino wrote))
      | .error _ => some (s.goto t (.failing path ino))
    | .written _ path _ ino, .publish works =>
      match works, s.files.rename path.new path.text with
      | true, some files => some ((s.goto t .idle).withFiles files)
      | _, _ => some (s.goto t (.failing path ino))
    | .failing path _, .unlinkNew works => some ((s.goto t (.unlinking path)).tryUnlink works path.new)
    | .unlinking path, .unlinkPath works => some ((s.goto t .idle).tryUnlink works path.text)
    | .idle, .openRead path =>
      match s.files.inode path.text with
      | none => some s
      | some ino => some (s.goto t (.reading path ino (s.files.data ino)))
    | .reading path ino _, .finish =>
      match deserialize (some ⟨true, s.files.data ino⟩) with
      | .ok (_, false) => some (s.goto t .idle)
      | .ok (_, true) => some (s.goto t (.troubled path))
      | .error _ => none
    | .troubled path, .setAside now => some ((s.goto t .idle).tryRename path.text (path.aside now))
    | .idle, .scan => some (s.goto t (.scanning []))
    | .scanning names, .found name =>
      if s.files.inode name = none then none else some (s.goto t (.scanning (name :: names)))
    | .scanning names, .evict name => if name ∈ names then some (s.tryUnlink true name) else none
    | .scanning _, .scanned => some (s.goto t .idle)
    | _, .killed => some (s.goto t .idle)
    | _, _ => none

end CacheState

/-! ## What is in the files -/

/-- No thread is at work on these files. -/
def CacheState.start (files : Files Bytes UInt8) : CacheState := ⟨files, fun _ => .idle⟩

/-- The whole file of one call of `serialize` for this path, or what was there at the start. -/
def Complete (files₀ : Files Bytes UInt8) (ls : List (ℕ × CacheCall)) (p : CachePath) (data : Bytes) : Prop :=
  (∃ i, files₀.inode p.text = some i ∧ data = files₀.data i)
    ∨ ∃ t r url room, (t, CacheCall.create r p url) ∈ ls ∧ r.writeImage room url = .ok data

/-- The evictor does not unlink a file that a thread is writing. -/
def SparesHeld (s : CacheState) (l : ℕ × CacheCall) : Prop :=
  ∀ name, l.2 = .evict name → ∀ t p i, (s.task t).holds = some (p, i) → name ≠ p.new

/-- What every system call preserves. -/
structure CacheInv (files₀ : Files Bytes UInt8) (ls : List (ℕ × CacheCall)) (s : CacheState) : Prop where
  /-- A file that is being written has its name. -/
  held : ∀ {t p i}, (s.task t).holds = some (p, i) → s.files.inode p.new = some i
  /-- Only one thread writes it. -/
  alone : ∀ {t t' p i i'}, (s.task t).holds = some (p, i) → (s.task t').holds = some (p, i') → t = t'
  asked : ∀ {t r p url i}, s.task t = .writing r p url i ∨ s.task t = .written r p url i →
    ∃ t', (t', CacheCall.create r p url) ∈ ls
  written : ∀ {t r p url i}, s.task t = .written r p url i → ∃ room, r.writeImage room url = .ok (s.files.data i)
  final : ∀ {p i}, s.files.inode p.text = some i → Complete files₀ ls p (s.files.data i)
  /-- What is open for reading is complete, it is as it was, and nobody writes to it. -/
  reading : ∀ {t p i seen}, s.task t = .reading p i seen → i < s.files.fresh ∧ s.files.data i = seen
    ∧ Complete files₀ ls p seen ∧ ∀ t' p', (s.task t').holds ≠ some (p', i)

variable {files₀ : Files Bytes UInt8} {ls : List (ℕ × CacheCall)} {s s' : CacheState} {t : ℕ}
  {l : ℕ × CacheCall} {p : CachePath} {data : Bytes}

theorem Complete.later (h : Complete files₀ ls p data) (l : ℕ × CacheCall) : Complete files₀ (ls ++ [l]) p data := by
  rcases h with h | ⟨t, r, url, room, hmem, hwrote⟩
  · exact Or.inl h
  · exact Or.inr ⟨t, r, url, room, List.mem_append_left _ hmem, hwrote⟩

namespace CacheState

variable {task : CacheTask} {files : Files Bytes UInt8}

@[simp] theorem goto_files : (s.goto t task).files = s.files := rfl

@[simp] theorem goto_task_self : (s.goto t task).task t = task := Function.update_self _ _ _

theorem goto_task_of_ne {t' : ℕ} (h : t' ≠ t) : (s.goto t task).task t' = s.task t' := Function.update_of_ne h _ _

@[simp] theorem withFiles_files : (s.withFiles files).files = files := rfl

@[simp] theorem withFiles_task : (s.withFiles files).task = s.task := rfl

end CacheState

namespace CacheInv

theorem start (files₀ : Files Bytes UInt8) : CacheInv files₀ [] (.start files₀) where
  held h := by cases h
  alone h := by cases h
  asked h := by rcases h with h | h <;> cases h
  written h := by cases h
  final h := Or.inl ⟨_, h, rfl⟩
  reading h := by cases h

theorem later (h : CacheInv files₀ ls s) (l : ℕ × CacheCall) : CacheInv files₀ (ls ++ [l]) s where
  held := h.held
  alone := h.alone
  asked hw := by
    obtain ⟨t', hmem⟩ := h.asked hw
    exact ⟨t', List.mem_append_left _ hmem⟩
  written := h.written
  final hp := (h.final hp).later l
  reading hr := by
    obtain ⟨hlt, hdata, hc, hfree⟩ := h.reading hr
    exact ⟨hlt, hdata, hc.later l, hfree⟩

/-- A thread goes on, and has the same file as before or none. -/
theorem goto (h : CacheInv files₀ ls s) (task : CacheTask)
    (hholds : ∀ x, task.holds = some x → (s.task t).holds = some x)
    (hasked : ∀ r p url i, task = .writing r p url i ∨ task = .written r p url i →
      ∃ t', (t', CacheCall.create r p url) ∈ ls)
    (hwritten : ∀ r p url i, task = .written r p url i → ∃ room, r.writeImage room url = .ok (s.files.data i))
    (hreading : ∀ p i seen, task = .reading p i seen → i < s.files.fresh ∧ s.files.data i = seen
      ∧ Complete files₀ ls p seen ∧ ∀ t' p', (s.task t').holds ≠ some (p', i)) :
    CacheInv files₀ ls (s.goto t task) := by
  have hold : ∀ {t' x}, ((s.goto t task).task t').holds = some x → (s.task t').holds = some x := by
    intro t' x hx
    by_cases ht : t' = t
    · rw [ht, CacheState.goto_task_self] at hx
      exact ht ▸ hholds x hx
    · rwa [CacheState.goto_task_of_ne ht] at hx
  constructor
  · exact fun hx => h.held (hold hx)
  · exact fun hx hx' => h.alone (hold hx) (hold hx')
  · intro t' r p url i hw
    by_cases ht : t' = t
    · rw [ht, CacheState.goto_task_self] at hw
      exact hasked r p url i hw
    · rw [CacheState.goto_task_of_ne ht] at hw
      exact h.asked hw
  · intro t' r p url i hw
    by_cases ht : t' = t
    · rw [ht, CacheState.goto_task_self] at hw
      exact hwritten r p url i hw
    · rw [CacheState.goto_task_of_ne ht] at hw
      exact h.written hw
  · exact h.final
  · intro t' p i seen hr
    have hread : i < s.files.fresh ∧ s.files.data i = seen ∧ Complete files₀ ls p seen
        ∧ ∀ t' p', (s.task t').holds ≠ some (p', i) := by
      by_cases ht : t' = t
      · rw [ht, CacheState.goto_task_self] at hr
        exact hreading p i seen hr
      · rw [CacheState.goto_task_of_ne ht] at hr
        exact h.reading hr
    obtain ⟨hlt, hdata, hc, hfree⟩ := hread
    exact ⟨hlt, hdata, hc, fun t' p' hx => hfree t' p' (hold hx)⟩

/-- A thread has nothing open any more. -/
theorem rest (h : CacheInv files₀ ls s) (task : CacheTask) (hholds : task.holds = none)
    (hreading : ∀ p i seen, task ≠ .reading p i seen) : CacheInv files₀ ls (s.goto t task) := by
  refine h.goto _ ?_ ?_ ?_ ?_
  · intro x hx
    rw [hholds] at hx
    cases hx
  · rintro r p url i (rfl | rfl) <;> cases hholds
  · rintro r p url i rfl
    cases hholds
  · exact fun p i seen hr => absurd hr (hreading p i seen)

/-- The one thread that has a file writes to it. -/
theorem write (h : CacheInv files₀ ls s) {i : ℕ} (hholds : (s.task t).holds = some (p, i))
    (hwriting : ∀ r p url i, s.task t ≠ .written r p url i) (bs : Bytes) :
    CacheInv files₀ ls (s.withFiles (s.files.write i bs)) where
  held := h.held
  alone := h.alone
  asked := h.asked
  written {t' r p' url i'} hw := by
    have hne : i' ≠ i := by
      rintro rfl
      have hholds' : (s.task t').holds = some (p', i') := congrArg CacheTask.holds hw
      obtain rfl := CachePath.new_inj (s.files.inode_inj _ _ _ (h.held hholds) (h.held hholds'))
      obtain rfl := h.alone hholds hholds'
      exact hwriting _ _ _ _ hw
    rw [CacheState.withFiles_files, Files.write_data_of_ne hne]
    exact h.written hw
  final {q i'} hq := by
    have hne : i' ≠ i := by
      rintro rfl
      exact CachePath.text_ne_new (s.files.inode_inj _ _ _ hq (h.held hholds))
    rw [CacheState.withFiles_files, Files.write_data_of_ne hne]
    exact h.final hq
  reading {t' q i' seen} hr := by
    obtain ⟨hlt, hdata, hc, hfree⟩ := h.reading hr
    have hne : i' ≠ i := by
      rintro rfl
      exact hfree _ _ hholds
    refine ⟨hlt, ?_, hc, hfree⟩
    rw [CacheState.withFiles_files, Files.write_data_of_ne hne]
    exact hdata

/-- A new file that a thread has from now on. -/
theorem create (h : CacheInv files₀ ls s) {r : Reply123} {url : Bytes} (hnone : s.files.inode p.new = none)
    (hasked : ∃ t', (t', CacheCall.create r p url) ∈ ls) :
    CacheInv files₀ ls ((s.goto t (.writing r p url s.files.fresh)).withFiles (s.files.create p.new)) := by
  have hcases : ∀ {t' x}, ((s.goto t (.writing r p url s.files.fresh)).task t').holds = some x →
      t' = t ∧ x = (p, s.files.fresh) ∨ t' ≠ t ∧ (s.task t').holds = some x := by
    intro t' x hx
    by_cases ht : t' = t
    · rw [ht, CacheState.goto_task_self] at hx
      exact Or.inl ⟨ht, (Option.some.inj hx).symm⟩
    · rw [CacheState.goto_task_of_ne ht] at hx
      exact Or.inr ⟨ht, hx⟩
  have hother : ∀ {t' q i}, (s.task t').holds = some (q, i) → q ≠ p := by
    rintro t' q i hx rfl
    have := h.held hx
    rw [hnone] at this
    cases this
  have hdata : ∀ {q : Bytes} {i : ℕ}, s.files.inode q = some i →
      (s.files.create p.new).data i = s.files.data i :=
    fun hq => Files.create_data_of_lt (s.files.inode_lt _ _ hq)
  constructor
  · intro t' q i hx
    rcases hcases hx with ⟨-, heq⟩ | ⟨-, hx⟩
    · cases heq
      exact Files.create_inode_self
    · have hne : q.new ≠ p.new := fun heq => hother hx (CachePath.new_inj heq)
      exact (Files.create_inode_of_ne hne).trans (h.held hx)
  · intro t' t'' q i i' hx hx'
    rcases hcases hx with ⟨ht, heq⟩ | ⟨-, hx⟩ <;> rcases hcases hx' with ⟨ht', heq'⟩ | ⟨-, hx'⟩
    · rw [ht, ht']
    · cases heq
      exact absurd rfl (hother hx')
    · cases heq'
      exact absurd rfl (hother hx)
    · exact h.alone hx hx'
  · intro t' r' q url' i hw
    by_cases ht : t' = t
    · rw [CacheState.withFiles_task, ht, CacheState.goto_task_self] at hw
      rcases hw with hw | hw <;> cases hw
      exact hasked
    · rw [CacheState.withFiles_task, CacheState.goto_task_of_ne ht] at hw
      exact h.asked hw
  · intro t' r' q url' i hw
    by_cases ht : t' = t
    · rw [CacheState.withFiles_task, ht, CacheState.goto_task_self] at hw
      cases hw
    · rw [CacheState.withFiles_task, CacheState.goto_task_of_ne ht] at hw
      have hholds : (s.task t').holds = some (q, i) := congrArg CacheTask.holds hw
      rw [CacheState.withFiles_files, hdata (h.held hholds)]
      exact h.written hw
  · intro q i hq
    rw [CacheState.withFiles_files, Files.create_inode_of_ne CachePath.text_ne_new] at hq
    rw [CacheState.withFiles_files, hdata hq]
    exact h.final hq
  · intro t' q i seen hr
    have ht : t' ≠ t := by
      rintro rfl
      rw [CacheState.withFiles_task, CacheState.goto_task_self] at hr
      cases hr
    rw [CacheState.withFiles_task, CacheState.goto_task_of_ne ht] at hr
    obtain ⟨hlt, hseen, hc, hfree⟩ := h.reading hr
    refine ⟨Nat.lt_succ_of_lt hlt, (Files.create_data_of_lt hlt).trans hseen, hc, ?_⟩
    intro t'' q' hx
    rcases hcases hx with ⟨-, heq⟩ | ⟨-, hx⟩
    · rw [(Prod.mk.inj heq).2] at hlt
      exact lt_irrefl _ hlt
    · exact hfree _ _ hx

/-- A name goes that no thread needs. -/
theorem unlink (h : CacheInv files₀ ls s) {n : Bytes}
    (hfree : ∀ t p i, (s.task t).holds = some (p, i) → n ≠ p.new) :
    CacheInv files₀ ls (s.withFiles (s.files.unlink n)) where
  held hx := Files.unlink_inode_eq_some.mpr ⟨(hfree _ _ _ hx).symm, h.held hx⟩
  alone := h.alone
  asked := h.asked
  written := h.written
  final hq := h.final (Files.unlink_inode_eq_some.mp hq).2
  reading := h.reading

theorem tryUnlink (h : CacheInv files₀ ls s) {n : Bytes} (works : Bool)
    (hfree : ∀ t p i, (s.task t).holds = some (p, i) → n ≠ p.new) :
    CacheInv files₀ ls (s.tryUnlink works n) := by
  unfold CacheState.tryUnlink
  split
  · exact h.unlink hfree
  · exact h

/-- A file gets another name. If a cached reply is found under it, the file is complete. -/
theorem rename (h : CacheInv files₀ ls s) {a b : Bytes} {files : Files Bytes UInt8} (hne : a ≠ b)
    (hren : s.files.rename a b = some files) (ha : ∀ t p i, (s.task t).holds = some (p, i) → a ≠ p.new)
    (hb : ∀ p : CachePath, b ≠ p.new)
    (hfinal : ∀ p i, b = p.text → s.files.inode a = some i → Complete files₀ ls p (s.files.data i)) :
    CacheInv files₀ ls (s.withFiles files) := by
  obtain ⟨i, hi, hinode, hdata, hfresh⟩ := Files.rename_eq_some hne hren
  constructor
  · intro t' q j hx
    rw [CacheState.withFiles_files, hinode, Function.update_of_ne (hb q).symm,
      Function.update_of_ne (ha _ _ _ hx).symm]
    exact h.held hx
  · exact h.alone
  · exact h.asked
  · intro t' r q url j hw
    rw [CacheState.withFiles_files, hdata]
    exact h.written hw
  · intro q j hq
    rw [CacheState.withFiles_files, hinode] at hq
    rw [CacheState.withFiles_files, hdata]
    by_cases hqb : q.text = b
    · rw [hqb, Function.update_self, Option.some.injEq] at hq
      exact hq ▸ hfinal q i hqb.symm hi
    rw [Function.update_of_ne hqb] at hq
    by_cases hqa : q.text = a
    · rw [hqa, Function.update_self] at hq
      cases hq
    rw [Function.update_of_ne hqa] at hq
    exact h.final hq
  · intro t' q j seen hr
    rw [CacheState.withFiles_files, hfresh, hdata]
    exact h.reading hr

/-- Every system call keeps the invariant, as long as the evictor leaves the files alone that are being written. -/
theorem step (h : CacheInv files₀ ls s) (hspares : SparesHeld s l) (hstep : s.step l = some s') :
    CacheInv files₀ (ls ++ [l]) s' := by
  obtain ⟨t, call⟩ := l
  have h' := h.later (t, call)
  have hfree : ∀ {s' : CacheState} {p : CachePath} {i : ℕ}, CacheInv files₀ (ls ++ [(t, call)]) s' →
      (s'.task t).holds = some (p, i) → ∀ {task : CacheTask}, task.holds = none →
      ∀ t' q j, ((s'.goto t task).task t').holds = some (q, j) → p.new ≠ q.new := by
    intro s' p i hinv hp task htask t' q j hq heq
    obtain rfl := CachePath.new_inj heq
    by_cases ht : t' = t
    · rw [ht, CacheState.goto_task_self, htask] at hq
      cases hq
    · rw [CacheState.goto_task_of_ne ht] at hq
      exact ht (hinv.alone hq hp)
  unfold CacheState.step at hstep
  dsimp only at hstep
  split at hstep
  · next r p url htask =>
    -- `open` with `O_CREAT|O_EXCL`
    split at hstep
    · cases hstep
      exact h'
    · next ino files hopen =>
      cases hstep
      obtain ⟨hnone, rfl, rfl⟩ := Files.openExcl_eq_some hopen
      exact h'.create hnone ⟨t, List.mem_append_right _ List.mem_cons_self⟩
  · next r p url ino n htask =>
    cases hstep
    refine h'.write (congrArg CacheTask.holds htask) ?_ _
    intro _ _ _ _ hw
    rw [htask] at hw
    cases hw
  · next r p url ino room htask =>
    have hheld : (s.task t).holds = some (p, ino) := congrArg CacheTask.holds htask
    have hasked := h'.asked (Or.inl htask)
    split at hstep
    · next wrote hwrote =>
      cases hstep
      -- first the data, then the thread goes on
      have hw := h'.write hheld (fun _ _ _ _ hw => by rw [htask] at hw; cases hw) wrote
      refine hw.goto (.written r p url ino) ?_ ?_ ?_ ?_
      · exact fun x hx => hheld.trans hx
      · rintro _ _ _ _ (heq | heq) <;> cases heq
        exact hasked
      · rintro _ _ _ _ heq
        cases heq
        exact ⟨room, hwrote.trans (congrArg Except.ok Files.write_data_self.symm)⟩
      · rintro _ _ _ heq
        cases heq
    · cases hstep
      refine h'.goto _ (fun x hx => hheld.trans hx) ?_ ?_ ?_
      · rintro _ _ _ _ (heq | heq) <;> cases heq
      · rintro _ _ _ _ heq
        cases heq
      · rintro _ _ _ heq
        cases heq
  · next r p url ino works htask =>
    have hheld : (s.task t).holds = some (p, ino) := congrArg CacheTask.holds htask
    obtain ⟨t₁, hasked⟩ := h'.asked (Or.inr htask)
    obtain ⟨room, hwrote⟩ := h'.written htask
    split at hstep
    · next files hren =>
      cases hstep
      have hidle := h'.rest (t := t) .idle rfl (fun _ _ _ heq => by cases heq)
      refine hidle.rename CachePath.text_ne_new.symm hren (hfree h' hheld rfl) ?_ ?_
      · exact fun _ => CachePath.text_ne_new
      · intro q i hq hi
        obtain rfl := CachePath.text_inj hq
        obtain rfl := Option.some.inj (hi.symm.trans (h.held hheld))
        exact Or.inr ⟨t₁, r, url, room, hasked, hwrote⟩
    · cases hstep
      refine h'.goto _ (fun x hx => hheld.trans hx) ?_ ?_ ?_
      · rintro _ _ _ _ (heq | heq) <;> cases heq
      · rintro _ _ _ _ heq
        cases heq
      · rintro _ _ _ heq
        cases heq
  · next p ino works htask =>
    cases hstep
    have hheld : (s.task t).holds = some (p, ino) := congrArg CacheTask.holds htask
    exact (h'.rest _ rfl fun _ _ _ heq => by cases heq).tryUnlink works (hfree h' hheld rfl)
  · next p works htask =>
    cases hstep
    refine (h'.rest _ rfl fun _ _ _ heq => by cases heq).tryUnlink works ?_
    exact fun _ _ _ _ => CachePath.text_ne_new
  · next p htask =>
    split at hstep
    · cases hstep
      exact h'
    · next ino hino =>
      cases hstep
      refine h'.goto _ ?_ ?_ ?_ ?_
      · intro x hx
        cases hx
      · rintro _ _ _ _ (heq | heq) <;> cases heq
      · rintro _ _ _ _ heq
        cases heq
      · rintro _ _ _ heq
        cases heq
        refine ⟨s.files.inode_lt _ _ hino, rfl, h'.final hino, ?_⟩
        intro t' q hq
        exact CachePath.text_ne_new (s.files.inode_inj _ _ _ hino (h.held hq))
  · next p ino seen htask =>
    split at hstep
    · cases hstep
      exact h'.rest _ rfl fun _ _ _ heq => by cases heq
    · cases hstep
      exact h'.rest _ rfl fun _ _ _ heq => by cases heq
    · cases hstep
  · next p now htask =>
    cases hstep
    have hidle := h'.rest (t := t) .idle rfl (fun _ _ _ heq => by cases heq)
    unfold CacheState.tryRename
    rcases hren : (s.goto t .idle).files.rename p.text (p.aside now) with _ | files
    · exact hidle
    · refine hidle.rename CachePath.text_ne_aside hren (fun _ _ _ _ => CachePath.text_ne_new) ?_ ?_
      · exact fun _ => CachePath.aside_ne_new
      · exact fun q _ hq => absurd hq.symm CachePath.text_ne_aside
  · cases hstep
    exact h'.rest _ rfl fun _ _ _ heq => by cases heq
  · next names name htask =>
    split at hstep
    · cases hstep
    · cases hstep
      exact h'.rest _ rfl fun _ _ _ heq => by cases heq
  · next names name htask =>
    split at hstep
    · cases hstep
      exact h'.tryUnlink true (hspares name rfl)
    · cases hstep
  · cases hstep
    exact h'.rest _ rfl fun _ _ _ heq => by cases heq
  · cases hstep
    exact h'.rest _ rfl fun _ _ _ heq => by cases heq
  · cases hstep

end CacheInv

/-! ## Runs -/

/-- What the files and the open files are like after the system calls `ls`. -/
structure CacheSound (files₀ : Files Bytes UInt8) (ls : List (ℕ × CacheCall)) (s : CacheState) : Prop where
  /-- A file that is found under a path is complete. -/
  visible : ∀ p i, s.files.inode p.text = some i → Complete files₀ ls p (s.files.data i)
  /-- A file that is open for reading is what it was when it was opened, and that was complete. -/
  steady : ∀ t p i seen, s.task t = .reading p i seen → s.files.data i = seen ∧ Complete files₀ ls p seen
  /-- If there were no files at the start, `deserialize` returns a reply that was given to `serialize` for the same
  path, and does not put the file aside. -/
  returned : (∀ p : CachePath, files₀.inode p.text = none) → (∀ t r p url, (t, .create r p url) ∈ ls → r.Held) →
    ∀ t p i seen, s.task t = .reading p i seen → ∃ t' r url, (t', CacheCall.create r p url) ∈ ls
      ∧ deserialize (some ⟨true, s.files.data i⟩) = .ok (r, false)

/-- What `serialize` writes is read without trouble. -/
theorem deserialize_of_writeImage {r : Reply123} {room : ℕ} {url : Bytes} (hr : r.Held)
    (hwrote : r.writeImage room url = .ok data) : deserialize (some ⟨true, data⟩) = .ok (r, false) := by
  obtain ⟨hhash, hlen, hroom, rfl⟩ := (Reply123.writeImage_eq_ok_iff hr).mp hwrote
  have hcut : (url.take (url.length % 2 ^ 32)).length = url.length % 2 ^ 32 := by
    rw [List.length_take, Nat.min_eq_left (Nat.mod_le _ _)]
  have hread := deserializeNoUnlink_image hr hhash (by rwa [hcut])
    (by rw [hcut]; exact le_trans hroom (min_le_left _ _)) false
  rw [deserialize, hread]
  rfl

theorem CacheInv.sound (h : CacheInv files₀ ls s) : CacheSound files₀ ls s where
  visible _ _ := h.final
  steady t p i seen hr := by
    obtain ⟨-, hseen, hc, -⟩ := h.reading hr
    exact ⟨hseen, hc⟩
  returned hempty hheld t p i seen hr := by
    obtain ⟨-, rfl, hc, -⟩ := h.reading hr
    rcases hc with ⟨j, hj, -⟩ | ⟨t', r, url, room, hmem, hwrote⟩
    · rw [hempty p] at hj
      cases hj
    · exact ⟨t', r, url, hmem, deserialize_of_writeImage (hheld _ _ _ _ hmem) hwrote⟩

/-- As long as the evictor unlinks no file that is being written, whatever the threads do, every file that can be
seen under a path is complete, and whoever reads it gets all of it. -/
theorem cache_sound (hrun : run CacheState.step (.start files₀) ls = some s)
    (hspares : EachStep CacheState.step SparesHeld (.start files₀) ls) : CacheSound files₀ ls s := by
  have hinv : CacheInv files₀ ls s :=
    hspares.history (CacheInv.start files₀) (fun _ _ _ _ h hspares hstep => h.step hspares hstep) hrun
  exact hinv.sound

/-- An empty cache. -/
def noFiles : Files Bytes UInt8 where
  inode _ := none
  data _ := []
  fresh := 0
  inode_lt _ _ h := by cases h
  inode_inj _ _ _ h := by cases h

/-- The evictor unlinks only what `serialize` is done with. -/
theorem spares_of_text (h : ∀ l ∈ ls, ∀ name, l.2 = .evict name → ∃ q : CachePath, name = q.text) :
    EachStep CacheState.step SparesHeld (.start files₀) ls := by
  intro ls₁ l ls₂ t hls _ name hname _ q _ _
  have hmem : l ∈ ls := hls ▸ List.mem_append_right _ List.mem_cons_self
  obtain ⟨p, rfl⟩ := h l hmem name hname
  exact CachePath.text_ne_new

/-- The path of the reply to a request for a symbolic link. -/
def linkPath : CachePath := .hash 1 (0, 0) (bytes "/l/home")

/-- One thread writes the file, one reads it, and one unlinks it while it is being read. -/
def linkCalls : List (ℕ × CacheCall) :=
  [(0, .create linkReply linkPath (bytes "/l/home")), (1, .scan), (0, .part 20), (0, .writev 4096),
    (0, .publish true), (2, .openRead linkPath), (1, .found linkPath.text), (1, .evict linkPath.text)]

theorem cache_sound_link : ∃ s, run CacheState.step (.start noFiles) linkCalls = some s
    ∧ CacheSound noFiles linkCalls s := by
  have hsome : (run CacheState.step (.start noFiles) linkCalls).isSome := by decide +kernel
  obtain ⟨s, hrun⟩ := Option.isSome_iff_exists.mp hsome
  refine ⟨s, hrun, cache_sound hrun (spares_of_text ?_)⟩
  intro l hl name hname
  simp only [linkCalls, List.mem_cons, List.not_mem_nil, or_false] at hl
  rcases hl with rfl | rfl | rfl | rfl | rfl | rfl | rfl | rfl <;> cases hname
  exact ⟨_, rfl⟩

/-- The evictor has found the file that thread 0 writes, and unlinks it. Thread 2 creates it again, and then it is
the new file that thread 0 renames. -/
def evictedNew : List (ℕ × CacheCall) :=
  [(0, .create linkReply linkPath (bytes "/l/home")), (1, .scan), (1, .found linkPath.new),
    (1, .evict linkPath.new), (2, .create linkReply linkPath (bytes "/l/home")), (0, .writev 4096),
    (0, .publish true)]

/-- An empty file is then found under the path. -/
theorem evicted_new_published : ∃ s, run CacheState.step (.start noFiles) evictedNew = some s
    ∧ ¬ CacheSound noFiles evictedNew s := by
  have hlook : (run CacheState.step (.start noFiles) evictedNew).map
      (fun s => (s.files.inode linkPath.text, s.files.data 1)) = some (some 1, []) := by decide +kernel
  obtain ⟨s, hrun, hs⟩ := Option.map_eq_some_iff.mp hlook
  refine ⟨s, hrun, ?_⟩
  intro h
  have hempty : Complete noFiles evictedNew linkPath (s.files.data 1) := h.visible linkPath 1 (Prod.mk.inj hs).1
  rw [(Prod.mk.inj hs).2] at hempty
  rcases hempty with ⟨i, hi, -⟩ | ⟨t, r, url, room, hmem, hwrote⟩
  · cases hi
  have hr : r = linkReply := by
    simp only [evictedNew, List.mem_cons, List.not_mem_nil, Prod.mk.injEq, CacheCall.create.injEq, reduceCtorEq,
      and_false, or_false, false_or] at hmem
    rcases hmem with ⟨-, hr, -⟩ | ⟨-, hr, -⟩ <;> exact hr
  obtain ⟨-, -, -, himage⟩ := (Reply123.writeImage_eq_ok_iff (hr ▸ linkReply_held)).mp hwrote
  have hlen := (hr ▸ linkReply_held : r.Held).image_length (url.take (url.length % 2 ^ 32))
  rw [← himage] at hlen
  simp at hlen

end Fs123
