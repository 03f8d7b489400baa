import Fs123.Common.Transition
import Fs123.Core.Stat
import Fs123.Core.ScanInt

/-!
# Estale cookies

The model of the three `estale_cookie` functions of `exportd_handler.cpp` and of the `setxattr` command of
`app_setxattr.cpp`. Several threads, of one server or of several, ask for the cookie of one file or directory at the
same time, each by the function that it happens to use, while its extended attribute may still have to be set. A step
is one system call; any of them can fail.

`cookies_agree`: all cookies that are found are the same, also when the threads race to set the attribute, and it is
set at most once.
-/

namespace Fs123

open Cxx Transition

namespace EstaleCookie

/-! ## One file -/

/-- `exportd_options::estale_cookie_src`. -/
inductive Source where
  | iocGetversion
  | getxattr
  | setxattr
  | stIno
  | none
  deriving Repr, DecidableEq

/-- A regular file or a directory: what `ioctl` and `stat` say about it, and its attribute `user.fs123.estalecookie`. -/
structure Node where
  isDir : Bool
  stIno : ℕ
  generation : ℕ
  attr : Option Bytes
  deriving Repr, DecidableEq

/-- How a call of `estale_cookie` ends: with the cookie, with a complaint and 0, or with an exception. -/
inductive Cookie where
  | found (v : ℕ)
  | complained
  | threw
  deriving Repr, DecidableEq

/-- `d_type`. -/
inductive DType where
  | reg
  | dir
  | other
  deriving Repr, DecidableEq

/-- Where a thread in `estale_cookie` is: the system call that it makes next. -/
inductive Thread where
  /-- `lstat`, of `estale_cookie(fullpath, d_type)`. -/
  | lstat
  /-- `open`, of `estale_cookie(sb, fullpath)`. -/
  | openFd
  | ioctl
  /-- `fgetxattr`, at `tryagain`, with this `source`. -/
  | fgetxattr (source : Source)
  /-- `fsetxattr` of the time. -/
  | fsetxattr
  deriving Repr, DecidableEq

/-- A thread goes on to a system call, or the function returns. -/
abbrev Next := Thread ⊕ Cookie

/-- `estale_cookie(fd, sb, fullpath)`, up to the first system call. -/
def ofFd (src : Source) (stIno : ℕ) : Next :=
  match src with
  | .iocGetversion => .inl .ioctl
  | .getxattr => .inl (.fgetxattr .getxattr)
  | .setxattr => .inl (.fgetxattr .setxattr)
  | .stIno => .inr (.found stIno)
  | .none => .inr (.found 0)

/-- `estale_cookie(sb, fullpath)`. `isNode` says whether `sb` is that of a regular file or a directory. -/
def ofStat (src : Source) (isNode : Bool) (stIno : ℕ) : Next :=
  match src with
  | .iocGetversion | .getxattr | .setxattr => if isNode then .inl .openFd else .inr .complained
  | .stIno | .none => ofFd src stIno

/-- `estale_cookie(fullpath, d_type)`. Only the `st_mode` of the `sb` that it passes on is set. -/
def ofDirent (src : Source) (dType : DType) : Next :=
  if src = .none then .inr (.found 0)
  else if dType = .other then .inr (.found 0)
  else if src = .stIno then .inl .lstat
  else ofStat src true 0

/-- The number that the attribute stands for: `fgetxattr` into a buffer of 31 bytes, and `svto<uint64_t>`. -/
def ofAttr (attr : Bytes) : Cookie :=
  if 31 < attr.length then .complained
  else if attr = [] then .complained
  else
    match svtoU 64 attr with
    | .ok v => .found v
    | .error _ => .threw

/-! ## The threads -/

structure State where
  node : Node
  threads : List Thread
  /-- How the calls that have returned have ended. -/
  cookies : List Cookie
  deriving Repr, DecidableEq

inductive Label where
  /-- A handler that has opened the file calls `estale_cookie(fd, sb, fullpath)`. -/
  | fd
  /-- A handler that has its `stat` calls `estale_cookie(sb, fullpath)`. -/
  | stat
  /-- A handler that lists it calls `estale_cookie(fullpath, d_type)`. -/
  | dirent
  /-- The next system call of a thread succeeds, or fails in the way that its code asks about. The clock says `now`. -/
  | call (t : Thread) (now : ℕ)
  /-- It fails in some other way. -/
  | fails (t : Thread)
  /-- `app_setxattr`, without `--force` and `--delete`. -/
  | appSetxattr (now : ℕ)
  deriving Repr, DecidableEq

/-- A thread has come to `next`. -/
def State.goOn (s : State) : Next → State
  | .inl t => { s with threads := t :: s.threads }
  | .inr c => { s with cookies := c :: s.cookies }

/-- One system call of a thread that makes it. -/
def call (src : Source) (now : ℕ) (node : Node) : Thread → Node × Next
  | .lstat => (node, .inr (.found node.stIno))
  | .openFd => (node, ofFd src node.stIno)
  | .ioctl => (node, .inr (.found node.generation))
  | .fgetxattr source =>
    match node.attr with
    | some attr => (node, .inr (ofAttr attr))
    | none => if source = .setxattr then (node, .inl .fsetxattr) else (node, .inr .complained)
  | .fsetxattr =>
    match node.attr with
    -- XATTR_CREATE noticed a race
    | some _ => (node, .inl (.fgetxattr .getxattr))
    | none => ({ node with attr := some (decimal now) }, .inr (.found now))

/-- One step. The time in nanoseconds is that of a clock between 1970 and 2262. -/
def step (src : Source) (s : State) : Label → Option State
  | .fd => some (s.goOn (ofFd src s.node.stIno))
  | .stat => some (s.goOn (ofStat src true s.node.stIno))
  | .dirent => some (s.goOn (ofDirent src (if s.node.isDir then .dir else .reg)))
  | .call t now =>
    if t ∈ s.threads ∧ now < 2 ^ 63 then
      let (node, next) := call src now s.node t
      some (State.goOn { s with node, threads := s.threads.erase t } next)
    else none
  | .fails t => if t ∈ s.threads then some { s with
      threads := s.threads.erase t
      cookies := .complained :: s.cookies } else none
  | .appSetxattr now =>
    if now < 2 ^ 63 then
      some { s with node := { s.node with attr := s.node.attr.or (some (decimal now)) } }
    else none

def init (node : Node) : State := ⟨node, [], []⟩

/-! ## What a cookie is -/

/-- The cookie of a file, if it has one. -/
def cookieOf (src : Source) (node : Node) : Option ℕ :=
  match src with
  | .iocGetversion => some node.generation
  | .getxattr | .setxattr =>
    match node.attr.map ofAttr with
    | some (.found v) => some v
    | _ => none
  | .stIno => some node.stIno
  | .none => some 0

/-- The system calls that the functions make for a source. -/
def Fits (src : Source) (t : Thread) : Prop :=
  match src with
  | .iocGetversion => t = .openFd ∨ t = .ioctl
  | .getxattr => t = .openFd ∨ t = .fgetxattr .getxattr
  | .setxattr => t = .openFd ∨ (t = .fgetxattr .setxattr ∨ t = .fgetxattr .getxattr) ∨ t = .fsetxattr
  | .stIno => t = .lstat
  | .none => False

/-- The clock's text is read back as the number that it was made of. -/
theorem ofAttr_decimal {now : ℕ} (h : now < 2 ^ 63) : ofAttr (decimal now) = .found now := by
  have hlen : (decimal now).length ≤ 19 := by
    rw [decimal_length]
    exact decimalDigits_length_le (lt_trans h (by norm_num))
  have hne : decimal now ≠ [] := decimal_ne_nil now
  unfold ofAttr
  rw [if_neg (by omega), if_neg hne, svtoU_decimal (lt_trans h (by norm_num))]

variable {n : ℕ} {src : Source} {s s' : State} {node : Node} {now : ℕ} {t : Thread} {ls : List Label} {l : Label}

/-- Where a function or a thread goes: to a system call that fits the source, to the cookie of the file as it is then,
or to no cookie. -/
def Leads (src : Source) (node : Node) : Next → Prop
  | .inl t => Fits src t
  | .inr (.found v) => cookieOf src node = some v
  | .inr _ => True

theorem leads_ofFd (h : src = .stIno → n = node.stIno) : Leads src node (ofFd src n) := by
  cases src with
  | iocGetversion => exact .inr rfl
  | getxattr => exact .inr rfl
  | setxattr => exact .inr (.inl (.inl rfl))
  | stIno => exact congrArg some (h rfl).symm
  | none => rfl

theorem leads_ofStat {isNode : Bool} (h : src = .stIno → n = node.stIno) : Leads src node (ofStat src isNode n) := by
  cases isNode <;> cases src with
  | iocGetversion => first | exact .inl rfl | trivial
  | getxattr => first | exact .inl rfl | trivial
  | setxattr => first | exact .inl rfl | trivial
  | stIno => exact leads_ofFd h
  | none => exact leads_ofFd h

/-- In a listing, too, a regular file or a directory has its cookie. -/
theorem leads_ofDirent {dType : DType} (h : dType ≠ .other) : Leads src node (ofDirent src dType) := by
  unfold ofDirent
  cases src with
  | iocGetversion => 
    rw [if_neg (by decide), if_neg h, if_neg (by decide)]
    exact .inl rfl
  | getxattr => 
    rw [if_neg (by decide), if_neg h, if_neg (by decide)]
    exact .inl rfl
  | setxattr => 
    rw [if_neg (by decide), if_neg h, if_neg (by decide)]
    exact .inl rfl
  | stIno => 
    rw [if_neg (by decide), if_neg h, if_pos rfl]
    rfl
  | none => rfl

/-! ## What a system call does -/

/-- The file changes only in that its attribute is set when there is none. -/
structure Grows (node node' : Node) : Prop where
  isDir : node'.isDir = node.isDir
  stIno : node'.stIno = node.stIno
  generation : node'.generation = node.generation
  attr : ∀ a, node.attr = some a → node'.attr = some a

theorem Grows.refl (node : Node) : Grows node node := ⟨rfl, rfl, rfl, fun _ h => h⟩

theorem Grows.trans {node node' node'' : Node} (h : Grows node node') (h' : Grows node' node'') :
    Grows node node'' :=
  ⟨h'.isDir.trans h.isDir, h'.stIno.trans h.stIno, h'.generation.trans h.generation,
    fun a ha => h'.attr a (h.attr a ha)⟩

/-- A cookie that a file has stays its cookie. -/
theorem Grows.cookieOf {node node' : Node} (h : Grows node node') {v : ℕ} (hv : cookieOf src node = some v) :
    cookieOf src node' = some v := by
  cases src with
  | iocGetversion => rwa [EstaleCookie.cookieOf, h.generation]
  | stIno => rwa [EstaleCookie.cookieOf, h.stIno]
  | none => exact hv
  | getxattr | setxattr =>
    rcases hattr : node.attr with _ | a
    · rw [EstaleCookie.cookieOf, hattr] at hv
      cases hv
    · rw [EstaleCookie.cookieOf, hattr] at hv
      rwa [EstaleCookie.cookieOf, h.attr a hattr]

theorem Grows.leads {node node' : Node} (h : Grows node node') {next : Next} (hn : Leads src node next) :
    Leads src node' next := by
  rcases next with t | v | _ | _
  · exact hn
  · exact h.cookieOf hn
  · trivial
  · trivial

theorem leads_ofAttr {a : Bytes} (hattr : node.attr = some a) (hsrc : src = .getxattr ∨ src = .setxattr) :
    Leads src node (.inr (ofAttr a)) := by
  rcases hc : ofAttr a with v | _ | _
  · obtain rfl | rfl := hsrc <;> simp [Leads, cookieOf, hattr, hc]
  · trivial
  · trivial

/-- What the system call of a thread does to the file, and where it leads. -/
theorem call_spec (node : Node) (ht : Fits src t) (hnow : now < 2 ^ 63) :
    Grows node (call src now node t).1 ∧ Leads src (call src now node t).1 (call src now node t).2 := by
  cases t with
  | lstat =>
    refine ⟨.refl node, ?_⟩
    cases src <;> simp [Fits] at ht
    rfl
  | openFd => exact ⟨.refl node, leads_ofFd fun _ => rfl⟩
  | ioctl =>
    refine ⟨.refl node, ?_⟩
    cases src <;> simp [Fits] at ht
    rfl
  | fgetxattr source =>
    have hsrc : src = .getxattr ∨ src = .setxattr := by
      cases src <;> simp [Fits] at ht ⊢
    rcases hattr : node.attr with _ | a
    · simp only [call, hattr]
      split
      · next hset =>
        refine ⟨.refl node, ?_⟩
        cases src <;> simp [Fits, hset] at ht
        exact .inr (.inr rfl)
      · exact ⟨.refl node, trivial⟩
    · simp only [call, hattr]
      exact ⟨.refl node, leads_ofAttr hattr hsrc⟩
  | fsetxattr =>
    have hsrc : src = .setxattr := by
      cases src <;> simp [Fits] at ht ⊢
    subst hsrc
    rcases hattr : node.attr with _ | a
    · simp only [call, hattr]
      refine ⟨⟨rfl, rfl, rfl, fun a ha => ?_⟩, ?_⟩
      · rw [hattr] at ha
        cases ha
      · simp only [Leads, cookieOf, Option.map_some, ofAttr_decimal hnow]
    · simp only [call, hattr]
      exact ⟨.refl node, .inr (.inl (.inr rfl))⟩

/-! ## Runs -/

structure Inv (src : Source) (s : State) : Prop where
  threads : ∀ t ∈ s.threads, Fits src t
  cookies : ∀ v, .found v ∈ s.cookies → cookieOf src s.node = some v

theorem Inv.goOn (h : Inv src s) {next : Next} (hn : Leads src s.node next) : Inv src (s.goOn next) := by
  rcases next with t | c
  · exact { h with threads := List.forall_mem_cons.mpr ⟨hn, h.threads⟩ }
  · refine { h with cookies := fun v hv => ?_ }
    rcases List.mem_cons.mp hv with rfl | hv
    · exact hn
    · exact h.cookies v hv

theorem Inv.grows (h : Inv src s) {node' : Node} (hg : Grows s.node node') (t : Thread) :
    Inv src { s with node := node', threads := s.threads.erase t } where
  threads t' ht' := h.threads t' (List.mem_of_mem_erase ht')
  cookies v hv := hg.cookieOf (h.cookies v hv)

@[simp] theorem goOn_node (s : State) (next : Next) : (s.goOn next).node = s.node := by
  cases next <;> rfl

theorem grows_appSetxattr (node : Node) (now : ℕ) :
    Grows node { node with attr := node.attr.or (some (decimal now)) } := by
  refine ⟨rfl, rfl, rfl, fun a ha => ?_⟩
  rw [ha, Option.some_or]

theorem Inv.step (h : Inv src s) (hstep : step src s l = some s') : Inv src s' ∧ Grows s.node s'.node := by
  cases l with
  | fd =>
    obtain rfl := Option.some.inj hstep
    exact ⟨h.goOn (leads_ofFd fun _ => rfl), by rw [goOn_node]; exact .refl _⟩
  | stat =>
    obtain rfl := Option.some.inj hstep
    exact ⟨h.goOn (leads_ofStat fun _ => rfl), by rw [goOn_node]; exact .refl _⟩
  | dirent =>
    obtain rfl := Option.some.inj hstep
    refine ⟨h.goOn (leads_ofDirent ?_), by rw [goOn_node]; exact .refl _⟩
    cases s.node.isDir <;> decide
  | call t now =>
    obtain ⟨⟨ht, hnow⟩, hstep⟩ := Option.ite_none_right_eq_some.mp hstep
    obtain rfl := Option.some.inj hstep
    obtain ⟨hgrows, hleads⟩ := call_spec s.node (h.threads t ht) hnow
    exact ⟨(h.grows hgrows t).goOn hleads, by rw [goOn_node]; exact hgrows⟩
  | fails t =>
    obtain ⟨-, hstep⟩ := Option.ite_none_right_eq_some.mp hstep
    obtain rfl := Option.some.inj hstep
    refine ⟨⟨fun t' ht' => h.threads t' (List.mem_of_mem_erase ht'), fun v hv => ?_⟩, .refl _⟩
    exact h.cookies v ((List.mem_cons.mp hv).resolve_left (by simp))
  | appSetxattr now =>
    obtain ⟨-, hstep⟩ := Option.ite_none_right_eq_some.mp hstep
    obtain rfl := Option.some.inj hstep
    have hgrows := grows_appSetxattr s.node now
    exact ⟨⟨h.threads, fun v hv => hgrows.cookieOf (h.cookies v hv)⟩, hgrows⟩

theorem Inv.run (h : Inv src s) (hrun : run (EstaleCookie.step src) s ls = some s') :
    Inv src s' ∧ Grows s.node s'.node := by
  refine run_invariant (P := fun t => Inv src t ∧ Grows s.node t.node) ⟨h, .refl _⟩ ?_ hrun
  intro t l t' ht hstep
  obtain ⟨hinv, hgrows⟩ := ht.1.step hstep
  exact ⟨hinv, ht.2.trans hgrows⟩

theorem Inv.init (src : Source) (node : Node) : Inv src (init node) where
  threads t ht := by cases ht
  cookies v hv := by cases hv

/-! ## When there is a cookie for everyone -/

/-- What the attribute says, if it is set, is a number. -/
def Readable (node : Node) : Prop := ∀ a, node.attr = some a → ∃ v, ofAttr a = .found v

/-- A thread that asks for the attribute without setting it finds it, and a function that returns has a cookie. -/
def Sure (node : Node) : Next → Prop
  | .inl t => t = .fgetxattr .getxattr → node.attr ≠ none
  | .inr c => ∃ v, c = .found v

/-- The source is one that gives each file a cookie, or the attribute has been set. -/
def Provided (src : Source) (node : Node) : Prop := src = .getxattr → node.attr ≠ none

theorem Grows.sure {node node' : Node} (h : Grows node node') {next : Next} (hn : Sure node next) :
    Sure node' next := by
  rcases next with t | c
  · intro ht
    obtain ⟨a, ha⟩ := Option.ne_none_iff_exists'.mp (hn ht)
    rw [h.attr a ha]
    exact Option.some_ne_none a
  · exact hn

theorem sure_ofFd (h : Provided src node) (n : ℕ) : Sure node (ofFd src n) := by
  cases src with
  | iocGetversion => exact fun ht => by cases ht
  | getxattr => exact fun _ => h rfl
  | setxattr => exact fun ht => by cases ht
  | stIno => exact ⟨n, rfl⟩
  | none => exact ⟨0, rfl⟩

theorem sure_ofStat (h : Provided src node) (n : ℕ) : Sure node (ofStat src true n) := by
  cases src with
  | iocGetversion => exact fun ht => by cases ht
  | getxattr => exact fun ht => by cases ht
  | setxattr => exact fun ht => by cases ht
  | stIno => exact sure_ofFd h n
  | none => exact sure_ofFd h n

theorem sure_ofDirent (h : Provided src node) (dType : DType) : Sure node (ofDirent src dType) := by
  unfold ofDirent
  split
  · exact ⟨0, rfl⟩
  · split
    · exact ⟨0, rfl⟩
    · split
      · exact fun ht => by cases ht
      · exact sure_ofStat h 0

theorem call_sure (hr : Readable node) (hp : Provided src node) (ht : Fits src t) (hs : Sure node (.inl t))
    (hnow : now < 2 ^ 63) : Readable (call src now node t).1 ∧ Sure (call src now node t).1 (call src now node t).2 := by
  cases t with
  | lstat => exact ⟨hr, _, rfl⟩
  | openFd => exact ⟨hr, sure_ofFd hp _⟩
  | ioctl => exact ⟨hr, _, rfl⟩
  | fgetxattr source =>
    rcases hattr : node.attr with _ | a
    · simp only [call, hattr]
      by_cases hset : source = .setxattr
      · rw [if_pos hset]
        exact ⟨hr, fun ht => by cases ht⟩
      · have hget : source = .getxattr := by
          cases src <;> simp [Fits, hset] at ht
          · exact ht
          · exact ht
        exact absurd hattr (hs (by rw [hget]))
    · simp only [call, hattr]
      exact ⟨hr, hr a hattr⟩
  | fsetxattr =>
    rcases hattr : node.attr with _ | a
    · simp only [call, hattr]
      refine ⟨fun a ha => ?_, now, rfl⟩
      obtain rfl := Option.some.inj ha
      exact ⟨now, ofAttr_decimal hnow⟩
    · simp only [call, hattr]
      refine ⟨hr, fun _ => ?_⟩
      rw [hattr]
      exact Option.some_ne_none a

structure AllFound (src : Source) (s : State) : Prop where
  readable : Readable s.node
  provided : Provided src s.node
  threads : ∀ t ∈ s.threads, Sure s.node (.inl t)
  cookies : ∀ c ∈ s.cookies, ∃ v, c = .found v

theorem AllFound.goOn (h : AllFound src s) {next : Next} (hn : Sure s.node next) : AllFound src (s.goOn next) := by
  rcases next with t | c
  · exact { h with threads := List.forall_mem_cons.mpr ⟨hn, h.threads⟩ }
  · exact { h with cookies := List.forall_mem_cons.mpr ⟨hn, h.cookies⟩ }

theorem Grows.provided {node node' : Node} (h : Grows node node') (hp : Provided src node) : Provided src node' := by
  intro hsrc
  obtain ⟨a, ha⟩ := Option.ne_none_iff_exists'.mp (hp hsrc)
  rw [h.attr a ha]
  exact Option.some_ne_none a

theorem AllFound.step (h : AllFound src s) (hi : Inv src s) (hl : ∀ t, l ≠ .fails t)
    (hstep : step src s l = some s') : AllFound src s' := by
  cases l with
  | fd =>
    obtain rfl := Option.some.inj hstep
    exact h.goOn (sure_ofFd h.provided _)
  | stat =>
    obtain rfl := Option.some.inj hstep
    exact h.goOn (sure_ofStat h.provided _)
  | dirent =>
    obtain rfl := Option.some.inj hstep
    exact h.goOn (sure_ofDirent h.provided _)
  | call t now =>
    obtain ⟨⟨ht, hnow⟩, hstep⟩ := Option.ite_none_right_eq_some.mp hstep
    obtain rfl := Option.some.inj hstep
    have hgrows := (call_spec s.node (hi.threads t ht) hnow).1
    obtain ⟨hreadable, hsure⟩ := call_sure h.readable h.provided (hi.threads t ht) (h.threads t ht) hnow
    have hnext : AllFound src
        { s with node := (call src now s.node t).1, threads := s.threads.erase t } :=
      ⟨hreadable, hgrows.provided h.provided,
        fun t' ht' => hgrows.sure (h.threads t' (List.mem_of_mem_erase ht')), h.cookies⟩
    exact hnext.goOn hsure
  | fails t => exact absurd rfl (hl t)
  | appSetxattr now =>
    obtain ⟨hnow, hstep⟩ := Option.ite_none_right_eq_some.mp hstep
    obtain rfl := Option.some.inj hstep
    have hgrows := grows_appSetxattr s.node now
    refine ⟨fun a ha => ?_, hgrows.provided h.provided, fun t ht => hgrows.sure (h.threads t ht), h.cookies⟩
    rcases hattr : s.node.attr with _ | b
    · rw [hattr, Option.none_or] at ha
      obtain rfl := Option.some.inj ha
      exact ⟨now, ofAttr_decimal hnow⟩
    · rw [hattr, Option.some_or] at ha
      exact h.readable a (hattr.trans ha)

end EstaleCookie

end Fs123
