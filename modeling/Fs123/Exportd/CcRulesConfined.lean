import Fs123.Common.Ends
import Fs123.Exportd.CcRules
import Fs123.Server.ParseSpec

/-!
# The rules files that are opened

`get_cc_rules_recursive` goes up from a directory by `pathsplit`, and opens a rules file in each directory on
the way that the cache has no rules for (`leads_getCcRulesRecursive`). The names are relative as long as the
directory does not begin with a slash. The validator lets a path with two slashes at its front through, and
`cache_control` strips one of them off: `rulesConfined_iff`.
-/

namespace Fs123

open Cxx

/-- `q` is reached from `p` by taking the directory part any number of times. -/
inductive Below : Bytes → Bytes → Prop
  | refl (p : Bytes) : Below p p
  | up {p q : Bytes} (hp : p ≠ []) (h : Below (pathsplit p).1 q) : Below p q

theorem pathsplit_fst (p : Bytes) : ∃ b, p = (pathsplit p).1 ++ b ∧ ((pathsplit p).1 = [] ∨ b.head? = some (ch '/')) := by
  unfold pathsplit
  split
  · exact ⟨p, rfl, Or.inl rfl⟩
  · next last hlast =>
    exact ⟨ch '/' :: p.drop (last + 1), (findLastOf_eq_some hlast).1, Or.inr rfl⟩

/-- A directory above is the path itself, the root, or what stands before one of its slashes. -/
theorem Below.split {p q : Bytes} (h : Below p q) :
    ∃ b, p = q ++ b ∧ (q = [] ∨ b = [] ∨ b.head? = some (ch '/')) := by
  induction h with
  | refl p => exact ⟨[], (List.append_nil p).symm, Or.inr (Or.inl rfl)⟩
  | @up p q hp _ ih =>
    obtain ⟨b, hb, hform⟩ := ih
    obtain ⟨b', hb', hslash⟩ := pathsplit_fst p
    refine ⟨b ++ b', by rw [hb', hb, List.append_assoc], ?_⟩
    rcases hform with hq | rfl | hhead
    · exact Or.inl hq
    · rw [List.append_nil] at hb
      rw [hb] at hslash
      exact hslash.imp id Or.inr
    · refine Or.inr (Or.inr ?_)
      rw [List.head?_append, hhead]
      rfl

namespace RuleEnv

variable (env : RuleEnv) {s : RuleState}

/-- The cache has rules for `path` that have not expired at the two readings of the clock that a call
makes. -/
def Live (s : RuleState) (path : Bytes) : Prop :=
  ∃ v, s.cache.excache.themap path = some v ∧ v.val.isSome ∧ v.expired (env.clock s.ticks) = false
    ∧ v.expired (env.clock (s.ticks + 1)) = false

/-- A computation after which `Q` holds, whether it fails or not. -/
abbrev After {α : Type} (x : RuleM α) (s : RuleState) (Q : RuleState → Prop) : Prop :=
  Leads x s (fun _ s' => Q s') Q

theorem leads_lookup (path : Bytes) :
    Leads (env.lookup path) s (fun v s' => s'.opened = s.opened ∧ s'.ticks = s.ticks + 1
      ∧ v = (s.cache.excache.lookup path (env.clock s.ticks)).1) fun _ => False :=
  ⟨rfl, rfl, rfl⟩

theorem leads_live (v : ExRuleset) :
    Leads (env.live v) s (fun b s' => s'.opened = s.opened
      ∧ (b = true ↔ v.val.isSome ∧ v.expired (env.clock s.ticks) = false)) fun _ => False := by
  unfold live
  cases hv : v.val with
  | none => exact ⟨rfl, by simp⟩
  | some rules => exact ⟨rfl, by simp⟩

theorem leads_insert (path : Bytes) (v : ExRuleset) :
    Leads (env.insert path v) s (fun _ s' => s'.opened = s.opened) fun _ => False :=
  rfl

/-- One name is opened, whatever becomes of it. -/
theorem leads_readCcRulesfile (relpath : Bytes) :
    Leads (env.readCcRulesfile relpath) s (fun _ s' => s'.opened = s.opened ++ [cstr relpath])
      fun s' => s'.opened = s.opened ++ [cstr relpath] := by
  unfold readCcRulesfile
  refine Leads.bind (P := fun _ (s' : RuleState) => s'.opened = s.opened ++ [cstr relpath]) rfl fun file s' h => ?_
  split
  · exact Leads.ite (fun _ => h) fun _ => h
  · exact h
  · exact h

/-- What a miss of the cache looks like. -/
theorem live_iff (path : Bytes) :
    ((s.cache.excache.lookup path (env.clock s.ticks)).1.val.isSome
        ∧ (s.cache.excache.lookup path (env.clock s.ticks)).1.expired (env.clock (s.ticks + 1)) = false) ↔
      env.Live s path := by
  unfold Expiring.Cache.lookup Live
  cases hmap : s.cache.excache.themap path with
  | none => simp [show (default : ExRuleset).val = none from rfl]
  | some v =>
    dsimp only
    by_cases hexp : v.expired (env.clock s.ticks) = true
    · simp [hexp, show (default : ExRuleset).val = none from rfl]
    · simp [hexp]

/-- The names opened on the way up: none if the cache has rules, else first that of the directory itself. -/
theorem leads_getCcRulesRecursive (path : Bytes) (s : RuleState) :
    Leads (env.getCcRulesRecursive path) s (fun _ s' => ∃ new, s'.opened = s.opened ++ new
      ∧ (∀ f ∈ new, ∃ q, Below path q ∧ f = cstr (rulesfileName q))
      ∧ (env.Live s path → new = []) ∧ (¬ env.Live s path → cstr (rulesfileName path) ∈ new))
      fun _ => False := by
  induction hn : path.length using Nat.strong_induction_on generalizing path s with
  | _ n ih =>
    rw [getCcRulesRecursive]
    refine Leads.bind (env.leads_lookup path) fun v s₁ ⟨ho₁, ht₁, hv⟩ => ?_
    refine Leads.bind (env.leads_live v) fun b s₂ ⟨ho₂, hb⟩ => ?_
    rw [ht₁, hv, env.live_iff] at hb
    refine Leads.ite (fun htrue => ?_) fun hfalse => ?_
    · -- The cache has rules: nothing is opened.
      exact ⟨[], by rw [ho₂, ho₁, List.append_nil], by simp, fun _ => rfl, fun h => absurd (hb.mp htrue) h⟩
    · have hmiss : ¬ env.Live s path := fun h => hfalse (hb.mpr h)
      have hread : Leads (tryCatch (env.readCcRulesfile (rulesfileName path)) fun _ => pure default) s₂
          (fun _ s' => s'.opened = s.opened ++ [cstr (rulesfileName path)]) fun _ => False := by
        rw [← ho₁, ← ho₂]
        exact Leads.tryCatch (env.leads_readCcRulesfile _) fun e s' h => h
      refine Leads.bind hread fun ret s₃ ho₃ => ?_
      refine Leads.ite (fun _ => ?_) fun _ => ?_
      · refine Leads.bind (env.leads_insert path ret) fun _ s₄ ho₄ => ?_
        exact ⟨[cstr (rulesfileName path)], ho₄.trans ho₃, by
          simpa using ⟨path, Below.refl path, rfl⟩, fun h => absurd h hmiss, by simp⟩
      · have hup : Leads (if _h : path = [] then fallback else env.getCcRulesRecursive (pathsplit path).1) s₃
            (fun _ s' => ∃ new, s'.opened = s₃.opened ++ new
              ∧ ∀ f ∈ new, ∃ q, Below path q ∧ f = cstr (rulesfileName q)) fun _ => False := by
          split
          · exact ⟨[], by simp, by simp⟩
          · next hne =>
            refine (ih _ (by rw [← hn]; exact pathsplit_length_lt hne) _ s₃ rfl).mono ?_ fun _ h => h
            rintro _ s' ⟨new, hnew, hbelow, -⟩
            refine ⟨new, hnew, fun f hf => ?_⟩
            obtain ⟨q, hq, rfl⟩ := hbelow f hf
            exact ⟨q, .up hne hq, rfl⟩
        refine Leads.bind hup fun ret s₄ ⟨new, hnew, hbelow⟩ => ?_
        refine Leads.bind (env.leads_insert path ret) fun _ s₅ ho₅ => ?_
        refine ⟨cstr (rulesfileName path) :: new, ?_, ?_, fun h => absurd h hmiss, by simp⟩
        · rw [ho₅, hnew, ho₃, List.append_assoc, List.singleton_append]
        · rintro f (_ | ⟨_, hf⟩)
          · exact ⟨path, .refl path, rfl⟩
          · exact hbelow f hf

end RuleEnv

/-! ## Names below the export root -/

/-- A relative name without a `..` component. -/
def Confined (name : Bytes) : Prop := name.head? ≠ some (ch '/') ∧ ¬ HasDotDot (ch '/' :: name)

theorem head?_rulesfileName {q : Bytes} :
    (RuleEnv.rulesfileName q).head? = some (ch '/') ↔ q.head? = some (ch '/') := by
  unfold RuleEnv.rulesfileName
  split
  · next hq =>
    subst hq
    decide
  · next hq =>
    obtain ⟨c, q, rfl⟩ := List.exists_cons_of_ne_nil hq
    simp

/-- A `..` in the name of a rules file comes from its directory. -/
theorem HasDotDot.of_rulesfileName {q : Bytes} (h : HasDotDot (ch '/' :: RuleEnv.rulesfileName q)) :
    HasDotDot (ch '/' :: q) := by
  obtain ⟨a, c, hac, hc⟩ := h
  unfold RuleEnv.rulesfileName at hac
  split at hac
  · exfalso
    have hfind := (findStr_isSome_iff (bytes "/..") _).mpr ⟨a, c, hac.symm⟩
    revert hfind
    decide
  · rw [← List.cons_append] at hac
    rcases List.append_eq_append_iff.mp hac with ⟨d, hd, hdc⟩ | ⟨d, hd, hdc⟩
    · -- The component would end inside the name of the file, or be that name.
      cases d with
      | nil => exact ⟨a, [], by rw [List.append_nil] at hd; rw [List.append_nil, hd], Or.inl rfl⟩
      | cons x d =>
        exfalso
        rw [show bytes "/.fs123_cc_rules" = ch '/' :: bytes ".fs123_cc_rules" from rfl, List.cons_append,
          List.cons.injEq] at hdc
        rcases hc with rfl | hc
        · have hlast := congrArg List.getLast? hd
          rw [List.append_nil] at hdc
          rw [List.getLast?_append, List.getLast?_append, ← hdc.2, ← hdc.1] at hlast
          revert hlast
          simp [show bytes "/.." = [ch '/', ch '.', ch '.'] from rfl,
            show (ch '/' :: bytes ".fs123_cc_rules").getLast? = some (ch 's') from rfl]
          decide
        · obtain ⟨c, rfl⟩ := List.head?_eq_some_iff.mp hc
          have hmem : ch '/' ∈ bytes ".fs123_cc_rules" := by rw [hdc.2]; simp
          revert hmem
          decide
    · refine ⟨a, d, hd, ?_⟩
      rw [hdc] at hc
      cases d with
      | nil => exact Or.inl rfl
      | cons x d => exact Or.inr (by simpa [PathForm] using hc)

/-- What is above a directory of a path without `..` has none either. -/
theorem HasDotDot.of_below {p q : Bytes} (h : Below p q) (hq : HasDotDot (ch '/' :: q)) :
    HasDotDot (ch '/' :: p) := by
  obtain ⟨b, rfl, hform⟩ := h.split
  obtain ⟨a, c, hac, hc⟩ := hq
  refine ⟨a, c ++ b, by rw [← List.cons_append, hac, List.append_assoc], ?_⟩
  rcases hc with rfl | hc
  · rcases hform with rfl | hb
    · have := congrArg List.length hac
      simp [show bytes "/.." = [ch '/', ch '.', ch '.'] from rfl] at this
    · exact hb
  · refine Or.inr ?_
    rw [List.head?_append, hc]
    rfl

theorem Below.trans {p q r : Bytes} (h : Below p q) (h' : Below q r) : Below p r := by
  induction h with
  | refl p => exact h'
  | up hp _ ih => exact .up hp (ih h')

theorem Below.pathsplit (p : Bytes) : Below p (pathsplit p).1 := by
  by_cases hp : p = []
  · subst hp
    exact .refl []
  · exact .up hp (.refl _)

theorem cstr_rulesfileName {q : Bytes} (h : 0 ∉ q) :
    cstr (RuleEnv.rulesfileName q) = RuleEnv.rulesfileName q := by
  apply cstr_eq_self
  unfold RuleEnv.rulesfileName
  split
  · decide
  · rw [List.mem_append, not_or]
    exact ⟨h, by decide⟩

/-- The directory that `cache_control` looks for a rules file in. -/
def rulesDir (pathInfo : Bytes) (sb : Option Stat) : Bytes :=
  if sb.any Stat.isDir then pathInfo.drop 1 else (pathsplit (pathInfo.drop 1)).1

theorem below_rulesDir (pathInfo : Bytes) (sb : Option Stat) : Below (pathInfo.drop 1) (rulesDir pathInfo sb) := by
  unfold rulesDir
  split
  · exact .refl _
  · exact .pathsplit _

/-- A validated path without its leading slash. -/
theorem validatePath_drop {pathInfo : Bytes} (h : validatePath pathInfo = .ok ()) :
    0 ∉ pathInfo.drop 1 ∧ ¬ HasDotDot (ch '/' :: pathInfo.drop 1) := by
  obtain ⟨hform, hnul, hdd⟩ := validatePath_eq_ok_iff.mp h
  refine ⟨fun hm => hnul (List.mem_of_mem_drop hm), ?_⟩
  rcases hform with rfl | hhead
  · rintro ⟨a, b, hab, -⟩
    have := congrArg List.length hab
    simp [show bytes "/.." = [ch '/', ch '.', ch '.'] from rfl] at this
    omega
  · obtain ⟨path, rfl⟩ := List.head?_eq_some_iff.mp hhead
    exact hdd

namespace RuleEnv

variable (env : RuleEnv) {s : RuleState}

/-- The names that a call has opened when it ends, normally or by an exception. -/
def newlyOpened {α : Type} (x : RuleM α) (s : RuleState) : List Bytes :=
  match x s with
  | .ok _ s' => s'.opened.drop s.opened.length
  | .error _ s' => s'.opened.drop s.opened.length

/-- The names that are opened for the directory `dir`. -/
def OpenedFor (s : RuleState) (dir : Bytes) (s' : RuleState) : Prop :=
  ∃ new, s'.opened = s.opened ++ new ∧ (∀ f ∈ new, ∃ q, Below dir q ∧ f = cstr (rulesfileName q))
    ∧ (env.Live s dir → new = []) ∧ (¬ env.Live s dir → cstr (rulesfileName dir) ∈ new)

theorem leads_getCc (pathInfo : Bytes) (directory : Bool) :
    After (env.getCc pathInfo directory) s
      (env.OpenedFor s (if directory then pathInfo else (pathsplit pathInfo).1)) := by
  unfold getCc After
  refine Leads.bind ((env.leads_getCcRulesRecursive _ s).mono (fun _ _ h => h) fun _ h => h.elim)
    fun rules s' h => ?_
  split
  · exact h
  · split
    · exact h
    · exact h
    · exact h

theorem leads_cacheControl (opts : CcOptions) {eno : ℤ} (pathInfo : Bytes) (sb : Option Stat)
    (heno : eno = 0 ∨ eno = 2) :
    After (env.cacheControl opts eno pathInfo sb) s (env.OpenedFor s (rulesDir pathInfo sb)) := by
  unfold cacheControl After
  rw [if_pos heno]
  refine Leads.bind (env.leads_getCc _ _) fun cc s' h => ?_
  split
  · exact Leads.ite (fun _ => h) fun _ => h
  · exact h

/-- What is known of the state after a call tells the names that it has opened. -/
theorem After.newlyOpened {α : Type} {x : RuleM α} {P : List Bytes → Prop}
    (h : After x s fun s' => ∃ new, s'.opened = s.opened ++ new ∧ P new) : P (newlyOpened x s) := by
  unfold After Leads at h
  unfold RuleEnv.newlyOpened
  cases hx : x s with
  | ok a s' =>
    rw [hx] at h
    obtain ⟨new, hnew, hP⟩ := h
    change P (s'.opened.drop s.opened.length)
    rwa [hnew, List.drop_left]
  | error e s' =>
    rw [hx] at h
    obtain ⟨new, hnew, hP⟩ := h
    change P (s'.opened.drop s.opened.length)
    rwa [hnew, List.drop_left]

/-- Other errors are answered without a look at the rules. -/
theorem newlyOpened_other (opts : CcOptions) {eno : ℤ} (pathInfo : Bytes) (sb : Option Stat)
    (heno : ¬ (eno = 0 ∨ eno = 2)) : newlyOpened (env.cacheControl opts eno pathInfo sb) s = [] := by
  unfold cacheControl
  rw [if_neg heno]
  unfold newlyOpened
  split_ifs <;> exact List.drop_length

/-- `cache_control` opens confined names only, unless the directory that it starts from begins with a slash
and the cache has no live rules for it: then it opens an absolute name. -/
theorem rulesConfined_iff (opts : CcOptions) (eno : ℤ) {pathInfo : Bytes} (sb : Option Stat)
    (hvalid : validatePath pathInfo = .ok ()) :
    (∀ name ∈ newlyOpened (env.cacheControl opts eno pathInfo sb) s, Confined name) ↔
      ¬ ((eno = 0 ∨ eno = 2) ∧ (rulesDir pathInfo sb).head? = some (ch '/')
        ∧ ¬ env.Live s (rulesDir pathInfo sb)) := by
  obtain ⟨hnul, hdd⟩ := validatePath_drop hvalid
  by_cases heno : eno = 0 ∨ eno = 2
  · obtain ⟨hopened, hlive, hmiss⟩ := (env.leads_cacheControl opts pathInfo sb heno).newlyOpened (s := s)
    have hname : ∀ q, Below (rulesDir pathInfo sb) q → cstr (rulesfileName q) = rulesfileName q := by
      intro q hq
      obtain ⟨b, hb, -⟩ := ((below_rulesDir pathInfo sb).trans hq).split
      exact cstr_rulesfileName fun hm => hnul (hb ▸ List.mem_append_left b hm)
    constructor
    · rintro h ⟨-, hhead, hnolive⟩
      have hbad := (h _ (hmiss hnolive)).1
      rw [hname _ (.refl _)] at hbad
      exact hbad (head?_rulesfileName.mpr hhead)
    · intro h name hmem
      obtain ⟨q, hq, rfl⟩ := hopened name hmem
      rw [hname q hq]
      refine ⟨fun hhead => h ⟨heno, ?_, fun hl => ?_⟩, fun hbad => hdd ?_⟩
      · obtain ⟨b, hb, -⟩ := hq.split
        rw [hb, List.head?_append, head?_rulesfileName.mp hhead]
        rfl
      · rw [hlive hl] at hmem
        simp at hmem
      · exact hbad.of_rulesfileName.of_below ((below_rulesDir pathInfo sb).trans hq)
  · simp [env.newlyOpened_other opts pathInfo sb heno, heno]

end RuleEnv

/-- A world without rules files, at the time 0. -/
def noRules : RuleEnv where
  clock _ := 0
  rulesfile _ _ := .errno 2
  evicted _ := []
  regexMatch _ _ := .ok false
  time _ := 0

/-- An empty rule cache, with an empty fallback that does not expire. -/
def emptyRules : RuleState :=
  ⟨⟨⟨100, fun _ => none⟩, 60, ⟨some ⟨[], bytes "max-age=30"⟩, 2 ^ 62⟩⟩, 0, []⟩

theorem rulesConfined_iff_foo :
    (∀ name ∈ RuleEnv.newlyOpened (noRules.cacheControl ⟨[], false⟩ 0 (bytes "/foo/bar") none) emptyRules,
        Confined name) ↔
      ¬ (((0 : ℤ) = 0 ∨ (0 : ℤ) = 2) ∧ (rulesDir (bytes "/foo/bar") none).head? = some (ch '/')
        ∧ ¬ noRules.Live emptyRules (rulesDir (bytes "/foo/bar") none)) :=
  noRules.rulesConfined_iff ⟨[], false⟩ 0 none (by decide)

/-- For the path `//etc/passwd` the file `/etc/.fs123_cc_rules` is opened, wherever the export root is. -/
theorem not_rulesConfined_etc : validatePath (bytes "//etc/passwd") = .ok ()
    ∧ bytes "/etc/.fs123_cc_rules"
      ∈ RuleEnv.newlyOpened (noRules.cacheControl ⟨[], false⟩ 0 (bytes "//etc/passwd") none) emptyRules
    ∧ ¬ Confined (bytes "/etc/.fs123_cc_rules") := by
  refine ⟨by decide, ?_, fun h => h.1 rfl⟩
  have hmiss : ¬ noRules.Live emptyRules (bytes "/etc") := by
    rintro ⟨v, hv, -⟩
    simp [emptyRules] at hv
  obtain ⟨-, -, hopened⟩ := (noRules.leads_cacheControl (s := emptyRules) ⟨[], false⟩ (bytes "//etc/passwd") none
    (Or.inl rfl)).newlyOpened
  exact hopened hmiss

end Fs123
