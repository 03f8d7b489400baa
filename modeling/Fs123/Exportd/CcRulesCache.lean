import Fs123.Exportd.CcRulesConfined

/-!
# What the rule cache remembers

`leads_rules` is about any notion of which rules are right for a directory (`Sound`): if a rules file is
right for its own directory, and a directory without one may take what is right for the directory above it,
then every entry of the cache is right, and so is what `get_cc_rules_recursive` returns, whatever the cache
has lost or let expire. It is used twice. With a file system that does not change, what is right is what
stands in the nearest rules file; otherwise it is what was read from a file above at some time.
-/

namespace Fs123

open Cxx

namespace RuleEnv

variable (env : RuleEnv)

/-- `cc_rule_cache(export_root, cache_entries, default_ttl, fb_cc)`. The fallback expires like anything
else. -/
def start (cacheEntries : ℕ) (defaultTtl : ℤ) (fbCc : Bytes) : RuleState where
  cache := ⟨⟨cacheEntries, fun _ => none⟩, defaultTtl,
    ⟨some ⟨[], fbCc⟩, env.clock 0 + seconds defaultTtl⟩⟩
  ticks := 1
  opened := []

/-- The state that an action leaves, normally or by an exception. -/
def after {α : Type} (x : RuleM α) (s : RuleState) : RuleState :=
  match x s with
  | .ok _ s' => s'
  | .error _ s' => s'

/-- The value of an action, or the exception that it ends in. -/
def value {α : Type} (x : RuleM α) (s : RuleState) : Res α :=
  match x s with
  | .ok a _ => .ok a
  | .error e _ => .error e

/-- The directory that `get_cc` looks for rules in. -/
def dirOf (pathInfo : Bytes) (directory : Bool) : Bytes :=
  if directory then pathInfo else (pathsplit pathInfo).1

/-- A history of calls of `get_cc`. -/
def history (s : RuleState) (calls : List (Bytes × Bool)) : RuleState :=
  calls.foldl (fun s c => after (env.getCc c.1 c.2) s) s

/-- The choice of `get_cc` among the rules that it has found. -/
def choose (pathInfo : Bytes) (rules : Ruleset) : Res Bytes :=
  catchE (env.matchRules pathInfo rules.cc rules.rerules) fun e =>
    .error (.throws (e.nest .runtimeError (bytes "in get_cc(" ++ pathInfo ++ bytes ")")))

/-- The rules that are read at the tick `k` for a directory, as they are stored. -/
def ReadAt (ttl : ℤ) (k : ℕ) (q : Bytes) (maxage : ℤ) (v : ExRuleset) : Prop :=
  ∃ given rules, env.rulesfile k (cstr (rulesfileName q)) = .rules given rules ∧ maxage = given.getD ttl
    ∧ v = ⟨some rules, env.clock (k + 1) + seconds maxage⟩

/-- There are no rules in a directory at the tick `k`: no file, or one that cannot be read. -/
def NoRules (k : ℕ) (q : Bytes) : Prop :=
  ∀ given rules, env.rulesfile k (cstr (rulesfileName q)) ≠ .rules given rules

/-- `ok n path v`: up to the tick `n`, `v` is right for `path`. -/
structure Sound (ttl : ℤ) (fb : ExRuleset) (ok : ℕ → Bytes → ExRuleset → Prop) : Prop where
  mono : ∀ n m path v, ok n path v → n ≤ m → ok m path v
  read : ∀ n k path maxage v, env.ReadAt ttl k path maxage v → k + 1 < n → ok n path v
  root : ∀ n k, env.NoRules k [] → k < n → ok n [] fb
  up : ∀ n k path v, path ≠ [] → env.NoRules k path → k < n → ok n (pathsplit path).1 v → ok n path v

/-- The constants of the cache, and what is known of its entries. -/
structure Remembers (ttl : ℤ) (fb : ExRuleset) (ok : ℕ → Bytes → ExRuleset → Prop) (s : RuleState) :
    Prop where
  ttl_eq : s.cache.defaultTtl = ttl
  fallback_eq : s.cache.fallbackCc = fb
  entries : ∀ path v, s.cache.excache.themap path = some v → v.val.isSome ∧ ok s.ticks path v

/-- At the tick `t` the rules `v` have been read for a directory above `path`, or they have not expired. -/
def UsableAt (ttl : ℤ) (path : Bytes) (v : ExRuleset) (t : ℕ) : Prop :=
  env.clock t ≤ v.goodTill ∨ ∃ k q maxage, Below path q ∧ t = k + 1 ∧ env.ReadAt ttl k q maxage v

section Remembering

variable {env} {ttl : ℤ} {fb : ExRuleset} {ok : ℕ → Bytes → ExRuleset → Prop} {s : RuleState}

theorem Remembers.mono (hok : env.Sound ttl fb ok) (h : Remembers ttl fb ok s) {s' : RuleState}
    (hcache : s'.cache = s.cache) (hticks : s.ticks ≤ s'.ticks) : Remembers ttl fb ok s' := by
  refine ⟨by rw [hcache, h.ttl_eq], by rw [hcache, h.fallback_eq], ?_⟩
  intro path v hv
  rw [hcache] at hv
  obtain ⟨hsome, hright⟩ := h.entries path v hv
  exact ⟨hsome, hok.mono _ _ _ _ hright hticks⟩

/-- A lookup only erases, and what it returns, if anything, is in the map. -/
theorem lookup_spec (c : Expiring.Cache Bytes (Option Ruleset)) (path : Bytes) (asifnow : TimePoint) :
    (∀ q w, (c.lookup path asifnow).2.themap q = some w → c.themap q = some w)
      ∧ ((c.lookup path asifnow).1.val.isSome → c.themap path = some (c.lookup path asifnow).1) := by
  have hdefault : ¬ (default : ExRuleset).val.isSome := by decide
  unfold Expiring.Cache.lookup
  rcases hmap : c.themap path with _ | v
  · exact ⟨fun _ _ hw => hw, fun hsome => absurd hsome hdefault⟩
  · dsimp only
    split
    · refine ⟨?_, fun hsome => absurd hsome hdefault⟩
      intro q w hw
      by_cases hq : q = path
      · subst hq
        simp [Expiring.Cache.erase] at hw
      · simpa [Expiring.Cache.erase, hq] using hw
    · exact ⟨fun _ _ hw => hw, fun _ => rfl⟩

theorem Remembers.lookup (hok : env.Sound ttl fb ok) (h : Remembers ttl fb ok s) (path : Bytes) :
    Leads (env.lookup path) s (fun v s' => Remembers ttl fb ok s' ∧ s'.ticks = s.ticks + 1
      ∧ (v.val.isSome → ok s'.ticks path v)) fun _ => False := by
  obtain ⟨hmap, hret⟩ := lookup_spec s.cache.excache path (env.clock s.ticks)
  refine ⟨⟨h.ttl_eq, h.fallback_eq, ?_⟩, rfl, ?_⟩
  · intro q w hw
    obtain ⟨hsome, hright⟩ := h.entries q w (hmap q w hw)
    exact ⟨hsome, hok.mono _ _ _ _ hright (Nat.le_succ _)⟩
  · intro hsome
    exact hok.mono _ _ _ _ (h.entries path _ (hret hsome)).2 (Nat.le_succ _)

/-- What is inserted has to be right; what is there stays. -/
theorem Remembers.insert (hok : env.Sound ttl fb ok) (h : Remembers ttl fb ok s) {path : Bytes}
    {v : ExRuleset} (hsome : v.val.isSome) (hv : ok s.ticks path v) :
    Leads (env.insert path v) s (fun _ s' => Remembers ttl fb ok s' ∧ s'.ticks = s.ticks + 1)
      fun _ => False := by
  refine ⟨⟨h.ttl_eq, h.fallback_eq, ?_⟩, rfl⟩
  intro q w hw
  have hmem : s.cache.excache.themap q = some w ∨ (q = path ∧ w = v) := by
    dsimp only at hw
    unfold Expiring.Cache.insert at hw
    split at hw
    · exact Or.inl hw
    · rcases hmap : s.cache.excache.themap path with _ | x
      · simp only [hmap, Expiring.Cache.evict] at hw
        split at hw
        · simp at hw
        · by_cases hq : q = path
          · subst hq
            rw [Function.update_self, Option.some.injEq] at hw
            exact Or.inr ⟨rfl, hw.symm⟩
          · rw [Function.update_of_ne hq] at hw
            exact Or.inl hw
      · simp only [hmap, Expiring.Cache.evict] at hw
        split at hw
        · simp at hw
        · exact Or.inl hw
  rcases hmem with hmem | ⟨rfl, rfl⟩
  · obtain ⟨hsome', hright⟩ := h.entries q w hmem
    exact ⟨hsome', hok.mono _ _ _ _ hright (Nat.le_succ _)⟩
  · exact ⟨hsome, hok.mono _ _ _ _ hv (Nat.le_succ _)⟩

/-- A rules file that is read, or the absence of one. -/
theorem Remembers.readCcRulesfile (hok : env.Sound ttl fb ok) (h : Remembers ttl fb ok s) (path : Bytes) :
    Leads (tryCatch (env.readCcRulesfile (rulesfileName path)) fun _ => pure default) s
      (fun v s' => Remembers ttl fb ok s' ∧ s.ticks < s'.ticks
        ∧ ((v.val = none ∧ env.NoRules s.ticks path)
          ∨ v.val.isSome ∧ s'.ticks = s.ticks + 2 ∧ ∃ maxage, env.ReadAt ttl s.ticks path maxage v))
      fun _ => False := by
  refine Leads.tryCatch (E := fun s' => Remembers ttl fb ok s' ∧ s.ticks < s'.ticks
    ∧ env.NoRules s.ticks path) ?_ ?_
  · unfold RuleEnv.readCcRulesfile
    refine Leads.bind (P := fun file (s' : RuleState) => file = env.rulesfile s.ticks (cstr (rulesfileName path))
      ∧ s'.cache = s.cache ∧ s'.ticks = s.ticks + 1) ⟨rfl, rfl, rfl⟩ fun file s' ⟨hfile, hcache, hticks⟩ => ?_
    have hrem := h.mono hok hcache (by omega)
    rcases file with eno | e | ⟨maxage, rules⟩
    · have hno : env.NoRules s.ticks path := by
        intro given rules hrules
        rw [← hfile] at hrules
        simp at hrules
      exact Leads.ite (fun _ => ⟨hrem, by omega, Or.inl ⟨rfl, hno⟩⟩) fun _ => ⟨hrem, by omega, hno⟩
    · refine ⟨hrem, by omega, ?_⟩
      intro given rules hrules
      rw [← hfile] at hrules
      simp at hrules
    · refine ⟨hrem.mono hok rfl (Nat.le_succ _), ?_, Or.inr ⟨rfl, ?_, _, _, rules, hfile.symm, rfl, ?_⟩⟩
      · change s.ticks < s'.ticks + 1
        omega
      · change s'.ticks + 1 = s.ticks + 2
        omega
      · rw [← h.ttl_eq, ← hcache, ← hticks]
  · intro e s' ⟨hrem, hticks, hno⟩
    exact ⟨hrem, hticks, Or.inl ⟨rfl, hno⟩⟩

/-- What `get_cc_rules_recursive` returns is right, and it could be used at a time in between. -/
theorem leads_rules (hok : env.Sound ttl fb ok) (hfb : fb.val.isSome) (path : Bytes)
    (h : Remembers ttl fb ok s) :
    Leads (env.getCcRulesRecursive path) s (fun v s' => Remembers ttl fb ok s' ∧ s.ticks ≤ s'.ticks
      ∧ v.val.isSome ∧ ok s'.ticks path v
      ∧ (v = fb ∨ ∃ t, s.ticks ≤ t ∧ t < s'.ticks ∧ env.UsableAt ttl path v t)) fun _ => False := by
  induction hn : path.length using Nat.strong_induction_on generalizing path s with
  | _ n ih =>
    rw [getCcRulesRecursive.eq_def]
    refine Leads.bind (h.lookup hok path) fun tentative s₁ ⟨hrem₁, hticks₁, hright⟩ => ?_
    have hlive : Leads (env.live tentative) s₁ (fun b s' => Remembers ttl fb ok s' ∧ s₁.ticks ≤ s'.ticks
        ∧ (b = true → tentative.val.isSome ∧ s₁.ticks < s'.ticks ∧ env.clock s₁.ticks ≤ tentative.goodTill))
        fun _ => False := by
      unfold live
      rcases tentative.val with _ | rules
      · exact ⟨hrem₁, le_rfl, fun hb => absurd hb (by decide)⟩
      · refine ⟨hrem₁.mono hok rfl (Nat.le_succ _), Nat.le_succ _, fun hb => ⟨rfl, Nat.lt_succ_self _, ?_⟩⟩
        simpa [Expiring.expired] using hb
    refine Leads.bind hlive fun b s₂ ⟨hrem₂, hticks₂, hb⟩ => ?_
    refine Leads.ite (fun htrue => ?_) fun _ => ?_
    · obtain ⟨hsome, hlt, hgood⟩ := hb htrue
      exact ⟨hrem₂, by omega, hsome, hok.mono _ _ _ _ (hright hsome) hticks₂,
        Or.inr ⟨s₁.ticks, by omega, hlt, Or.inl hgood⟩⟩
    · refine Leads.bind (hrem₂.readCcRulesfile hok path) fun ret s₃ ⟨hrem₃, hticks₃, hret⟩ => ?_
      refine Leads.ite (fun hsome => ?_) fun hnone => ?_
      · -- the file of the directory itself
        obtain ⟨hnone, -⟩ | ⟨-, hticks, maxage, hread⟩ := hret
        · rw [hnone] at hsome
          exact absurd hsome (by decide)
        have hright : ok s₃.ticks path ret := hok.read _ _ _ _ _ hread (by omega)
        refine Leads.bind (hrem₃.insert hok hsome hright) fun _ s₄ ⟨hrem₄, hticks₄⟩ => ?_
        refine ⟨hrem₄, by omega, hsome, hok.mono _ _ _ _ hright (by omega), Or.inr ⟨s₂.ticks + 1, ?_, ?_, ?_⟩⟩
        · omega
        · omega
        · exact Or.inr ⟨s₂.ticks, path, maxage, .refl path, rfl, hread⟩
      · obtain ⟨-, hno⟩ | ⟨hsome, -⟩ := hret
        swap
        · exact absurd hsome hnone
        have hup : Leads (if _h : path = [] then fallback else env.getCcRulesRecursive (pathsplit path).1) s₃
            (fun v s' => Remembers ttl fb ok s' ∧ s₃.ticks ≤ s'.ticks ∧ v.val.isSome ∧ ok s'.ticks path v
              ∧ (v = fb ∨ ∃ t, s₃.ticks ≤ t ∧ t < s'.ticks ∧ env.UsableAt ttl path v t)) fun _ => False := by
          split
          · next hroot =>
            subst hroot
            refine ⟨hrem₃, le_rfl, ?_, ?_, Or.inl hrem₃.fallback_eq⟩
            · rw [hrem₃.fallback_eq]
              exact hfb
            · rw [hrem₃.fallback_eq]
              exact hok.root _ _ hno hticks₃
          · next hne =>
            refine (ih _ (by rw [← hn]; exact pathsplit_length_lt hne) _ hrem₃ rfl).mono ?_ fun _ h => h
            intro v s' ⟨hrem, hticks, hsome, hright, huse⟩
            refine ⟨hrem, hticks, hsome, hok.up _ _ _ _ hne hno (by omega) hright, huse.imp id ?_⟩
            intro ⟨t, hge, hlt, ht⟩
            refine ⟨t, hge, hlt, ht.imp id ?_⟩
            intro ⟨k, q, maxage, hq, hk, hread⟩
            exact ⟨k, q, maxage, .up hne hq, hk, hread⟩
        refine Leads.bind hup fun v s₄ ⟨hrem₄, hticks₄, hsome, hright, huse⟩ => ?_
        refine Leads.bind (hrem₄.insert hok hsome hright) fun _ s₅ ⟨hrem₅, hticks₅⟩ => ?_
        refine ⟨hrem₅, by omega, hsome, hok.mono _ _ _ _ hright (by omega), huse.imp id ?_⟩
        intro ⟨t, hge, hlt, ht⟩
        exact ⟨t, by omega, by omega, ht⟩

/-- A call of `get_cc` chooses among the rules that it has found. -/
theorem getCc_eq {pathInfo : Bytes} {directory : Bool} {v : ExRuleset} {rules : Ruleset} {s' : RuleState}
    (hrun : env.getCcRulesRecursive (dirOf pathInfo directory) s = .ok v s') (hv : v.val = some rules) :
    value (env.getCc pathInfo directory) s = env.choose pathInfo rules
      ∧ after (env.getCc pathInfo directory) s = s' := by
  unfold dirOf at hrun
  unfold value after getCc choose
  simp only [bind, EStateM.bind, hrun, hv]
  rcases env.matchRules pathInfo rules.cc rules.rerules with (e | _) | cc
  · exact ⟨rfl, rfl⟩
  · exact ⟨rfl, rfl⟩
  · exact ⟨rfl, rfl⟩

/-- A call of `get_cc`: the rules that it uses are right, and the cache still remembers what is. -/
theorem Remembers.getCc (hok : env.Sound ttl fb ok) (hfb : fb.val.isSome) (h : Remembers ttl fb ok s)
    (pathInfo : Bytes) (directory : Bool) :
    Remembers ttl fb ok (after (env.getCc pathInfo directory) s)
      ∧ ∃ v rules, v.val = some rules ∧ value (env.getCc pathInfo directory) s = env.choose pathInfo rules
        ∧ ok (after (env.getCc pathInfo directory) s).ticks (dirOf pathInfo directory) v
        ∧ (v = fb ∨ ∃ t, s.ticks ≤ t ∧ t < (after (env.getCc pathInfo directory) s).ticks
          ∧ env.UsableAt ttl (dirOf pathInfo directory) v t) := by
  have hleads := leads_rules hok hfb (dirOf pathInfo directory) h
  rcases hrun : env.getCcRulesRecursive (dirOf pathInfo directory) s with ⟨v, s'⟩ | ⟨e, s'⟩
  · obtain ⟨hrem, -, hsome, hright, huse⟩ := hleads.eq_ok hrun
    obtain ⟨rules, hv⟩ := Option.isSome_iff_exists.mp hsome
    obtain ⟨hvalue, hafter⟩ := getCc_eq hrun hv
    rw [hafter]
    exact ⟨hrem, v, rules, hv, hvalue, hright, huse⟩
  · unfold Leads at hleads
    rw [hrun] at hleads
    exact hleads.elim

theorem Remembers.history (hok : env.Sound ttl fb ok) (hfb : fb.val.isSome) (h : Remembers ttl fb ok s)
    (calls : List (Bytes × Bool)) : Remembers ttl fb ok (env.history s calls) := by
  induction calls generalizing s with
  | nil => exact h
  | cons c calls ih => exact ih (h.getCc hok hfb c.1 c.2).1

/-- At first there is nothing to be right about. -/
theorem remembers_start (cacheEntries : ℕ) (ttl : ℤ) (fbCc : Bytes) (ok : ℕ → Bytes → ExRuleset → Prop) :
    Remembers ttl ⟨some ⟨[], fbCc⟩, env.clock 0 + seconds ttl⟩ ok (env.start cacheEntries ttl fbCc) := by
  refine ⟨rfl, rfl, ?_⟩
  intro path v hv
  simp [start] at hv

end Remembering

/-! ## The nearest rules file -/

/-- The rules of the nearest directory that has a rules file which can be read, else the fallback. -/
def nearest (fs : Bytes → Rulesfile) (fallback : Ruleset) (path : Bytes) : Ruleset :=
  match fs (cstr (rulesfileName path)) with
  | .rules _ rules => rules
  | _ => if _h : path = [] then fallback else nearest fs fallback (pathsplit path).1
termination_by path.length
decreasing_by all_goals exact pathsplit_length_lt ‹_›

variable {env}

theorem nearest_of_rules {fs : Bytes → Rulesfile} {fallback : Ruleset} {path : Bytes} {given : Option ℤ}
    {rules : Ruleset} (h : fs (cstr (rulesfileName path)) = .rules given rules) :
    nearest fs fallback path = rules := by
  rw [nearest, h]

theorem nearest_of_noRules {fs : Bytes → Rulesfile} {fallback : Ruleset} {path : Bytes}
    (h : ∀ given rules, fs (cstr (rulesfileName path)) ≠ .rules given rules) :
    nearest fs fallback path = if path = [] then fallback else nearest fs fallback (pathsplit path).1 := by
  rw [nearest]
  rcases hfs : fs (cstr (rulesfileName path)) with eno | e | ⟨given, rules⟩
  · rfl
  · rfl
  · exact absurd hfs (h given rules)

/-- With a file system that does not change, the nearest rules are right. -/
theorem sound_nearest {fs : Bytes → Rulesfile} (hfs : ∀ k name, env.rulesfile k name = fs name) (ttl : ℤ)
    (rules : Ruleset) (goodTill : TimePoint) :
    env.Sound ttl ⟨some rules, goodTill⟩ fun _ path v => v.val = some (nearest fs rules path) where
  mono _ _ _ _ h _ := h
  read n k path maxage v hread _ := by
    obtain ⟨given, found, hfile, -, rfl⟩ := hread
    rw [hfs] at hfile
    rw [nearest_of_rules hfile]
  root n k hno _ := by
    rw [nearest_of_noRules fun given found => hfs k _ ▸ hno given found, if_pos rfl]
  up n k path v hne hno _ h := by
    rw [nearest_of_noRules fun given found => hfs k _ ▸ hno given found, if_neg hne]
    exact h

/-- In any file system, what was read from a rules file above is right. -/
theorem sound_read (ttl : ℤ) (fb : ExRuleset) :
    env.Sound ttl fb fun n path v =>
      v = fb ∨ ∃ k q maxage, k + 1 < n ∧ Below path q ∧ env.ReadAt ttl k q maxage v where
  mono n m path v h hle := by
    refine h.imp id ?_
    intro ⟨k, q, maxage, hk, hq, hread⟩
    exact ⟨k, q, maxage, by omega, hq, hread⟩
  read n k path maxage v hread hk := Or.inr ⟨k, path, maxage, hk, .refl path, hread⟩
  root n k _ _ := Or.inl rfl
  up n k path v hne _ _ h := by
    refine h.imp id ?_
    intro ⟨k, q, maxage, hk, hq, hread⟩
    exact ⟨k, q, maxage, hk, .up hne hq, hread⟩

/-- With a file system that does not change, `get_cc` uses the nearest rules, whatever the cache holds. -/
theorem value_nearest (env : RuleEnv) {fs : Bytes → Rulesfile} (hfs : ∀ k name, env.rulesfile k name = fs name)
    (cacheEntries : ℕ) (ttl : ℤ) (fbCc : Bytes) (calls : List (Bytes × Bool)) (pathInfo : Bytes)
    (directory : Bool) :
    value (env.getCc pathInfo directory) (env.history (env.start cacheEntries ttl fbCc) calls)
      = env.choose pathInfo (nearest fs ⟨[], fbCc⟩ (dirOf pathInfo directory)) := by
  have hok := sound_nearest hfs ttl ⟨[], fbCc⟩ (env.clock 0 + seconds ttl)
  have hrem := (remembers_start cacheEntries ttl fbCc _).history hok rfl calls
  obtain ⟨-, v, rules, hv, hvalue, hright, -⟩ := hrem.getCc hok rfl pathInfo directory
  rw [hvalue, Option.some.inj (hv.symm.trans hright)]

/-- The rules that `get_cc` uses. With a file system that does not change they are the nearest ones. In any
case they are the fallback, or were read from a rules file above, and not longer than its
`rulesfile-maxage` before a time in the call, unless that is negative: what has just been read is used. -/
theorem getCc_agrees (env : RuleEnv) (cacheEntries : ℕ) (ttl : ℤ) (fbCc : Bytes) (calls : List (Bytes × Bool))
    (pathInfo : Bytes) (directory : Bool) :
    (∀ fs : Bytes → Rulesfile, (∀ k name, env.rulesfile k name = fs name) →
      value (env.getCc pathInfo directory) (env.history (env.start cacheEntries ttl fbCc) calls)
        = env.choose pathInfo (nearest fs ⟨[], fbCc⟩ (dirOf pathInfo directory)))
    ∧ ∃ rules,
      value (env.getCc pathInfo directory) (env.history (env.start cacheEntries ttl fbCc) calls)
        = env.choose pathInfo rules
      ∧ (rules = ⟨[], fbCc⟩ ∨ ∃ t k q given,
        (env.history (env.start cacheEntries ttl fbCc) calls).ticks ≤ t
        ∧ t < (after (env.getCc pathInfo directory)
          (env.history (env.start cacheEntries ttl fbCc) calls)).ticks
        ∧ Below (dirOf pathInfo directory) q
        ∧ env.rulesfile k (cstr (rulesfileName q)) = .rules given rules
        ∧ env.clock t - env.clock (k + 1) ≤ max 0 (seconds (given.getD ttl))) := by
  refine ⟨fun fs hfs => env.value_nearest hfs cacheEntries ttl fbCc calls pathInfo directory, ?_⟩
  have hok := env.sound_read ttl ⟨some ⟨[], fbCc⟩, env.clock 0 + seconds ttl⟩
  have hrem := (env.remembers_start cacheEntries ttl fbCc _).history hok rfl calls
  obtain ⟨-, v, rules, hv, hvalue, hright, huse⟩ := hrem.getCc hok rfl pathInfo directory
  refine ⟨rules, hvalue, ?_⟩
  rcases huse with rfl | ⟨t, hge, hlt, hgood | ⟨k, q, maxage, hq, rfl, hread⟩⟩
  · exact Or.inl (Option.some.inj hv).symm
  · rcases hright with rfl | ⟨k, q, maxage, -, hq, given, found, hfile, rfl, rfl⟩
    · exact Or.inl (Option.some.inj hv).symm
    · obtain rfl := Option.some.inj hv
      exact Or.inr ⟨t, k, q, given, hge, hlt, hq, hfile, le_max_of_le_right (sub_le_iff_le_add'.mpr hgood)⟩
  · obtain ⟨given, found, hfile, rfl, rfl⟩ := hread
    obtain rfl := Option.some.inj hv
    refine Or.inr ⟨k + 1, k, q, given, hge, hlt, hq, hfile, le_max_of_le_left ?_⟩
    rw [sub_self]

end RuleEnv

/-- A rules file everywhere, with a negative `rulesfile-maxage`. -/
def staleRules : RuleEnv where
  clock _ := 0
  rulesfile _ _ := .rules (some (-1)) ⟨[], bytes "max-age=5"⟩
  evicted _ := []
  regexMatch _ _ := .ok false
  time _ := 0

/-- Rules that are only good until before they are read are used. -/
theorem getCc_uses_expired :
    ¬ ∃ rules, RuleEnv.value (staleRules.getCc (bytes "f") false) (staleRules.start 100 60 (bytes "max-age=30"))
        = staleRules.choose (bytes "f") rules
      ∧ (rules = ⟨[], bytes "max-age=30"⟩ ∨ ∃ t k q given,
        Below (RuleEnv.dirOf (bytes "f") false) q
        ∧ staleRules.rulesfile k (cstr (RuleEnv.rulesfileName q)) = .rules given rules
        ∧ staleRules.clock t - staleRules.clock (k + 1) ≤ seconds (given.getD 60)) := by
  have hchoose : ∀ cc : Bytes, staleRules.choose (bytes "f") ⟨[], cc⟩ = .ok cc := fun _ => rfl
  have hvalue := RuleEnv.value_nearest staleRules (fun _ _ => rfl) 100 60 (bytes "max-age=30") []
    (bytes "f") false
  rw [RuleEnv.nearest_of_rules rfl, hchoose] at hvalue
  intro ⟨rules, hrules, hclaim⟩
  rcases hclaim with rfl | ⟨t, k, q, given, -, hfile, hage⟩
  · rw [hchoose] at hrules
    exact absurd (Except.ok.inj (hvalue.symm.trans hrules)) (by decide)
  · obtain ⟨rfl, -⟩ := Rulesfile.rules.inj hfile
    exact absurd (show (0 : ℤ) - 0 ≤ seconds (-1) from hage) (by decide)

end Fs123
