import Fs123.Exportd.CcRulesCache

/-!
# The cache of directories without rules

When there are no rules anywhere above a directory, the cache gets the fallback for it. The entry stays as
long as it is not evicted and nothing looks at it after it has expired (`KeepsEntry`), and while it is there
and good no file is opened. But the fallback expires for all directories at the same time, a `default_ttl`
after the start of the server.
-/

namespace Fs123

open Cxx

namespace RuleEnv

variable {env : RuleEnv} {dir : Bytes} {v : ExRuleset} {s s' s'' : RuleState}

/-- The ticks from `a` on and before `b` do not evict the entry of a directory. -/
def NotEvicted (env : RuleEnv) (dir : Bytes) (a b : ℕ) : Prop := ∀ k, a ≤ k → k < b → dir ∉ env.evicted k

/-- At the ticks from `a` on and before `b` the clock shows at most `goodTill`. -/
def Early (env : RuleEnv) (goodTill : TimePoint) (a b : ℕ) : Prop :=
  ∀ k, a ≤ k → k < b → env.clock k ≤ goodTill

/-- From `s` to `s'` the entry `v` of a directory stays, unless it is evicted or expires. -/
structure KeepsEntry (env : RuleEnv) (dir : Bytes) (v : ExRuleset) (s s' : RuleState) : Prop where
  ticks_le : s.ticks ≤ s'.ticks
  maxSize_eq : s'.cache.excache.maxSize = s.cache.excache.maxSize
  entry : env.NotEvicted dir s.ticks s'.ticks → env.Early v.goodTill s.ticks s'.ticks →
    s.cache.excache.themap dir = some v → s'.cache.excache.themap dir = some v

theorem NotEvicted.sub {a b a' b' : ℕ} (h : env.NotEvicted dir a b) (ha : a ≤ a') (hb : b' ≤ b) :
    env.NotEvicted dir a' b' :=
  fun k hk hk' => h k (ha.trans hk) (hk'.trans_le hb)

theorem Early.sub {g : TimePoint} {a b a' b' : ℕ} (h : env.Early g a b) (ha : a ≤ a') (hb : b' ≤ b) :
    env.Early g a' b' :=
  fun k hk hk' => h k (ha.trans hk) (hk'.trans_le hb)

theorem KeepsEntry.of_eq (hticks : s.ticks ≤ s'.ticks) (hcache : s'.cache.excache = s.cache.excache) :
    env.KeepsEntry dir v s s' :=
  ⟨hticks, by rw [hcache], fun _ _ h => by rw [hcache, h]⟩

theorem KeepsEntry.trans (h : env.KeepsEntry dir v s s') (h' : env.KeepsEntry dir v s' s'') :
    env.KeepsEntry dir v s s'' := by
  refine ⟨h.ticks_le.trans h'.ticks_le, h'.maxSize_eq.trans h.maxSize_eq, ?_⟩
  intro hev hearly hv
  exact h'.entry (hev.sub h.ticks_le le_rfl) (hearly.sub h.ticks_le le_rfl)
    (h.entry (hev.sub le_rfl h'.ticks_le) (hearly.sub le_rfl h'.ticks_le) hv)

theorem lookup_maxSize (c : Expiring.Cache Bytes (Option Ruleset)) (path : Bytes) (asifnow : TimePoint) :
    (c.lookup path asifnow).2.maxSize = c.maxSize := by
  unfold Expiring.Cache.lookup
  split
  · rfl
  · split <;> rfl

theorem keepsEntry_lookup (path : Bytes) :
    Leads (env.lookup path) s (fun _ s' => env.KeepsEntry dir v s s') fun _ => False := by
  refine ⟨Nat.le_succ _, lookup_maxSize _ _ _, ?_⟩
  intro _ hearly hv
  have hnow : v.expired (env.clock s.ticks) = false := by
    simpa [Expiring.expired] using hearly s.ticks le_rfl (Nat.lt_succ_self _)
  change (s.cache.excache.lookup path (env.clock s.ticks)).2.themap dir = some v
  unfold Expiring.Cache.lookup
  split
  · exact hv
  · next w hw =>
    split
    · next hexp =>
      have hne : dir ≠ path := by
        rintro rfl
        obtain rfl := Option.some.inj (hv.symm.trans hw)
        rw [hnow] at hexp
        exact absurd hexp (by decide)
      simpa [Expiring.Cache.erase, hne] using hv
    · exact hv

/-- Neither the check of an entry nor the reading of a rules file changes the cache. -/
theorem cache_live (w : ExRuleset) :
    Leads (env.live w) s (fun _ s' => s'.cache = s.cache ∧ s.ticks ≤ s'.ticks) fun _ => False := by
  unfold live
  cases w.val with
  | none => exact ⟨rfl, le_rfl⟩
  | some rules => exact ⟨rfl, Nat.le_succ _⟩

theorem cache_readCcRulesfile (relpath : Bytes) :
    Leads (tryCatch (env.readCcRulesfile relpath) fun _ => pure default) s
      (fun _ s' => s'.cache = s.cache ∧ s.ticks ≤ s'.ticks) fun _ => False := by
  refine Leads.tryCatch (E := fun s' => s'.cache = s.cache ∧ s.ticks ≤ s'.ticks) ?_ fun _ s' h => Leads.pure h
  unfold readCcRulesfile
  refine Leads.bind (P := fun _ (s' : RuleState) => s'.cache = s.cache ∧ s.ticks ≤ s'.ticks)
    ⟨rfl, Nat.le_succ _⟩ fun file s' h => ?_
  split
  · exact Leads.ite (fun _ => h) fun _ => h
  · exact h
  · exact ⟨h.1, Nat.le_succ_of_le h.2⟩

/-- What an insertion does to the entry of a directory. -/
theorem insert_themap (c : Expiring.Cache Bytes (Option Ruleset)) (path : Bytes) (w : ExRuleset)
    {evicted : List Bytes} (hev : dir ∉ evicted) :
    (c.insert path w evicted).themap dir
      = if c.maxSize ≠ 0 ∧ dir = path ∧ c.themap dir = none then some w else c.themap dir := by
  unfold Expiring.Cache.insert
  by_cases hsize : c.maxSize = 0
  · simp [hsize]
  · rw [if_neg hsize]
    by_cases hdir : dir = path
    · subst hdir
      rcases hmap : c.themap dir with _ | x <;> simp [Expiring.Cache.evict, hev, hsize, hmap]
    · split <;> simp [Expiring.Cache.evict, hev, hdir]

theorem insert_themap_other (c : Expiring.Cache Bytes (Option Ruleset)) (path : Bytes) (w : ExRuleset)
    (evicted : List Bytes) (hne : dir ≠ path) (hnone : c.themap dir = none) :
    (c.insert path w evicted).themap dir = none := by
  unfold Expiring.Cache.insert
  split
  · exact hnone
  · split <;> simp [Expiring.Cache.evict, hne, hnone]

theorem insert_maxSize (c : Expiring.Cache Bytes (Option Ruleset)) (path : Bytes) (w : ExRuleset)
    (evicted : List Bytes) : (c.insert path w evicted).maxSize = c.maxSize := by
  unfold Expiring.Cache.insert
  split
  · rfl
  · split <;> rfl

theorem keepsEntry_insert (path : Bytes) (w : ExRuleset) :
    Leads (env.insert path w) s (fun _ s' => env.KeepsEntry dir v s s') fun _ => False := by
  refine ⟨Nat.le_succ _, insert_maxSize _ _ _ _, ?_⟩
  intro hev _ hv
  have hkeep := insert_themap s.cache.excache path w (hev s.ticks le_rfl (Nat.lt_succ_self _))
  rw [if_neg (by simp [hv]), hv] at hkeep
  exact hkeep

/-- The states around an action are related. -/
abbrev Steps (R : RuleState → RuleState → Prop) {α : Type} (x : RuleM α) (s : RuleState) : Prop :=
  Leads x s (fun _ s' => R s s') fun _ => False

/-- What the parts of `get_cc_rules_recursive` keep, it keeps. -/
theorem steps_rules {R : RuleState → RuleState → Prop} (hrefl : ∀ s, R s s)
    (htrans : ∀ s t u, R s t → R t u → R s u) {path : Bytes}
    (hlookup : ∀ q, Below path q → ∀ s, Steps R (env.lookup q) s)
    (hlive : ∀ w s, Steps R (env.live w) s)
    (hread : ∀ name s, Steps R (tryCatch (env.readCcRulesfile name) fun _ => pure default) s)
    (hinsert : ∀ q, Below path q → ∀ w s, Steps R (env.insert q w) s) (s : RuleState) :
    Steps R (env.getCcRulesRecursive path) s := by
  have hbind : ∀ {α β : Type} {x : RuleM α} {f : α → RuleM β} {s : RuleState}, Steps R x s →
      (∀ a s', Steps R (f a) s') → Steps R (x >>= f) s :=
    fun hx hf => Leads.bind hx fun a s' h => (hf a s').mono (fun _ _ h' => htrans _ _ _ h h') fun _ h' => h'
  induction hn : path.length using Nat.strong_induction_on generalizing path s with
  | _ n ih =>
    rw [getCcRulesRecursive]
    refine hbind (hlookup path (.refl path) s) fun tentative s₁ => ?_
    refine hbind (hlive tentative s₁) fun b s₂ => ?_
    refine Leads.ite (fun _ => hrefl _) fun _ => ?_
    refine hbind (hread _ s₂) fun ret s₃ => ?_
    have hlast : ∀ (w : ExRuleset) (s : RuleState), Steps R (do env.insert path w; pure w) s :=
      fun w s => hbind (hinsert path (.refl path) w s) fun _ _ => hrefl _
    refine Leads.ite (fun _ => hlast ret s₃) fun _ => ?_
    refine hbind ?_ hlast
    split
    · exact hrefl _
    · next hne =>
      refine ih _ (by rw [← hn]; exact pathsplit_length_lt hne) ?_ ?_ s₃ rfl
      · exact fun q hq => hlookup q (.up hne hq)
      · exact fun q hq => hinsert q (.up hne hq)

/-- The entry of a directory stays. -/
theorem keepsEntry_rules (dir : Bytes) (v : ExRuleset) (path : Bytes) (s : RuleState) :
    Steps (env.KeepsEntry dir v) (env.getCcRulesRecursive path) s :=
  steps_rules (fun _ => KeepsEntry.of_eq le_rfl rfl) (fun _ _ _ => KeepsEntry.trans)
    (fun q _ _ => keepsEntry_lookup q)
    (fun w _ => (cache_live w).mono (fun _ _ h => KeepsEntry.of_eq h.2 (by rw [h.1])) fun _ h => h)
    (fun name _ => (cache_readCcRulesfile name).mono
      (fun _ _ h => KeepsEntry.of_eq h.2 (by rw [h.1])) fun _ h => h)
    (fun q _ w _ => keepsEntry_insert q w) s

theorem keepsEntry_getCc (dir : Bytes) (v : ExRuleset) (c : Bytes × Bool) (s : RuleState) :
    env.KeepsEntry dir v s (after (env.getCc c.1 c.2) s) := by
  have hleads : Leads (env.getCc c.1 c.2) s (fun _ s' => env.KeepsEntry dir v s s')
      fun s' => env.KeepsEntry dir v s s' := by
    have hrules : Leads (env.getCcRulesRecursive (if c.2 then c.1 else (pathsplit c.1).1)) s
        (fun _ s' => env.KeepsEntry dir v s s') fun s' => env.KeepsEntry dir v s s' :=
      (keepsEntry_rules dir v _ s).mono (fun _ _ h => h) fun _ h => h.elim
    unfold getCc
    refine Leads.bind hrules fun rules s' h => ?_
    split
    · exact h
    · split
      · exact h
      · exact h
      · exact h
  unfold Leads at hleads
  unfold after
  cases hrun : env.getCc c.1 c.2 s <;> rwa [hrun] at hleads

theorem keepsEntry_history (env : RuleEnv) (dir : Bytes) (v : ExRuleset) (calls : List (Bytes × Bool)) (s : RuleState) :
    env.KeepsEntry dir v s (env.history s calls) := by
  induction calls generalizing s with
  | nil => exact KeepsEntry.of_eq le_rfl rfl
  | cons c calls ih => exact (keepsEntry_getCc dir v c s).trans (ih _)

theorem length_le_of_below {p q : Bytes} (h : Below p q) : q.length ≤ p.length := by
  obtain ⟨b, rfl, -⟩ := h.split
  rw [List.length_append]
  omega

/-- What is looked up above a directory does not put an entry for the directory there. -/
theorem vacant_rules {path : Bytes} (hlt : path.length < dir.length) (s : RuleState) :
    Steps (fun s s' => s.cache.excache.themap dir = none → s'.cache.excache.themap dir = none)
      (env.getCcRulesRecursive path) s := by
  have hbelow : ∀ q, Below path q → dir ≠ q := by
    rintro q hq rfl
    have := length_le_of_below hq
    omega
  refine steps_rules (fun _ h => h) (fun _ _ _ h h' hs => h' (h hs)) (fun q _ s => ?_)
    (fun w s => (cache_live w).mono (fun _ _ h hs => by rw [h.1, hs]) fun _ h => h)
    (fun name s => (cache_readCcRulesfile name).mono (fun _ _ h hs => by rw [h.1, hs]) fun _ h => h)
    (fun q hq w s => ?_) s
  · intro hs
    by_contra hne
    obtain ⟨w, hw⟩ := Option.ne_none_iff_exists'.mp hne
    rw [(lookup_spec _ _ _).1 dir w hw] at hs
    exact absurd hs (by simp)
  · intro hs
    change (s.cache.excache.insert q w (env.evicted s.ticks)).themap dir = none
    exact insert_themap_other _ _ _ _ (hbelow q hq) hs

/-- The lookup of a directory and the check after it agree on an entry that is there. -/
def Agree (env : RuleEnv) (dir : Bytes) (s : RuleState) : Prop :=
  ∀ v, s.cache.excache.themap dir = some v →
    v.expired (env.clock s.ticks) = true ∨ v.expired (env.clock (s.ticks + 1)) = false

/-- The lookup of a directory finds an entry that is still good, or leaves none. -/
theorem leads_lookup_entry (hsome : ∀ v, s.cache.excache.themap dir = some v → v.val.isSome)
    (hagree : env.Agree dir s) (hsize : s.cache.excache.maxSize ≠ 0) :
    Leads (env.lookup dir) s (fun tentative s' => s'.ticks = s.ticks + 1
      ∧ s'.cache.excache.maxSize ≠ 0
      ∧ ((tentative.val = none ∧ s'.cache.excache.themap dir = none)
        ∨ (tentative.val.isSome ∧ tentative.expired (env.clock (s.ticks + 1)) = false
          ∧ s'.cache.excache.themap dir = some tentative))) fun _ => False := by
  refine ⟨rfl, (lookup_maxSize s.cache.excache dir (env.clock s.ticks)).trans_ne hsize, ?_⟩
  change ((s.cache.excache.lookup dir (env.clock s.ticks)).1.val = none
      ∧ (s.cache.excache.lookup dir (env.clock s.ticks)).2.themap dir = none) ∨ _ ∧ _
      ∧ (s.cache.excache.lookup dir (env.clock s.ticks)).2.themap dir = some _
  unfold Expiring.Cache.lookup
  rcases hmap : s.cache.excache.themap dir with _ | v
  · exact Or.inl ⟨rfl, hmap⟩
  · have hexp := hagree v hmap
    dsimp only
    split
    · exact Or.inl ⟨rfl, by simp [Expiring.Cache.erase]⟩
    · next hnow => exact Or.inr ⟨hsome v hmap, hexp.resolve_left hnow, hmap⟩

/-- What `get_cc_rules_recursive` returns is in the cache afterwards, unless it has been evicted. -/
theorem entry_rules (hsome : ∀ v, s.cache.excache.themap dir = some v → v.val.isSome)
    (hagree : env.Agree dir s) (hsize : s.cache.excache.maxSize ≠ 0) :
    Leads (env.getCcRulesRecursive dir) s (fun v s' => env.NotEvicted dir s.ticks s'.ticks →
      s'.cache.excache.themap dir = some v) fun _ => False := by
  rw [getCcRulesRecursive.eq_def]
  refine Leads.bind (leads_lookup_entry hsome hagree hsize) fun tentative s₁ ⟨hticks₁, hsize₁, htent⟩ => ?_
  refine Leads.bind ((leads_live env tentative).and (cache_live tentative))
    fun b s₂ ⟨⟨_, hb⟩, hcache₂, hticks₂⟩ => ?_
  rw [hticks₁] at hb
  refine Leads.ite (fun htrue _ => ?_) fun hfalse => ?_
  · -- an entry that is there and good
    obtain ⟨hnone, -⟩ | ⟨-, -, hmap⟩ := htent
    · rw [hnone] at hb
      exact absurd (hb.mp htrue).1 (by decide)
    · rw [hcache₂, hmap]
  · have hvacant : s₁.cache.excache.themap dir = none := by
      obtain ⟨-, hmap⟩ | ⟨hsome, hexp, -⟩ := htent
      · exact hmap
      · exact absurd (hb.mpr ⟨hsome, hexp⟩) hfalse
    -- whatever is found is inserted
    have hinsert : ∀ (w : ExRuleset) (t : RuleState), s.ticks ≤ t.ticks → t.cache.excache.maxSize ≠ 0 →
        t.cache.excache.themap dir = none →
        Leads (do env.insert dir w; pure w) t (fun v s' => env.NotEvicted dir s.ticks s'.ticks →
          s'.cache.excache.themap dir = some v) fun _ => False := by
      intro w t hticks hsize hnone hev
      have hins := insert_themap t.cache.excache dir w (hev t.ticks hticks (Nat.lt_succ_self _))
      rwa [if_pos ⟨hsize, rfl, hnone⟩] at hins
    refine Leads.bind (cache_readCcRulesfile _) fun ret s₃ ⟨hcache₃, hticks₃⟩ => ?_
    refine Leads.ite (fun _ => ?_) fun _ => ?_
    · exact hinsert ret s₃ (by omega) (by rwa [hcache₃, hcache₂]) (by rwa [hcache₃, hcache₂])
    · have hup : Leads (if _h : dir = [] then fallback else env.getCcRulesRecursive (pathsplit dir).1) s₃
          (fun _ s' => s₃.ticks ≤ s'.ticks ∧ s'.cache.excache.maxSize = s₃.cache.excache.maxSize
            ∧ (s₃.cache.excache.themap dir = none → s'.cache.excache.themap dir = none)) fun _ => False := by
        split
        · exact ⟨le_rfl, rfl, fun h => h⟩
        · next hne =>
          refine ((keepsEntry_rules dir default _ s₃).and
            (vacant_rules (pathsplit_length_lt hne) s₃)).mono ?_ fun _ h => h
          intro _ s' ⟨hkeep, hnone⟩
          exact ⟨hkeep.ticks_le, hkeep.maxSize_eq, hnone⟩
      refine Leads.bind hup fun w s₄ ⟨hticks₄, hsize₄, hnone₄⟩ => ?_
      exact hinsert w s₄ (by omega) (by rwa [hsize₄, hcache₃, hcache₂])
        (hnone₄ (by rwa [hcache₃, hcache₂]))

/-- Rules that are in the cache are used without opening a file, exactly if neither reading of the clock is
later than they expire. -/
theorem opens_nothing_iff {pathInfo : Bytes} {directory : Bool} (hv : v.val.isSome)
    (hmap : s.cache.excache.themap (dirOf pathInfo directory) = some v) :
    newlyOpened (env.getCc pathInfo directory) s = []
      ↔ env.clock s.ticks ≤ v.goodTill ∧ env.clock (s.ticks + 1) ≤ v.goodTill := by
  obtain ⟨-, hlive, hmiss⟩ := (env.leads_getCc pathInfo directory).newlyOpened (s := s)
  have hiff : env.Live s (dirOf pathInfo directory)
      ↔ env.clock s.ticks ≤ v.goodTill ∧ env.clock (s.ticks + 1) ≤ v.goodTill := by
    unfold Live
    simp [hmap, hv, Expiring.expired]
  rw [← hiff]
  constructor
  · intro hnil
    by_contra hno
    have hmem := hmiss hno
    rw [hnil] at hmem
    exact absurd hmem (by simp)
  · exact hlive

/-- After a call that has found no rules above a directory, and as long as no call has read the clock later
than a `default_ttl` after the start, the next call for the directory opens no file exactly if it does not do
so either. The entry has to stay in the cache, and not to take the place of one that has just expired. -/
theorem absent_rules_iff (env : RuleEnv) (cacheEntries : ℕ) (ttl : ℤ) (fbCc : Bytes)
    (calls more : List (Bytes × Bool)) {pathInfo pathInfo' : Bytes} {directory directory' : Bool}
    (hdir : dirOf pathInfo' directory' = dirOf pathInfo directory) :
    let s₁ := env.history (env.start cacheEntries ttl fbCc) calls
    let s₂ := env.history s₁ [(pathInfo, directory)]
    let s₃ := env.history s₂ more
    value (env.getCcRulesRecursive (dirOf pathInfo directory)) s₁ = .ok s₁.cache.fallbackCc →
    cacheEntries ≠ 0 → env.NotEvicted (dirOf pathInfo directory) s₁.ticks s₃.ticks →
    env.Agree (dirOf pathInfo directory) s₁ →
    env.Early (env.clock 0 + seconds ttl) s₂.ticks s₃.ticks →
    (newlyOpened (env.getCc pathInfo' directory') s₃ = []
      ↔ env.clock s₃.ticks ≤ env.clock 0 + seconds ttl
        ∧ env.clock (s₃.ticks + 1) ≤ env.clock 0 + seconds ttl) := by
  intro s₁ s₂ s₃ hnone hsize hev hagree hearly
  obtain ⟨fb, hfb⟩ : ∃ fb : ExRuleset, fb = ⟨some ⟨[], fbCc⟩, env.clock 0 + seconds ttl⟩ := ⟨_, rfl⟩
  have hok : env.Sound ttl fb fun _ _ _ => True :=
    ⟨fun _ _ _ _ _ _ => trivial, fun _ _ _ _ _ _ _ => trivial, fun _ _ _ _ => trivial,
      fun _ _ _ _ _ _ _ _ => trivial⟩
  have hrem : Remembers ttl fb (fun _ _ _ => True) s₁ := by
    rw [hfb]
    exact (env.remembers_start cacheEntries ttl fbCc _).history (hfb ▸ hok) rfl calls
  have hsize₁ : s₁.cache.excache.maxSize ≠ 0 :=
    (keepsEntry_history env [] fb calls _).maxSize_eq.trans_ne hsize
  obtain ⟨s', hrun⟩ : ∃ s', env.getCcRulesRecursive (dirOf pathInfo directory) s₁ = .ok fb s' := by
    rw [← hrem.fallback_eq]
    unfold value at hnone
    cases hrun : env.getCcRulesRecursive (dirOf pathInfo directory) s₁ with
    | ok v s' =>
      rw [hrun] at hnone
      exact ⟨s', by rw [Except.ok.inj hnone]⟩
    | error e s' =>
      rw [hrun] at hnone
      simp at hnone
  obtain rfl : s₂ = s' := (getCc_eq hrun (show fb.val = some ⟨[], fbCc⟩ by rw [hfb])).2
  have hkeep := keepsEntry_history env (dirOf pathInfo directory) fb more s₂
  have hentry := (entry_rules (fun v hv => (hrem.entries _ v hv).1) hagree hsize₁).eq_ok hrun
    (hev.sub le_rfl hkeep.ticks_le)
  have hticks := (keepsEntry_rules [] fb (dirOf pathInfo directory) s₁).eq_ok hrun
  have hlast := hkeep.entry (hev.sub hticks.ticks_le le_rfl) (by rwa [hfb]) hentry
  rw [← hdir] at hlast
  rw [opens_nothing_iff (by rw [hfb]; rfl) hlast, hfb]

/-- Two calls in a row on a server that has just been started. -/
theorem absent_rules_new :
    newlyOpened (noRules.getCc (bytes "g") false) (noRules.history (noRules.history (noRules.history
      (noRules.start 100 60 (bytes "max-age=30")) []) [(bytes "f", false)]) []) = [] := by
  have hroot : dirOf (bytes "f") false = [] := by decide
  refine (noRules.absent_rules_iff 100 60 (bytes "max-age=30") [] [] (by decide) ?_ (by decide) ?_ ?_ ?_).mpr
    ⟨by decide, by decide⟩
  · rw [hroot, value, getCcRulesRecursive]
    rfl
  · exact fun _ _ _ => by simp [noRules]
  · exact fun v hv => by simp [history, start] at hv
  · exact fun _ _ _ => show (0 : ℤ) ≤ 0 + seconds 60 by decide

/-- A world without rules files, 100 seconds after the server has been started. -/
def lateRules : RuleEnv := { noRules with clock := fun k => if k = 0 then 0 else seconds 100 }

/-- The second of two calls at the same time opens a file again. -/
theorem absent_rules_opened_again :
    value (lateRules.getCcRulesRecursive (dirOf (bytes "f") false)) (lateRules.start 100 60 (bytes "max-age=30"))
        = .ok (lateRules.start 100 60 (bytes "max-age=30")).cache.fallbackCc
      ∧ (∀ k, lateRules.evicted k = []) ∧ (∀ k, 0 < k → lateRules.clock k = seconds 100)
      ∧ newlyOpened (lateRules.getCc (bytes "g") false) (lateRules.history
        (lateRules.start 100 60 (bytes "max-age=30")) [(bytes "f", false)]) ≠ [] := by
  refine ⟨?_, fun _ => rfl, fun k hk => if_neg (by omega), ?_⟩
  · rw [show dirOf (bytes "f") false = [] by decide, value, getCcRulesRecursive]
    rfl
  · -- all that the cache can have is the fallback, which has expired
    have hok : lateRules.Sound 60 ⟨some ⟨[], bytes "max-age=30"⟩, 0 + seconds 60⟩ fun _ _ v =>
        v = ⟨some ⟨[], bytes "max-age=30"⟩, 0 + seconds 60⟩ := by
      refine ⟨fun _ _ _ _ h _ => h, ?_, fun _ _ _ _ => rfl, fun _ _ _ _ _ _ _ h => h⟩
      intro n k path maxage v hread
      obtain ⟨given, rules, hfile, -⟩ := hread
      exact absurd hfile (by simp [lateRules, noRules])
    have hrem := (lateRules.remembers_start 100 60 (bytes "max-age=30") _).history hok rfl [(bytes "f", false)]
    have hticks := (keepsEntry_history lateRules [] default [(bytes "f", false)]
      (lateRules.start 100 60 (bytes "max-age=30"))).ticks_le
    obtain ⟨-, -, hmiss⟩ := (lateRules.leads_getCc (bytes "g") false).newlyOpened
      (s := lateRules.history (lateRules.start 100 60 (bytes "max-age=30")) [(bytes "f", false)])
    refine List.ne_nil_of_mem (hmiss ?_)
    rintro ⟨v, hv, -, hexp, -⟩
    obtain rfl := (hrem.entries _ v hv).2
    have hclock : lateRules.clock (lateRules.history (lateRules.start 100 60 (bytes "max-age=30"))
        [(bytes "f", false)]).ticks = seconds 100 := if_neg (Nat.one_le_iff_ne_zero.mp hticks)
    rw [Expiring.expired, hclock] at hexp
    exact absurd hexp (by decide)

end RuleEnv

end Fs123
