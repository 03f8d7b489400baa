import Fs123.Client.CacheImage
import Fs123.Client.ReplyTimes

/-!
# What the disk cache serves

The model of `diskcache::refresh` and `diskcache::upstream_refresh`. The reply that is found on disk is served
at once, served while it is refreshed in the background, or replaced by one from upstream; when that fails it
may be served after all. `Admissible` lists what may be served. The first two branches do not look at `valid()`,
and the last one does not ask what it was that failed: `refresh_admissible_iff` says when this matters.
-/

namespace Fs123

open Cxx

/-- What a call finds on its own machine. -/
structure DiskState where
  /-- What the path of the request leads to. -/
  file : Option CacheFile
  now : ℤ
  disconnected : Bool
  /-- `maybe_bg_upstream_refresh`, which may fail to submit its work. -/
  background : Res Unit
  /-- `do_serialize`, which submits its work or does it. -/
  stored : Reply123 → Res Unit
  /-- What the path leads to after an exception, and the clock then. -/
  laterFile : Option CacheFile
  later : ℤ

/-- The surroundings of one call. -/
structure RefreshEnv (σ : Type) extends DiskState where
  /-- `upstream_->refresh(req, r)`: the reply that it leaves, its result, and where it has the reply from. -/
  upstream : BackendReq → Reply123 → Res (Reply123 × Bool × σ)

/-- Where a reply comes from: the disk, or an answer of upstream, which is a new reply or confirms the one from
disk. -/
inductive Provenance (σ : Type) where
  | disk
  | upstream (modified : Bool) (source : σ)

/-- What a call leaves, and the last clock reading before. -/
structure Served (σ : Type) where
  reply : Reply123
  provenance : Provenance σ
  reading : ℤ

namespace RefreshEnv

variable {σ : Type} (env : RefreshEnv σ) (req : BackendReq)

/-- `upstream_refresh(req, path, r, false, usable_if_error)`. -/
def upstreamRefresh (r : Reply123) (usableIfError : Bool) : Res (Served σ) :=
  if env.disconnected ∧ usableIfError then .ok ⟨r, .disk, env.now⟩
  else do
    let (r, modified, source) ← env.upstream req r
    if ¬ modified ∧ req.options.noCache then
      throwEinval (bytes "diskcache:: upstream_->refresh returned false, interpreted as 304 Not Modified, "
        ++ bytes "but the request is no-cache.  That shouldn't happen.  Find this error message in the code "
        ++ bytes "and FIX THE UNDERLYING PROBLEM!")
    else do
      env.stored r
      .ok ⟨r, .upstream modified source, env.now⟩

/-- The end of the inner `catch`. The text goes on with the staleness. -/
def rethrow {α : Type} (e : Exn) : Res α :=
  .error (.throws (e.nest .runtimeError (bytes "diskcache::refresh: upstream threw and cached result is ")))

/-- The inner `catch`. -/
def fallback (usableIfError : Bool) (e : Exn) : Option (Res (Served σ)) :=
  if usableIfError then
    match deserialize env.laterFile with
    | .error fault => some (.error fault)
    | .ok (r, _) => do
      let ttl ← clock (r.expires - env.later)
      let usable ← r.usableIfError req.options ttl
      if usable then some (.ok ⟨r, .disk, env.later⟩) else some (rethrow e)
  else some (rethrow e)

/-- What `refresh` does with the reply that is on disk. There is no result when the clock arithmetic
overflows. -/
def serve (r : Reply123) : Option (Res (Served σ)) :=
  match r.freshness req.options env.now with
  | none => none
  | some .hit => some (.ok ⟨r, .disk, env.now⟩)
  | some .stale => some (env.background.map fun _ => ⟨r, .disk, env.now⟩)
  | some (.miss usableIfError) =>
    match env.upstreamRefresh req r usableIfError with
    | .ok served => some (.ok served)
    | .error .oob => some (.error .oob)
    | .error (.throws e) => env.fallback req usableIfError e

/-- The `try` block of `refresh`. -/
def refreshBody : Option (Res (Served σ)) :=
  match deserialize env.file with
  | .error fault => some (.error fault)
  | .ok (r, _) => env.serve req r

/-- `refresh(req, r)`. -/
def refresh : Option (Res (Served σ)) :=
  (env.refreshBody req).map fun res => catchE res fun e =>
    .error (.throws (e.nest .runtimeError (bytes "diskcache::refresh(req.urlstem=" ++ req.urlstem ++ bytes ")")))

end RefreshEnv

/-! ## The decision -/

namespace Reply123

variable {r : Reply123} {req : StaleOptions} {now v : ℤ}

/-- The staleness is within what the server and the client allow, and within `max_stale`. -/
structure WithinStale (r : Reply123) (req : StaleOptions) (t : ℤ) : Prop where
  allowed : t - r.expires ≤ r.staleWhileRevalidate + req.pastStaleWhileRevalidate.toInt * second
  maxStale : ∀ maxStale, req.maxStale = some maxStale → t - r.expires ≤ maxStale.toInt * second

/-- What may be served without asking upstream. -/
def Servable (r : Reply123) (req : StaleOptions) (t : ℤ) : Prop :=
  req.noCache = false ∧ (t < r.expires ∨ r.WithinStale req t)

theorem netSwr_le (h : r.netSwr req = some v) :
    v ≤ r.staleWhileRevalidate + req.pastStaleWhileRevalidate.toInt * second
      ∧ ∀ maxStale, req.maxStale = some maxStale → v ≤ maxStale.toInt * second := by
  unfold netSwr at h
  rw [ticks_int32] at h
  simp only [Option.bind_eq_bind, Option.bind_some] at h
  obtain ⟨swr, hswr, h⟩ := Option.bind_eq_some_iff.mp h
  obtain ⟨rfl, -⟩ := clock_eq_some_iff.mp hswr
  cases hmax : req.maxStale with
  | none =>
    rw [hmax] at h
    refine ⟨(Option.some.inj h).ge, ?_⟩
    intro maxStale hsome
    simp at hsome
  | some maxStale =>
    rw [hmax] at h
    dsimp only at h
    rw [ticks_int32, Option.bind_some] at h
    have hv := Option.some.inj h
    split at hv
    · refine ⟨by omega, ?_⟩
      rintro _ ⟨⟩
      exact hv.ge
    · refine ⟨hv.ge, ?_⟩
      rintro _ ⟨⟩
      omega

theorem usableIfError_eq_true {ttl : ℤ} (h : r.usableIfError req ttl = some true) :
    r.valid = true ∧ -ttl ≤ req.staleIfError.toInt * second := by
  unfold usableIfError at h
  split at h
  · next hvalid =>
    rw [ticks_int32] at h
    simp only [Option.bind_eq_bind, Option.bind_some] at h
    obtain ⟨staleness, hclock, h⟩ := Option.bind_eq_some_iff.mp h
    obtain ⟨rfl, -⟩ := clock_eq_some_iff.mp hclock
    exact ⟨hvalid, of_decide_eq_true (Option.some.inj h)⟩
  · simp at h

/-- What each decision says about the reply. -/
theorem freshness_cases {f : Freshness} (h : r.freshness req now = some f) :
    (f = .hit ∧ req.noCache = false ∧ now < r.expires)
      ∨ (f = .stale ∧ req.noCache = false ∧ r.expires ≤ now ∧ r.WithinStale req now)
      ∨ ∃ usable, f = .miss usable ∧
        (usable = true → r.valid = true ∧ now - r.expires ≤ req.staleIfError.toInt * second) := by
  unfold freshness at h
  simp only [Option.bind_eq_bind] at h
  obtain ⟨swr, hswr, h⟩ := Option.bind_eq_some_iff.mp h
  obtain ⟨ttl, httl, h⟩ := Option.bind_eq_some_iff.mp h
  obtain ⟨rfl, -⟩ := clock_eq_some_iff.mp httl
  have hmiss : ∀ {f}, ((r.usableIfError req (r.expires - now)).bind fun usable => pure (Freshness.miss usable))
      = some f → ∃ usable, f = .miss usable ∧
        (usable = true → r.valid = true ∧ now - r.expires ≤ req.staleIfError.toInt * second) := by
    intro f hf
    obtain ⟨usable, husable, hf⟩ := Option.bind_eq_some_iff.mp hf
    refine ⟨usable, (Option.some.inj hf).symm, ?_⟩
    rintro rfl
    obtain ⟨hvalid, hle⟩ := usableIfError_eq_true husable
    exact ⟨hvalid, by omega⟩
  split at h
  · exact Or.inr (Or.inr (hmiss h))
  next hno =>
  rw [Bool.not_eq_true] at hno
  split at h
  · next hpos => exact Or.inl ⟨(Option.some.inj h).symm, hno, by omega⟩
  obtain ⟨minusSwr, hminus, h⟩ := Option.bind_eq_some_iff.mp h
  obtain ⟨rfl, -⟩ := clock_eq_some_iff.mp hminus
  split at h
  · next hlt =>
    obtain ⟨hle, hmax⟩ := netSwr_le hswr
    refine Or.inr (Or.inl ⟨(Option.some.inj h).symm, hno, by omega, by omega, ?_⟩)
    intro maxStale hsome
    have := hmax maxStale hsome
    omega
  · exact Or.inr (Or.inr (hmiss h))

end Reply123

/-! ## What may be served -/

/-- The reply that a file is read to. -/
def cachedReply (file : Option CacheFile) : Reply123 :=
  match deserialize file with
  | .ok (r, _) => r
  | .error _ => .miss

theorem deserialize_eq (file : Option CacheFile) :
    ∃ renamed, deserialize file = .ok (cachedReply file, renamed) := by
  obtain ⟨ret, renamed, hret, -⟩ := robust file
  refine ⟨renamed, ?_⟩
  rw [cachedReply, hret]

theorem cachedReply_image {r : Reply123} {url : Bytes} (h : r.Held)
    (hhash : hexdigest r.content = r.contentThreeroe) (hurl : url.length < 2 ^ 31)
    (hmax : r.content.length + url.length + 108 ≤ maxTransfer) :
    cachedReply (some ⟨true, r.image url⟩) = r := by
  unfold cachedReply deserialize
  rw [deserializeNoUnlink_image h hhash hurl hmax]
  rfl

/-- What a call may leave: a valid reply that upstream has answered with, or one that may be served at once, or
one that is served because upstream failed. -/
structure Admissible {σ : Type} (env : RefreshEnv σ) (req : BackendReq) (served : Served σ) : Prop where
  valid : served.reply.valid = true
  reason : (∃ modified source, served.provenance = .upstream modified source
      ∧ env.upstream req (cachedReply env.file) = .ok (served.reply, modified, source))
    ∨ served.reply.Servable req.options served.reading
    ∨ ((env.disconnected = true ∨ Throws (env.upstream req (cachedReply env.file)))
      ∧ served.reading - served.reply.expires ≤ req.options.staleIfError.toInt * second)

namespace RefreshEnv

variable {σ : Type} {env : RefreshEnv σ} {req : BackendReq} {usable modified : Bool} {served : Served σ}

/-- The reply that is read again after an exception is served. -/
def Rescued (env : RefreshEnv σ) (req : BackendReq) : Prop :=
  ∃ ttl, clock ((cachedReply env.laterFile).expires - env.later) = some ttl
    ∧ (cachedReply env.laterFile).usableIfError req.options ttl = some true

theorem Rescued.le_staleIfError (h : env.Rescued req) : (cachedReply env.laterFile).valid = true
    ∧ env.later - (cachedReply env.laterFile).expires ≤ req.options.staleIfError.toInt * second := by
  obtain ⟨ttl, hclock, husable⟩ := h
  obtain ⟨rfl, -⟩ := clock_eq_some_iff.mp hclock
  obtain ⟨hvalid, hle⟩ := Reply123.usableIfError_eq_true husable
  exact ⟨hvalid, by omega⟩

theorem fallback_eq_ok_iff (e : Exn) : env.fallback req usable e = some (.ok served)
    ↔ usable = true ∧ env.Rescued req ∧ served = ⟨cachedReply env.laterFile, .disk, env.later⟩ := by
  obtain ⟨renamed, hfile⟩ := deserialize_eq env.laterFile
  unfold fallback
  rw [hfile]
  cases usable with
  | false => simp [rethrow]
  | true =>
    simp only [if_true, Option.bind_eq_bind, Option.bind_eq_some_iff, true_and]
    constructor
    · rintro ⟨ttl, httl, again, hagain, hres⟩
      cases again with
      | false => simp [rethrow] at hres
      | true =>
        rw [if_pos rfl, Option.some.injEq, Except.ok.injEq] at hres
        exact ⟨⟨ttl, httl, hagain⟩, hres.symm⟩
    · rintro ⟨⟨ttl, httl, hagain⟩, rfl⟩
      exact ⟨ttl, httl, true, hagain, by rw [if_pos rfl]⟩

/-- Upstream has answered, and the answer is kept. -/
structure Answers (env : RefreshEnv σ) (req : BackendReq) (r : Reply123) (modified : Bool) (source : σ) :
    Prop where
  answer : env.upstream req (cachedReply env.file) = .ok (r, modified, source)
  noCache : modified = false → req.options.noCache = false
  stored : env.stored r = .ok ()

/-- The reply on disk is not served because the client is disconnected. -/
theorem upstreamRefresh_eq_ok_iff (hcon : ¬ (env.disconnected = true ∧ usable = true)) :
    env.upstreamRefresh req (cachedReply env.file) usable = .ok served
      ↔ ∃ r modified source, env.Answers req r modified source
        ∧ served = ⟨r, .upstream modified source, env.now⟩ := by
  unfold upstreamRefresh
  rw [if_neg hcon, bind_eq_ok_iff]
  constructor
  · rintro ⟨⟨r, modified, source⟩, hup, h⟩
    dsimp only at h
    split at h
    · simp [throwEinval] at h
    next hcheck =>
    obtain ⟨⟨⟩, hstored, h⟩ := bind_eq_ok_iff.mp h
    refine ⟨r, modified, source, ⟨hup, ?_, hstored⟩, (Except.ok.inj h).symm⟩
    intro hmod
    rw [not_and, hmod] at hcheck
    simpa using hcheck
  · rintro ⟨r, modified, source, ⟨hup, hmod, hstored⟩, rfl⟩
    refine ⟨(r, modified, source), hup, ?_⟩
    dsimp only
    rw [if_neg, hstored]
    · rfl
    · rintro ⟨hfalse, hno⟩
      rw [hmod (Bool.not_eq_true _ ▸ hfalse)] at hno
      exact absurd hno (by decide)

theorem refreshBody_eq : env.refreshBody req = env.serve req (cachedReply env.file) := by
  obtain ⟨renamed, hfile⟩ := deserialize_eq env.file
  rw [refreshBody, hfile]

theorem refresh_eq_ok_iff :
    env.refresh req = some (.ok served) ↔ env.serve req (cachedReply env.file) = some (.ok served) := by
  unfold refresh
  rw [Option.map_eq_some_iff, refreshBody_eq]
  constructor
  · rintro ⟨res, hres, hcatch⟩
    rw [catchE_eq_ok_iff (by simp)] at hcatch
    rw [hres, hcatch]
  · intro h
    exact ⟨_, h, rfl⟩

/-- When the answer of upstream is asked for. -/
def Asks (env : RefreshEnv σ) (req : BackendReq) (usable : Bool) : Prop :=
  (cachedReply env.file).freshness req.options env.now = some (.miss usable)
    ∧ ¬ (env.disconnected = true ∧ usable = true)

/-- When the reply on disk is served without a look at `valid()`. -/
def ServesCached (env : RefreshEnv σ) (req : BackendReq) : Prop :=
  (cachedReply env.file).freshness req.options env.now = some .hit
    ∨ ((cachedReply env.file).freshness req.options env.now = some .stale ∧ env.background = .ok ())

/-- Upstream has answered, and the answer is dropped: a 304 to a request that must not get one, or a reply that
cannot be stored. -/
def Drops (env : RefreshEnv σ) (req : BackendReq) : Prop :=
  ∃ r modified source, env.upstream req (cachedReply env.file) = .ok (r, modified, source)
    ∧ ((modified = false ∧ req.options.noCache = true) ∨ Throws (env.stored r))

theorem Drops.iff {r : Reply123} {source : σ}
    (hup : env.upstream req (cachedReply env.file) = .ok (r, modified, source)) :
    env.Drops req ↔ (modified = false ∧ req.options.noCache = true) ∨ Throws (env.stored r) := by
  constructor
  · rintro ⟨r', modified', source', hup', h⟩
    rw [hup, Except.ok.injEq, Prod.mk.injEq, Prod.mk.injEq] at hup'
    obtain ⟨rfl, rfl, -⟩ := hup'
    exact h
  · exact fun h => ⟨r, modified, source, hup, h⟩

theorem throws_upstreamRefresh_iff (hcon : ¬ (env.disconnected = true ∧ usable = true)) :
    Throws (env.upstreamRefresh req (cachedReply env.file) usable)
      ↔ Throws (env.upstream req (cachedReply env.file)) ∨ env.Drops req := by
  unfold upstreamRefresh
  rw [if_neg hcon]
  rcases hup : env.upstream req (cachedReply env.file) with fault | ⟨r, modified, source⟩
  · have hno : ¬ env.Drops req := by
      rintro ⟨r, modified, source, hok, -⟩
      rw [hup] at hok
      simp at hok
    simp [hno, Throws, bind, Except.bind]
  have hok : ¬ Throws (.ok (r, modified, source) : Res (Reply123 × Bool × σ)) := by simp [Throws]
  rw [or_iff_right hok, Drops.iff hup]
  simp only [bind, Except.bind]
  split
  · next hno => exact iff_of_true (throws_throwE _ _) (Or.inl ⟨by simpa using hno.1, hno.2⟩)
  · next hno =>
    rw [Bool.not_eq_true] at hno
    rw [or_iff_right hno]
    rcases env.stored r with fault | u
    · simp [Throws]
    · simp [Throws]

/-- Everything that a call may leave. -/
theorem refresh_cases (h : env.refresh req = some (.ok served)) :
    (env.ServesCached req ∧ served = ⟨cachedReply env.file, .disk, env.now⟩)
      ∨ ((cachedReply env.file).freshness req.options env.now = some (.miss true) ∧ env.disconnected = true
        ∧ served = ⟨cachedReply env.file, .disk, env.now⟩)
      ∨ (∃ usable r modified source, env.Asks req usable ∧ env.Answers req r modified source
        ∧ served = ⟨r, .upstream modified source, env.now⟩)
      ∨ (env.Asks req true ∧ (Throws (env.upstream req (cachedReply env.file)) ∨ env.Drops req)
        ∧ env.Rescued req ∧ served = ⟨cachedReply env.laterFile, .disk, env.later⟩) := by
  rw [refresh_eq_ok_iff, serve] at h
  split at h
  · simp at h
  · next hhit => exact Or.inl ⟨Or.inl hhit, (Except.ok.inj (Option.some.inj h)).symm⟩
  · next hstale =>
    rw [Option.some.injEq] at h
    cases hbg : env.background with
    | error fault => simp [hbg, Except.map] at h
    | ok u =>
      rw [hbg] at h
      exact Or.inl ⟨Or.inr ⟨hstale, hbg⟩, (Except.ok.inj h).symm⟩
  · next usable hmiss =>
    by_cases hcon : env.disconnected = true ∧ usable = true
    · rw [upstreamRefresh, if_pos hcon] at h
      exact Or.inr (Or.inl ⟨hcon.2 ▸ hmiss, hcon.1, (Except.ok.inj (Option.some.inj h)).symm⟩)
    · split at h
      · next served' hserved =>
        obtain rfl : served' = served := Except.ok.inj (Option.some.inj h)
        obtain ⟨r, modified, source, hans, heq⟩ := (upstreamRefresh_eq_ok_iff hcon).mp hserved
        exact Or.inr (Or.inr (Or.inl ⟨usable, r, modified, source, ⟨hmiss, hcon⟩, hans, heq⟩))
      · simp at h
      · next e he =>
        obtain ⟨rfl, hres, heq⟩ := (fallback_eq_ok_iff e).mp h
        exact Or.inr (Or.inr (Or.inr ⟨⟨hmiss, hcon⟩, (throws_upstreamRefresh_iff hcon).mp ⟨e, he⟩, hres, heq⟩))

theorem refresh_of_servesCached (h : env.ServesCached req) :
    env.refresh req = some (.ok ⟨cachedReply env.file, .disk, env.now⟩) := by
  rw [refresh_eq_ok_iff, serve]
  rcases h with h | ⟨h, hbg⟩
  · rw [h]
  · rw [h, hbg]
    rfl

theorem refresh_of_answers {r : Reply123} {source : σ} (h : env.Asks req usable)
    (hans : env.Answers req r modified source) :
    env.refresh req = some (.ok ⟨r, .upstream modified source, env.now⟩) := by
  rw [refresh_eq_ok_iff, serve, h.1]
  dsimp only
  rw [(upstreamRefresh_eq_ok_iff h.2).mpr ⟨r, modified, source, hans, rfl⟩]

theorem refresh_of_rescued (h : env.Asks req true)
    (hfail : Throws (env.upstream req (cachedReply env.file)) ∨ env.Drops req) (hres : env.Rescued req) :
    env.refresh req = some (.ok ⟨cachedReply env.laterFile, .disk, env.later⟩) := by
  obtain ⟨e, he⟩ := (throws_upstreamRefresh_iff h.2).mpr hfail
  rw [refresh_eq_ok_iff, serve, h.1]
  dsimp only
  rw [he]
  exact (fallback_eq_ok_iff e).mpr ⟨rfl, hres, rfl⟩

/-- The condition: a reply that is served without asking upstream is valid, upstream answers with valid replies,
and a reply that is served after upstream's answer was dropped might have been served without asking. -/
structure Sound (env : RefreshEnv σ) (req : BackendReq) : Prop where
  cached : env.ServesCached req → (cachedReply env.file).valid = true
  answered : ∀ usable r modified source, env.Asks req usable → env.Answers req r modified source →
    r.valid = true
  dropped : env.Asks req true → env.Drops req → env.Rescued req →
    (cachedReply env.laterFile).Servable req.options env.later

end RefreshEnv

/-- The replies that a call can leave are admissible exactly under this condition. -/
theorem refresh_admissible_iff {σ : Type} (env : RefreshEnv σ) (req : BackendReq) :
    (∀ served, env.refresh req = some (.ok served) → Admissible env req served) ↔ env.Sound req := by
  constructor
  · intro h
    refine ⟨?_, ?_, ?_⟩
    · intro hserves
      exact (h _ (RefreshEnv.refresh_of_servesCached hserves)).valid
    · intro usable r modified source hasks hans
      exact (h _ (RefreshEnv.refresh_of_answers hasks hans)).valid
    · intro hasks hdrops hres
      rcases (h _ (RefreshEnv.refresh_of_rescued hasks (Or.inr hdrops) hres)).reason with
        ⟨modified, source, hprov, -⟩ | hserv | hfail
      · simp at hprov
      · exact hserv
      · exfalso
        obtain ⟨r, modified, source, hok, -⟩ := hdrops
        rcases hfail.1 with hdis | ⟨e, he⟩
        · exact hasks.2 ⟨hdis, rfl⟩
        · rw [hok] at he
          simp at he
  · intro hsound served h
    rcases RefreshEnv.refresh_cases h with ⟨hserves, rfl⟩ | ⟨hmiss, hdis, rfl⟩ |
      ⟨usable, r, modified, source, hasks, hans, rfl⟩ | ⟨hasks, hfail, hres, rfl⟩
    · refine ⟨hsound.cached hserves, Or.inr (Or.inl ?_)⟩
      rcases hserves with hhit | ⟨hstale, -⟩
      · rcases Reply123.freshness_cases hhit with ⟨-, hno, hlt⟩ | ⟨hne, -⟩ | ⟨u, hne, -⟩
        · exact ⟨hno, Or.inl hlt⟩
        · simp at hne
        · simp at hne
      · rcases Reply123.freshness_cases hstale with ⟨hne, -⟩ | ⟨-, hno, -, hwithin⟩ | ⟨u, hne, -⟩
        · simp at hne
        · exact ⟨hno, Or.inr hwithin⟩
        · simp at hne
    · rcases Reply123.freshness_cases hmiss with ⟨hne, -⟩ | ⟨hne, -⟩ | ⟨u, heq, husable⟩
      · simp at hne
      · simp at hne
      · obtain ⟨hvalid, hle⟩ := husable (Freshness.miss.inj heq).symm
        exact ⟨hvalid, Or.inr (Or.inr ⟨Or.inl hdis, hle⟩)⟩
    · exact ⟨hsound.answered usable r modified source hasks hans, Or.inl ⟨modified, source, rfl, hans.answer⟩⟩
    · obtain ⟨hvalid, hle⟩ := hres.le_staleIfError
      refine ⟨hvalid, ?_⟩
      rcases hfail with hthrows | hdrops
      · exact Or.inr (Or.inr ⟨Or.inr hthrows, hle⟩)
      · exact Or.inr (Or.inl (hsound.dropped hasks hdrops hres))

/-- Nothing is cached, in November 2023, and upstream cannot be reached. -/
def emptyCache : RefreshEnv Unit where
  file := none
  now := 1700000000000000000
  disconnected := false
  upstream _ _ := throwE .runtimeError (bytes "connection refused")
  background := .ok ()
  stored _ := .ok ()
  laterFile := none
  later := 1700000001000000000

/-- A request of a client that takes data that is 63 years too old. -/
def patientReq : BackendReq := ⟨bytes "/a/x", ⟨false, none, 2000000000, 0⟩, false⟩

/-- The reply of a cache miss expired in 1970, so it is served as slightly stale. -/
theorem miss_served :
    emptyCache.refresh patientReq = some (.ok ⟨.miss, .disk, 1700000000000000000⟩)
      ∧ ¬ Admissible emptyCache patientReq ⟨.miss, .disk, 1700000000000000000⟩ := by
  refine ⟨rfl, ?_⟩
  intro h
  exact absurd h.valid (by decide)

end Fs123
