import Fs123.Client.CacheControl

/-!
# The clock arithmetic of replies

`std::chrono` computes with signed 64-bit nanoseconds, and headers have 64-bit seconds. Here the sums,
differences and products of `set_times`, of the 304 branch of `getreply` and of `diskcache::refresh` are
computed one by one, and there is no result when one of them overflows. Where there is one, it is what the
unbounded numbers of the other modules give (`setTimes_of_replyTimes`); `TimesFit` says when that is
(`times_safe_iff`).
-/

namespace Fs123

open Cxx

/-! ## Signed 64-bit nanoseconds -/

/-- A number that a `clk123_t::duration` holds. -/
def InClock (z : ℤ) : Prop := -2 ^ 63 ≤ z ∧ z < 2 ^ 63

instance (z : ℤ) : Decidable (InClock z) := inferInstanceAs (Decidable (_ ∧ _))

/-- The result of an operation; there is none when it overflows. -/
def clock (z : ℤ) : Option ℤ := if InClock z then some z else none

/-- `std::chrono::seconds(n)`, as it is converted to the clock's duration. -/
def ticks (n : ℤ) : Option ℤ := clock (n * second)

theorem clock_eq_some_iff {z t : ℤ} : clock z = some t ↔ t = z ∧ InClock z := by
  unfold clock
  split
  · next h => rw [Option.some.injEq, and_iff_left h, eq_comm]
  · next h => simp [h]

/-- The seconds that the clock can hold: some 292 years. -/
theorem ticks_eq_some_iff {n t : ℤ} :
    ticks n = some t ↔ t = n * second ∧ -9223372036 ≤ n ∧ n ≤ 9223372036 := by
  rw [ticks, clock_eq_some_iff, InClock, second]
  constructor <;> rintro ⟨h, hlo, hhi⟩ <;> exact ⟨h, by omega, by omega⟩

/-! ## The times of a reply -/

/-- The members that `set_times` sets. -/
structure ReplyTimes where
  lastRefresh : ℤ
  expires : ℤ
  staleWhileRevalidate : ℤ
  deriving Repr, DecidableEq

/-- The computations of `set_times`, and of the 304 branch of `getreply`, at the clock reading `now`. -/
def replyTimes (now age maxAge swr : ℤ) : Option ReplyTimes := do
  let age ← ticks age
  let lastRefresh ← clock (now - age)
  let maxAge ← ticks maxAge
  let expires ← clock (lastRefresh + maxAge)
  let swr ← ticks swr
  pure ⟨lastRefresh, expires, swr⟩

/-- The reply with these times. -/
def Reply123.withTimes (r : Reply123) (t : ReplyTimes) : Reply123 :=
  { r with lastRefresh := t.lastRefresh, expires := t.expires, staleWhileRevalidate := t.staleWhileRevalidate }

/-- The part of a request that `diskcache::refresh` compares times with. -/
structure StaleOptions where
  noCache : Bool
  maxStale : Option Int32
  pastStaleWhileRevalidate : Int32
  staleIfError : Int32

/-- A `req123`, as a backend sees it. -/
structure BackendReq where
  urlstem : Bytes
  options : StaleOptions
  noPeerCache : Bool

/-- `req123::default_stale_if_error` and `req123::default_past_stale_while_revalidate`. -/
structure ReqDefaults where
  staleIfError : Int32
  pastStaleWhileRevalidate : Int32

/-- `req123(urlstem)`. -/
def BackendReq.ofStem (defaults : ReqDefaults) (urlstem : Bytes) : BackendReq :=
  ⟨urlstem, ⟨false, none, defaults.pastStaleWhileRevalidate, defaults.staleIfError⟩, false⟩

/-- What `diskcache::refresh` makes of the reply that it has. -/
inductive Freshness where
  | hit
  | stale
  | miss (usableIfError : Bool)
  deriving Repr, DecidableEq

/-- `swr`, which `max_stale` bounds. -/
def Reply123.netSwr (r : Reply123) (req : StaleOptions) : Option ℤ := do
  let past ← ticks req.pastStaleWhileRevalidate.toInt
  let swr ← clock (r.staleWhileRevalidate + past)
  match req.maxStale with
  | none => pure swr
  | some maxStale => do
    let reqms ← ticks maxStale.toInt
    pure (if reqms < swr then reqms else swr)

/-- `r->valid() && std::chrono::seconds(req.stale_if_error) >= -ttl`. -/
def Reply123.usableIfError (r : Reply123) (req : StaleOptions) (ttl : ℤ) : Option Bool :=
  if r.valid then do
    let staleIfError ← ticks req.staleIfError.toInt
    let staleness ← clock (-ttl)
    pure (staleness ≤ staleIfError)
  else pure false

/-- The decision of `diskcache::refresh`, at the clock reading `now`. -/
def Reply123.freshness (r : Reply123) (req : StaleOptions) (now : ℤ) : Option Freshness := do
  let swr ← r.netSwr req
  let ttl ← clock (r.expires - now)
  if req.noCache then
    let usable ← r.usableIfError req ttl
    pure (.miss usable)
  else if 0 < ttl then pure .hit
  else do
    let minusSwr ← clock (-swr)
    if minusSwr < ttl then pure .stale
    else do
      let usable ← r.usableIfError req ttl
      pure (.miss usable)

namespace HttpResponse

/-- The times that a response gives a reply. -/
def times (resp : HttpResponse) (now : ℤ) : Res (Option ReplyTimes) := do
  let age ← resp.getAge
  let maxAge ← resp.getMaxAge
  let swr ← resp.getStaleWhileRevalidate
  .ok (replyTimes now age maxAge swr)

end HttpResponse

/-! ### What is computed when nothing overflows -/

variable {now age maxAge swr : ℤ} {t : ReplyTimes}

theorem replyTimes_eq_some_iff :
    replyTimes now age maxAge swr = some t
      ↔ t = ⟨now - age * second, now - age * second + maxAge * second, swr * second⟩
        ∧ (-9223372036 ≤ age ∧ age ≤ 9223372036) ∧ InClock (now - age * second)
        ∧ (-9223372036 ≤ maxAge ∧ maxAge ≤ 9223372036) ∧ InClock (now - age * second + maxAge * second)
        ∧ -9223372036 ≤ swr ∧ swr ≤ 9223372036 := by
  unfold replyTimes
  simp only [Option.bind_eq_bind, Option.bind_eq_some_iff, ticks_eq_some_iff, clock_eq_some_iff]
  constructor
  · rintro ⟨_, ⟨rfl, hage⟩, _, ⟨rfl, hlast⟩, _, ⟨rfl, hmax⟩, _, ⟨rfl, hexp⟩, _, ⟨rfl, hswr⟩, ht⟩
    cases ht
    exact ⟨rfl, hage, hlast, hmax, hexp, hswr⟩
  · rintro ⟨rfl, hage, hlast, hmax, hexp, hswr⟩
    exact ⟨_, ⟨rfl, hage⟩, _, ⟨rfl, hlast⟩, _, ⟨rfl, hmax⟩, _, ⟨rfl, hexp⟩, _, ⟨rfl, hswr⟩, rfl⟩

/-- `set_times` then sets these times. -/
theorem setTimes_of_replyTimes (h : replyTimes now age maxAge swr = some t) {r : Reply123} (hr : r.valid) :
    r.setTimes now age maxAge swr = .ok (r.withTimes t) := by
  obtain ⟨rfl, -⟩ := replyTimes_eq_some_iff.mp h
  rw [Reply123.setTimes, if_pos hr]
  rfl

/-- So does `getreply` on a 304. -/
theorem getreply_of_times {resp : HttpResponse} (h : resp.times now = .ok (some t)) (hcode : resp.httpCode = 304)
    (minor : ℕ) (r : Reply123) : resp.getreply minor now r = .ok (r.withTimes t, false) := by
  unfold HttpResponse.times at h
  simp only [bind_eq_ok_iff, Except.ok.injEq] at h
  obtain ⟨age, hage, maxAge, hmax, swr, hswr, ht⟩ := h
  obtain ⟨rfl, -⟩ := replyTimes_eq_some_iff.mp ht
  unfold HttpResponse.getreply
  rw [if_neg (by simp [hcode]), hage, hmax, hswr]
  simp only [bind, Except.bind, if_pos hcode]
  rfl

/-! ### When nothing overflows -/

/-- An `int` of seconds fits the clock. -/
theorem ticks_int32 (n : Int32) : ticks n.toInt = some (n.toInt * second) := by
  have hlo := n.le_toInt
  have hhi := n.toInt_lt
  exact ticks_eq_some_iff.mpr ⟨rfl, by omega, by omega⟩

variable {r : Reply123} {req : StaleOptions}

/-- `swr` is a number of seconds, so it can be negated. -/
theorem netSwr_eq_some (hr : r.staleWhileRevalidate = swr * second)
    (hlo : -9223372036 ≤ swr + req.pastStaleWhileRevalidate.toInt)
    (hhi : swr + req.pastStaleWhileRevalidate.toInt ≤ 9223372036) :
    ∃ v, r.netSwr req = some v ∧ InClock (-v) := by
  unfold Reply123.netSwr
  have hsum : InClock (swr * second + req.pastStaleWhileRevalidate.toInt * second) := by
    rw [InClock, second]
    omega
  rw [ticks_int32, hr]
  simp only [Option.bind_eq_bind, Option.bind_some]
  rw [clock_eq_some_iff.mpr ⟨rfl, hsum⟩, Option.bind_some]
  have hswr : InClock (-(swr * second + req.pastStaleWhileRevalidate.toInt * second)) := by
    rw [InClock, second]
    omega
  cases req.maxStale with
  | none => exact ⟨_, rfl, hswr⟩
  | some maxStale =>
    dsimp only
    rw [ticks_int32, Option.bind_some]
    refine ⟨_, rfl, ?_⟩
    split
    · have hlo := maxStale.le_toInt
      have hhi := maxStale.toInt_lt
      rw [InClock, second]
      omega
    · exact hswr

theorem netSwr_fits {v : ℤ} (hr : r.staleWhileRevalidate = swr * second) (h : r.netSwr req = some v) :
    -9223372036 ≤ swr + req.pastStaleWhileRevalidate.toInt
      ∧ swr + req.pastStaleWhileRevalidate.toInt ≤ 9223372036 := by
  unfold Reply123.netSwr at h
  rw [ticks_int32, hr] at h
  simp only [Option.bind_eq_bind, Option.bind_some] at h
  obtain ⟨sum, hsum, -⟩ := Option.bind_eq_some_iff.mp h
  obtain ⟨-, hclock⟩ := clock_eq_some_iff.mp hsum
  rw [InClock, second] at hclock
  omega

/-- A valid reply can be compared with the error window exactly when its `ttl` can be negated. -/
theorem usableIfError_eq_some (hr : r.valid) {ttl : ℤ} :
    (∃ usable, r.usableIfError req ttl = some usable) ↔ InClock (-ttl) := by
  unfold Reply123.usableIfError
  rw [if_pos hr, ticks_int32]
  simp only [Option.bind_eq_bind, Option.bind_some, Option.bind_eq_some_iff, clock_eq_some_iff]
  constructor
  · rintro ⟨usable, _, ⟨-, hclock⟩, -⟩
    exact hclock
  · intro hclock
    exact ⟨_, _, ⟨rfl, hclock⟩, rfl⟩

theorem freshness_eq_some_iff (hvalid : r.valid) (hr : r.staleWhileRevalidate = swr * second) :
    (∃ f, r.freshness req now = some f)
      ↔ (-9223372036 ≤ swr + req.pastStaleWhileRevalidate.toInt
          ∧ swr + req.pastStaleWhileRevalidate.toInt ≤ 9223372036)
        ∧ -2 ^ 63 < r.expires - now ∧ r.expires - now < 2 ^ 63 := by
  unfold Reply123.freshness
  constructor
  · rintro ⟨f, hf⟩
    simp only [Option.bind_eq_bind] at hf
    obtain ⟨v, hv, hf⟩ := Option.bind_eq_some_iff.mp hf
    obtain ⟨ttl, httl, hf⟩ := Option.bind_eq_some_iff.mp hf
    obtain ⟨rfl, hclock⟩ := clock_eq_some_iff.mp httl
    refine ⟨netSwr_fits hr hv, ?_, hclock.2⟩
    have hlow : ∀ {usable : Bool}, r.usableIfError req (r.expires - now) = some usable →
        -2 ^ 63 < r.expires - now := by
      intro usable husable
      have := ((usableIfError_eq_some hvalid).mp ⟨usable, husable⟩).2
      omega
    split at hf
    · obtain ⟨usable, husable, -⟩ := Option.bind_eq_some_iff.mp hf
      exact hlow husable
    · split at hf
      · omega
      · obtain ⟨minusSwr, hminus, hf⟩ := Option.bind_eq_some_iff.mp hf
        obtain ⟨rfl, hclock'⟩ := clock_eq_some_iff.mp hminus
        split at hf
        · next hlt => exact lt_of_le_of_lt hclock'.1 hlt
        · obtain ⟨usable, husable, -⟩ := Option.bind_eq_some_iff.mp hf
          exact hlow husable
  · rintro ⟨⟨hlo, hhi⟩, httl⟩
    obtain ⟨v, hv, hminus⟩ := netSwr_eq_some hr hlo hhi
    have hclock : InClock (r.expires - now) := ⟨httl.1.le, httl.2⟩
    have hstale : InClock (-(r.expires - now)) := ⟨by omega, by omega⟩
    obtain ⟨usable, husable⟩ := (@usableIfError_eq_some r req hvalid _).mpr hstale
    rw [hv]
    simp only [Option.bind_eq_bind, Option.bind_some, clock_eq_some_iff.mpr ⟨rfl, hclock⟩, husable,
      clock_eq_some_iff.mpr ⟨rfl, hminus⟩]
    split
    · exact ⟨_, rfl⟩
    · split
      · exact ⟨_, rfl⟩
      · split <;> exact ⟨_, rfl⟩

/-! ## The times of two responses -/

/-- The values of the headers that the times are made from. -/
structure HttpResponse.Accepts (resp : HttpResponse) (age maxAge swr : ℤ) : Prop where
  age : resp.getAge = .ok age
  maxAge : resp.getMaxAge = .ok maxAge
  swr : resp.getStaleWhileRevalidate = .ok swr

/-- Nothing overflows when the response comes at `now` and is looked at by `diskcache::refresh` at `later`. -/
def HttpResponse.Safe (resp : HttpResponse) (now : ℤ) (req : StaleOptions) (later : ℤ) : Prop :=
  ∃ t, resp.times now = .ok (some t)
    ∧ ∀ r : Reply123, r.valid → ∃ f, (r.withTimes t).freshness req later = some f

/-- The seconds are at most 292 years, and so is what they are from the clock. -/
structure TimesFit (age maxAge swr now : ℤ) (req : StaleOptions) (later : ℤ) : Prop where
  age_fits : -9223372036 ≤ age ∧ age ≤ 9223372036
  lastRefresh : InClock (now - age * second)
  maxAge_fits : -9223372036 ≤ maxAge ∧ maxAge ≤ 9223372036
  expires : InClock (now - age * second + maxAge * second)
  swr_fits : -9223372036 ≤ swr ∧ swr ≤ 9223372036
  netSwr : -9223372036 ≤ swr + req.pastStaleWhileRevalidate.toInt
    ∧ swr + req.pastStaleWhileRevalidate.toInt ≤ 9223372036
  ttl : -2 ^ 63 < now - age * second + maxAge * second - later
    ∧ now - age * second + maxAge * second - later < 2 ^ 63

variable {resp resp' : HttpResponse} {age' maxAge' swr' : ℤ}

theorem HttpResponse.Accepts.times_eq (h : resp.Accepts age maxAge swr) (now : ℤ) :
    resp.times now = .ok (replyTimes now age maxAge swr) := by
  rw [HttpResponse.times, h.age, h.maxAge, h.swr]
  rfl

theorem HttpResponse.Accepts.safe_iff (h : resp.Accepts age maxAge swr) (now : ℤ) (req : StaleOptions)
    (later : ℤ) : resp.Safe now req later ↔ TimesFit age maxAge swr now req later := by
  unfold HttpResponse.Safe
  simp only [h.times_eq, Except.ok.injEq, replyTimes_eq_some_iff]
  constructor
  · rintro ⟨t, ⟨rfl, hage, hlast, hmax, hexp, hswr⟩, hfresh⟩
    obtain ⟨hnet, httl⟩ := (@freshness_eq_some_iff later swr (Reply123.withTimes { Reply123.miss with eno72 := 0 } _)
      req rfl rfl).mp (hfresh _ rfl)
    exact ⟨hage, hlast, hmax, hexp, hswr, hnet, httl⟩
  · rintro ⟨hage, hlast, hmax, hexp, hswr, hnet, httl⟩
    refine ⟨_, ⟨rfl, hage, hlast, hmax, hexp, hswr⟩, ?_⟩
    intro r hr
    exact (freshness_eq_some_iff (r := r.withTimes _) hr rfl).mpr ⟨hnet, httl⟩

/-- Nothing overflows, and of two replies the one with the longer `max-age` and the smaller age does not
expire before the other, exactly when the times fit. -/
theorem times_safe_iff (h : resp.Accepts age maxAge swr) (h' : resp'.Accepts age' maxAge' swr')
    (hage : age' ≤ age) (hmax : maxAge ≤ maxAge') (now : ℤ) (req : StaleOptions) (later : ℤ) :
    (resp.Safe now req later ∧ resp'.Safe now req later
      ∧ ∀ t t', resp.times now = .ok (some t) → resp'.times now = .ok (some t') → t.expires ≤ t'.expires)
      ↔ TimesFit age maxAge swr now req later ∧ TimesFit age' maxAge' swr' now req later := by
  rw [h.safe_iff, h'.safe_iff]
  constructor
  · exact fun hall => ⟨hall.1, hall.2.1⟩
  · intro hfit
    refine ⟨hfit.1, hfit.2, ?_⟩
    intro t t' ht ht'
    rw [h.times_eq, Except.ok.injEq] at ht
    rw [h'.times_eq, Except.ok.injEq] at ht'
    obtain ⟨rfl, -⟩ := replyTimes_eq_some_iff.mp ht
    obtain ⟨rfl, -⟩ := replyTimes_eq_some_iff.mp ht'
    dsimp only
    rw [second]
    omega

/-- A minute and an hour, in September 2020, looked at half a minute later. -/
theorem times_safe_minute :
    let req : StaleOptions := ⟨false, some 0, 0, 864000⟩
    let minute := HttpResponse.ofCacheControl (bytes "max-age=60,stale-while-revalidate=30")
    let hour := HttpResponse.ofCacheControl (bytes "max-age=3600")
    minute.Safe 1600000000000000000 req 1600000030000000000
      ∧ hour.Safe 1600000000000000000 req 1600000030000000000
      ∧ ∀ t t', minute.times 1600000000000000000 = .ok (some t) → hour.times 1600000000000000000 = .ok (some t') →
        t.expires ≤ t'.expires := by
  have hminute : (HttpResponse.ofCacheControl (bytes "max-age=60,stale-while-revalidate=30")).Accepts 0 60 30 :=
    ⟨by decide +kernel, by decide +kernel, by decide +kernel⟩
  have hhour : (HttpResponse.ofCacheControl (bytes "max-age=3600")).Accepts 0 3600 0 :=
    ⟨by decide +kernel, by decide +kernel, by decide +kernel⟩
  exact (times_safe_iff hminute hhour le_rfl (by decide) 1600000000000000000 ⟨false, some 0, 0, 864000⟩
    1600000030000000000).mpr
      ⟨⟨by decide, by decide, by decide, by decide, by decide, by decide, by decide⟩,
        ⟨by decide, by decide, by decide, by decide, by decide, by decide, by decide⟩⟩

/-- A `max-age` of a thousand years: one year, in milliseconds. -/
theorem times_overflow :
    ¬ ∀ (resp : HttpResponse) (age maxAge swr : ℤ), resp.Accepts age maxAge swr →
      ∀ (now : ℤ) (req : StaleOptions) (later : ℤ), InClock now → InClock later → resp.Safe now req later := by
  intro hclaim
  have haccepts : (HttpResponse.ofCacheControl (bytes "max-age=31536000000")).Accepts 0 31536000000 0 :=
    ⟨by decide +kernel, by decide +kernel, by decide +kernel⟩
  obtain ⟨t, ht, -⟩ := hclaim _ _ _ _ haccepts 1600000000000000000 ⟨false, none, 0, 0⟩ 1600000000000000000
    (by decide) (by decide)
  rw [haccepts.times_eq, Except.ok.injEq] at ht
  obtain ⟨-, -, -, hmax, -⟩ := replyTimes_eq_some_iff.mp ht
  omega

end Fs123
