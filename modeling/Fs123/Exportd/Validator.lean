import Fs123.Core.Stat

/-!
# Content validators

The model of `exportd_handler::monotonic_validator`: the smaller of two 64-bit times, that of the last
modification and a recent one. The times are integers of nanoseconds; what the code computes with is their
residue (`wrap`). The validators of a run of calls grow as long as the residues do (`validators_grow_iff`).
-/

namespace Fs123

open Cxx

/-- The residue that a `uint64_t` holds. -/
def wrap (z : ℤ) : ℕ := (z % 2 ^ 64).toNat

/-- A `struct timespec`, in nanoseconds. -/
def timespec (sec nsec : Int64) : ℤ := 1000000000 * sec.toInt + nsec.toInt

/-- `timespec2ns(ts)`. -/
def timespec2ns (sec nsec : Int64) : ℕ := wrap (timespec sec nsec)

/-- A call of `monotonic_validator`: the `stat` that it is given, and what `clock_gettime` returns to it. -/
structure ValidatorCall where
  sb : Stat
  nowSec : Int64
  nowNsec : Int64

namespace ValidatorCall

variable (granularity : UInt64) (c d : ValidatorCall)

/-- `monotonic_validator(sb)`, with `opts.mtim_granularity_ns`. -/
def monotonicValidator : ℕ :=
  let mtim64 := timespec2ns c.sb.mtime c.sb.mtimNsec
  let now64 := timespec2ns c.nowSec c.nowNsec
  min mtim64 (subW now64 (2 * granularity.toNat % 2 ^ 64))

/-- The time of the last modification. -/
def mtim : ℤ := timespec c.sb.mtime c.sb.mtimNsec

/-- The time of the call. -/
def now : ℤ := timespec c.nowSec c.nowNsec

/-- The time before which modifications are taken to be finished. -/
def settled : ℤ := c.now - 2 * granularity.toNat

/-- Later calls see a later modification, or the same one, and a later clock, or the same reading. -/
def Before : Prop := c.mtim ≤ d.mtim ∧ c.now ≤ d.now

/-- When the file has been modified between the calls, neither residue stays or falls to one that is not
above the smaller one before; when it has not, that of the clock does not fall below it. -/
def Steady : Prop :=
  if c.mtim < d.mtim then
    (wrap d.mtim ≤ wrap c.mtim → wrap (c.settled granularity) < wrap d.mtim)
      ∧ (wrap (d.settled granularity) ≤ wrap (c.settled granularity) →
        wrap c.mtim < wrap (d.settled granularity))
  else
    wrap (d.settled granularity) < wrap (c.settled granularity) → wrap c.mtim ≤ wrap (d.settled granularity)

/-- What the validators of two calls promise: they do not decrease, and after a modification they differ. -/
def Grows : Prop :=
  c.monotonicValidator granularity ≤ d.monotonicValidator granularity
    ∧ (c.mtim < d.mtim → c.monotonicValidator granularity ≠ d.monotonicValidator granularity)

variable {granularity c d}

theorem wrap_eq_self {z : ℤ} (h₀ : 0 ≤ z) (h : z < 2 ^ 64) : (wrap z : ℤ) = z := by
  rw [wrap, Int.emod_eq_of_lt h₀ h, Int.toNat_of_nonneg h₀]

/-- The code computes with the residues of the times. -/
theorem monotonicValidator_eq :
    c.monotonicValidator granularity = min (wrap c.mtim) (wrap (c.settled granularity)) := by
  have hsub : subW (wrap c.now) (2 * granularity.toNat % 2 ^ 64) = wrap (c.settled granularity) := by
    unfold subW wrap settled sizeMod
    omega
  rw [← hsub]
  rfl

/-- One call after another. -/
theorem grows_iff (h : c.Before d) : Grows granularity c d ↔ Steady granularity c d := by
  unfold Grows Steady
  rw [monotonicValidator_eq, monotonicValidator_eq]
  split
  · next hlt =>
    constructor
    · rintro ⟨hle, hne⟩
      have hlt := lt_of_le_of_ne hle (hne hlt)
      rw [lt_min_iff, min_lt_iff, min_lt_iff] at hlt
      exact ⟨fun h => hlt.1.resolve_left (not_lt.mpr h), fun h => hlt.2.resolve_right (not_lt.mpr h)⟩
    · rintro ⟨hmtim, hclock⟩
      have hlt' : min (wrap c.mtim) (wrap (c.settled granularity))
          < min (wrap d.mtim) (wrap (d.settled granularity)) := by
        rw [lt_min_iff, min_lt_iff, min_lt_iff]
        exact ⟨or_iff_not_imp_left.mpr fun h => hmtim (not_lt.mp h),
          or_iff_not_imp_right.mpr fun h => hclock (not_lt.mp h)⟩
      exact ⟨hlt'.le, fun _ => hlt'.ne⟩
  · next hle =>
    have heq : c.mtim = d.mtim := le_antisymm h.1 (not_lt.mp hle)
    rw [heq]
    constructor
    · rintro ⟨hmin, -⟩ hfall
      rw [le_min_iff, min_le_iff, min_le_iff] at hmin
      exact hmin.2.resolve_right (not_le.mpr hfall)
    · intro hclock
      refine ⟨?_, fun h => absurd h (lt_irrefl _)⟩
      rw [le_min_iff, min_le_iff, min_le_iff]
      exact ⟨Or.inl le_rfl, or_iff_not_imp_right.mpr fun h => hclock (not_le.mp h)⟩

/-- Between 1970 and the year 2554 nothing wraps; the clock has to go on between two contents. -/
theorem steady_of_range (h : c.Before d) (hmtim : 0 ≤ c.mtim ∧ d.mtim < 2 ^ 64)
    (hnow : 0 ≤ c.settled granularity ∧ d.settled granularity < 2 ^ 64)
    (hticks : c.mtim < d.mtim → c.now < d.now) : Steady granularity c d := by
  obtain ⟨hm, hn⟩ := h
  have hs : c.settled granularity ≤ d.settled granularity := by
    unfold settled
    omega
  have hcm := wrap_eq_self hmtim.1 (hm.trans_lt hmtim.2)
  have hdm := wrap_eq_self (hmtim.1.trans hm) hmtim.2
  have hcs := wrap_eq_self hnow.1 (hs.trans_lt hnow.2)
  have hds := wrap_eq_self (hnow.1.trans hs) hnow.2
  unfold Steady
  split
  · next hlt =>
    have hticks := hticks hlt
    unfold settled at hcs hds ⊢
    constructor <;> omega
  · omega

/-- The validators of a run of calls grow exactly if the run is steady. -/
theorem validators_grow_iff {calls : List ValidatorCall} (h : calls.Pairwise Before) :
    calls.Pairwise (Grows granularity) ↔ calls.Pairwise (Steady granularity) := by
  have hpair : ∀ {c d : ValidatorCall}, c.Before d → (Grows granularity c d ↔ Steady granularity c d) :=
    grows_iff
  constructor
  · intro hgrows
    exact (h.and hgrows).imp fun hcd => (hpair hcd.1).mp hcd.2
  · intro hsteady
    exact (h.and hsteady).imp fun hcd => (hpair hcd.1).mpr hcd.2

/-- A call for a file that was last modified at `mtime`, in seconds. -/
def ofSeconds (mtime now : Int64) : ValidatorCall :=
  ⟨⟨0o100644, 1, 0, 0, 5, mtime, mtime, mtime, 2, 0, 0, 0, 3, 8, 4096, 0⟩, now, 0⟩

theorem validators_grow_modified :
    [ofSeconds 1000 3000, ofSeconds 2000 3001].Pairwise (Grows 400000) := by
  have hbefore : (ofSeconds 1000 3000).Before (ofSeconds 2000 3001) := ⟨by decide, by decide⟩
  have hsteady : Steady 400000 (ofSeconds 1000 3000) (ofSeconds 2000 3001) :=
    steady_of_range hbefore (by decide) (by decide) (by decide)
  exact (validators_grow_iff (by simpa using hbefore)).mpr (by simpa using hsteady)

/-- A file from before 1970 is touched, with a modification time just after 1970. -/
theorem validators_fall :
    ¬ ∀ (granularity : UInt64) (calls : List ValidatorCall), calls.Pairwise Before → calls.Pairwise (Grows granularity) := by
  intro hclaim
  have hbefore : (ofSeconds (-1) 1000).Before (ofSeconds 1 1001) := ⟨by decide, by decide⟩
  have hgrows := hclaim 400000 [ofSeconds (-1) 1000, ofSeconds 1 1001] (by simpa using hbefore)
  have hle : Grows 400000 (ofSeconds (-1) 1000) (ofSeconds 1 1001) := by simpa using hgrows
  exact absurd hle.1 (by decide)

end ValidatorCall

end Fs123
