import Fs123.Common.Bytes
import Mathlib.Logic.Function.Basic

/-!
# Values that expire

The model of `core123/expiring.hpp`: a value with an expiration time, and the `expiring_cache` that keeps such
values by key. Every member of the cache holds its lock, so each is one step here. Which keys the evictions
after an insertion take depends on the hashes of the keys and is given from outside.
-/

namespace Fs123

/-- A `time_point` of the system clock, in nanoseconds. -/
abbrev TimePoint := ℤ

/-- `time_point::min()`. -/
def TimePoint.min : TimePoint := -2 ^ 63

/-- `expiring<T>`. -/
structure Expiring (α : Type) where
  val : α
  goodTill : TimePoint
  deriving Repr, DecidableEq

namespace Expiring

variable {α κ : Type}

/-- The default constructor. -/
instance [Inhabited α] : Inhabited (Expiring α) := ⟨⟨default, TimePoint.min⟩⟩

/-- `expired(asifnow)`. -/
def expired (e : Expiring α) (asifnow : TimePoint) : Bool := asifnow > e.goodTill

/-- `expiring_cache`: its capacity and its map. -/
structure Cache (κ α : Type) where
  maxSize : ℕ
  themap : κ → Option (Expiring α)

namespace Cache

variable [DecidableEq κ]

/-- `erase(k)`. -/
def erase (c : Cache κ α) (k : κ) : Cache κ α := { c with themap := Function.update c.themap k none }

/-- `lookup(k, asifnow)`: an expired entry is erased, and a miss is the default. -/
def lookup [Inhabited α] (c : Cache κ α) (k : κ) (asifnow : TimePoint) : Expiring α × Cache κ α :=
  match c.themap k with
  | none => (default, c)
  | some v => if v.expired asifnow then (default, c.erase k) else (v, c)

/-- The map without the keys that `random_eviction` takes. -/
def evict (c : Cache κ α) (evicted : List κ) : Cache κ α :=
  { c with themap := fun k => if k ∈ evicted then none else c.themap k }

/-- `insert(k, v)`, with the keys that the evictions after it take. An entry that is there stays. -/
def insert (c : Cache κ α) (k : κ) (v : Expiring α) (evicted : List κ) : Cache κ α :=
  if c.maxSize = 0 then c
  else
    match c.themap k with
    | some _ => c.evict evicted
    | none => { c with themap := Function.update c.themap k (some v) }.evict evicted

end Cache

end Expiring

end Fs123
