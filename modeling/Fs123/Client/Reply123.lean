import Fs123.Core.Exn
import Fs123.Core.Threeroe

/-!
# The reply record of the client's backends

`Reply123` is `reply123` of `backend123.hpp`. Times are nanoseconds since the epoch, as in
`std::chrono::system_clock`, and durations are nanoseconds.
-/

namespace Fs123

open Cxx

/-- One second, in the clock's ticks. -/
def second : ℤ := 1000000000

/-- `content_codec`'s encodings: `CE_IDENT`, `CE_FS123_SECRETBOX` and `CE_UNKNOWN`. The field that holds
one is an `int16_t` and may hold anything when it comes from a file. -/
def ceIdent : ℤ := 1

@[inherit_doc ceIdent] def ceFs123Secretbox : ℤ := 2

@[inherit_doc ceIdent] def ceUnknown : ℤ := 3

/-- The values of `chunk_next_meta72`. -/
def cnoMissing : ℤ := 0

@[inherit_doc cnoMissing] def cnoNotEof : ℤ := 1

@[inherit_doc cnoMissing] def cnoEof : ℤ := 2

/-- `struct reply123`. -/
structure Reply123 where
  magic : ℤ
  eno72 : ℤ
  expires : ℤ
  etag64 : ℕ
  lastRefresh : ℤ
  staleWhileRevalidate : ℤ
  estaleCookie72 : ℕ
  chunkNextOffset72 : ℤ
  chunkNextMeta72 : ℤ
  contentEncoding : ℤ
  contentThreeroe : Bytes
  content : Bytes
  deriving Repr, DecidableEq

/-- `reply123::MAGIC`. -/
def replyMagic : ℤ := 223606797

namespace Reply123

/-- `valid()`. -/
def valid (r : Reply123) : Bool := 0 ≤ r.eno72

/-- `max_age()`. -/
def maxAge (r : Reply123) : ℤ := r.expires - r.lastRefresh

/-- `ttl()`, at the clock reading `now`. -/
def ttl (r : Reply123) (now : ℤ) : ℤ := r.expires - now

/-- `fresh()`, at the clock reading `now`. -/
def fresh (r : Reply123) (now : ℤ) : Bool := r.valid && now < r.expires

/-- The default constructor: the reply of a cache miss. -/
def miss : Reply123 where
  magic := replyMagic
  eno72 := -1
  expires := 0
  etag64 := 0
  lastRefresh := 0
  staleWhileRevalidate := 0
  estaleCookie72 := 0
  chunkNextOffset72 := -1
  chunkNextMeta72 := cnoMissing
  contentEncoding := 0
  contentThreeroe := hexdigest []
  content := []

theorem not_valid_miss : miss.valid = false := rfl

end Reply123

end Fs123
