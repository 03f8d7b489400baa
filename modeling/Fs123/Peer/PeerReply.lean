import Fs123.Client.CacheControl
import Fs123.Client.CacheImage
import Fs123.Peer.PeerUrl
import Fs123.Server.EtagRoundTrip

/-!
# The reply that a peer passes on

The model of the second half of `peer_handler_t::p`, which turns a `reply123` into an http reply, and of what
the requester's `getreply` makes of that. The times go through a `Cache-control` header: `cache_control` writes
`max_age()`, which is counted from `last_refresh`, and the requester counts it from the moment of receipt.
`hops_keep_iff` says when a reply survives this.
-/

namespace Fs123

open Cxx

/-! ## The two ends -/

/-- `cache_control(r)`. -/
def Reply123.cacheControl (r : Reply123) : Bytes :=
  bytes "max-age=" ++ decimalInt (r.maxAge.tdiv second) ++ bytes ",stale_while_revalidate="
    ++ decimalInt (r.staleWhileRevalidate.tdiv second)

namespace Req

variable (svr : Server) (nonce : Bytes)

/-- `add_header(name, value)`. -/
def addHeader (r : Req) (name value : Bytes) : Res Req :=
  if r.function ≠ bytes "p" then
    httpthrow 500 (bytes "handler called add_header while handling " ++ r.function ++ bytes " request")
  else r.addHdr svr.ev name value

/-- The `HHNO` header of `p`. -/
def addPeerNextoffset (r : Req) (reply : Reply123) : Res Req :=
  if reply.chunkNextMeta72 ≠ cnoMissing then
    r.addHeader svr hhNo (decimalInt reply.chunkNextOffset72
      ++ if reply.chunkNextMeta72 = cnoEof then bytes " EOF" else [])
  else .ok r

/-- The headers that `p` adds for a 7.2 client. -/
def addHeaders72 (r : Req) (reply : Reply123) : Res Req :=
  if r.protoMinor < 3 then do
    let r ← r.addHeader svr hhCookie (decimal reply.estaleCookie72)
    let r ← r.addHeader svr hhErrno (decimalInt reply.eno72)
    r.addPeerNextoffset svr reply
  else .ok r

/-- The `switch` on the encoding. -/
def addEncoding (r : Req) (reply : Reply123) : Res Req :=
  if reply.contentEncoding = ceFs123Secretbox then
    r.addHeader svr (bytes "Content-encoding") (bytes "fs123-secretbox")
  else if reply.contentEncoding = ceUnknown then
    httpthrow 500 (bytes "reply has unknown encoding.  This should have been caught earlier")
  else .ok r

/-- The `try` block of `p`, behind the call of `refresh`. -/
def passOn (r : Req) (reply : Reply123) (modified : Bool) : Res Sent :=
  if ¬ modified then r.notModifiedReply svr reply.cacheControl
  else do
    let r ← r.addHeaders72 svr reply
    let r ← r.addEncoding svr reply
    let r ← r.addHeader svr hhTrsum reply.contentThreeroe
    r.pReply svr nonce reply.content reply.etag64 reply.cacheControl

/-- `p` behind the call of `refresh`: an exception becomes an error reply. -/
def peerReply (r : Req) (uri : Bytes) (reply : Reply123) (modified : Bool) : Res Sent :=
  catchE (r.passOn svr nonce reply modified) fun e => .ok (exceptionReply
    (e.nest (.systemError .http 500)
      (httpException 500 (bytes "distrib_cache_backend::peer_handler::p: url:" ++ uri)).what))

end Req

/-! ## What the requester reads from `Cache-control` -/

theorem argChar_decimal {n : ℕ} : ∀ c ∈ decimal n, argChar c = true := by
  intro c hc
  obtain ⟨d, hd, rfl⟩ := List.mem_map.mp hc
  have hlt := decimalDigits_lt hd
  interval_cases d <;> decide

theorem argChar_decimalInt {z : ℤ} : ∀ c ∈ decimalInt z, argChar c = true := by
  intro c hc
  cases z with
  | ofNat n => exact argChar_decimal c hc
  | negSucc n =>
    rcases List.mem_cons.mp hc with rfl | hc
    · decide
    · exact argChar_decimal c hc

theorem isOws_nil : IsOws [] := fun _ hc => absurd hc List.not_mem_nil

theorem decimalInt_ne_nil (z : ℤ) : decimalInt z ≠ [] := by
  cases z with
  | ofNat n => exact decimal_ne_nil n
  | negSucc n => exact List.cons_ne_nil _ _

namespace Reply123

variable (r : Reply123)

/-- The directives of `cache_control`. The second is none that a client knows: it is spelt with underscores. -/
def ageDirectives : List Directive :=
  [⟨[], bytes "max-age", some (.token (decimalInt (r.maxAge.tdiv second)) argChar_decimalInt), [], isOws_nil,
      by decide, isOws_nil⟩,
    ⟨[], bytes "stale_while_revalidate", some (.token (decimalInt (r.staleWhileRevalidate.tdiv second))
      argChar_decimalInt), [], isOws_nil, by decide, isOws_nil⟩]

theorem cacheControl_eq_listText : r.cacheControl = listText r.ageDirectives := by
  have hmax : bytes "max-age=" = bytes "max-age" ++ [ch '='] := by decide
  have hswr : bytes ",stale_while_revalidate=" = ch ',' :: (bytes "stale_while_revalidate" ++ [ch '=']) := by decide
  rw [cacheControl, hmax, hswr]
  simp [ageDirectives, listText, Directive.text, Directive.core, Argument.text]

/-- The text is one word. -/
theorem argChar_cacheControl : ∀ c ∈ r.cacheControl, argChar c = true ∨ c = ch ',' := by
  intro c hc
  unfold cacheControl at hc
  simp only [List.mem_append] at hc
  rcases hc with ((hc | hc) | hc) | hc
  · left
    revert c
    decide +kernel
  · exact Or.inl (argChar_decimalInt c hc)
  · revert c
    decide +kernel
  · exact Or.inl (argChar_decimalInt c hc)

theorem trimOws_cacheControl : trimOws (cstr r.cacheControl) = r.cacheControl := by
  have hows : ∀ c ∈ r.cacheControl, c ≠ ch ' ' ∧ c ≠ ch '\t' := by
    intro c hc
    rcases r.argChar_cacheControl c hc with h | rfl
    · constructor
      all_goals
        rintro rfl
        exact absurd h (by decide)
    · decide
  have hnul : (0 : UInt8) ∉ r.cacheControl := by
    unfold cacheControl
    simp only [List.mem_append, not_or]
    exact ⟨⟨⟨by decide, not_mem_decimalInt (by decide) (by decide) _⟩, by decide⟩,
      not_mem_decimalInt (by decide) (by decide) _⟩
  rw [cstr_eq_self hnul]
  exact trimOws_eq_self (fun c hc => hows c (List.mem_of_mem_head? hc))
    (fun c hc => hows c (List.mem_of_mem_getLast? hc))

end Reply123

/-- A number of seconds is cut towards zero. -/
theorem InClock.tdiv_second {z : ℤ} (h : InClock z) : InClock (z.tdiv second * second) ∧ InClock (z.tdiv second) := by
  have hsplit := Int.tdiv_mul_add_tmod z second
  unfold InClock second at *
  rcases le_total 0 z with hz | hz
  · have hrest := Int.tmod_nonneg (1000000000 : ℤ) hz
    have hq := Int.tdiv_nonneg hz (show (0 : ℤ) ≤ 1000000000 by decide)
    omega
  · have hrest := Int.tmod_nonneg (1000000000 : ℤ) (Int.neg_nonneg.mpr hz)
    have hq := Int.tdiv_nonneg (Int.neg_nonneg.mpr hz) (show (0 : ℤ) ≤ 1000000000 by decide)
    rw [Int.neg_tmod] at hrest
    rw [Int.neg_tdiv] at hq
    omega

section CacheControl

variable {r : Reply123} {resp : HttpResponse} (hcc : resp.hdr (bytes "cache-control") = some r.cacheControl)

include hcc

/-- The seconds from `last_refresh` to `expires` arrive. -/
theorem getMaxAge_cacheControl (hmax : InClock r.maxAge) : resp.getMaxAge = .ok (r.maxAge.tdiv second) := by
  have hlookup : AgeKey.maxAge.lookup true r.cacheControl = some (decimalInt (r.maxAge.tdiv second)
      ++ (bytes ",stale_while_revalidate=" ++ decimalInt (r.staleWhileRevalidate.tdiv second))) := by
    have hkey : AgeKey.maxAge.key = bytes "max-age=" := by decide
    rw [Reply123.cacheControl, ← hkey, List.append_assoc, List.append_assoc]
    exact AgeKey.lookup_key (by simp [decimalInt_ne_nil])
  have hvalue : getKeyFromString r.cacheControl AgeKey.maxAge.key = decimalInt (r.maxAge.tdiv second) := by
    have hdigits : ∀ c ∈ decimalInt (r.maxAge.tdiv second), inValue c = true := by
      intro c hc
      have harg := argChar_decimalInt c hc
      unfold inValue
      rw [Bool.and_eq_true, decide_eq_true_eq, decide_eq_true_eq]
      constructor
      all_goals
        rintro rfl
        exact absurd harg (by decide)
    rw [getKeyFromString_eq hlookup, List.takeWhile_append_of_pos hdigits]
    exact List.append_nil _
  have hget : AgeKey.maxAge.get resp = .ok (r.maxAge.tdiv second) := by
    rw [AgeKey.get_eq_ok_iff hcc, hvalue, if_neg (decimalInt_ne_nil _)]
    exact svtoS_decimalInt (by decide) hmax.tdiv_second.2.1 hmax.tdiv_second.2.2
  exact hget

/-- The other directive is not found. -/
theorem getStaleWhileRevalidate_cacheControl : resp.getStaleWhileRevalidate = .ok 0 := by
  rw [r.cacheControl_eq_listText] at hcc
  refine AgeKey.get_absent (k := .staleWhileRevalidate) hcc fun d hd => ?_
  have hcases : (d.name = bytes "max-age" ∨ d.name = bytes "stale_while_revalidate")
      ∧ ∃ t h, d.arg = some (.token t h) := by
    rcases List.mem_cons.mp hd with rfl | hd
    · exact ⟨Or.inl rfl, _, _, rfl⟩
    · rw [List.mem_singleton.mp hd]
      exact ⟨Or.inr rfl, _, _, rfl⟩
  obtain ⟨hname, t, h, harg⟩ := hcases
  constructor
  · rcases hname with hname | hname
    all_goals
      rw [hname]
      decide
  · rintro ⟨q, hq, hquoted, -⟩
    rw [harg] at hquoted
    cases hquoted

end CacheControl

end Fs123
