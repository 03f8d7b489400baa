import Fs123.Peer.PeerReply
import Fs123.Server.Capacity

/-!
# A reply on its way from peer to peer

What is sent for a reply and what the next peer makes of it. The headers are found one by one in the list
that `p` leaves (`HttpResponse.hdr_append`); the content and its description come back as they were
(`getreply_response`), the times do not. `cache_control` sends `max_age()`, which is counted from the time of the
refresh, and no `Age`: the receiver counts from its own clock again. `hops_pass` says what there is at the end of
a chain of peers.
-/

namespace Fs123

open Cxx

/-! ## Headers -/

theorem HttpResponse.hdr_append (status : ℤ) (a b : List (Bytes × Bytes)) (body key : Bytes) :
    (⟨status, a ++ b, body⟩ : HttpResponse).hdr key
      = ((⟨status, b, body⟩ : HttpResponse).hdr key).or ((⟨status, a, body⟩ : HttpResponse).hdr key) := by
  simp only [HttpResponse.hdr, List.reverse_append, List.find?_append, Option.map_or]

theorem HttpResponse.hdr_singleton (status : ℤ) (name value body key : Bytes) :
    (⟨status, [(name, value)], body⟩ : HttpResponse).hdr key
      = if lower name = key then some (trimOws value) else none := by
  by_cases hname : lower name = key
  · simp [HttpResponse.hdr, hname]
  · simp [HttpResponse.hdr, hname]

theorem HttpResponse.hdr_cons (status : ℤ) (name value : Bytes) (b : List (Bytes × Bytes)) (body key : Bytes) :
    (⟨status, (name, value) :: b, body⟩ : HttpResponse).hdr key
      = ((⟨status, b, body⟩ : HttpResponse).hdr key).or
        (if lower name = key then some (trimOws value) else none) := by
  rw [← List.singleton_append, hdr_append, hdr_singleton]

theorem HttpResponse.hdr_nil (status : ℤ) (body key : Bytes) :
    (⟨status, [], body⟩ : HttpResponse).hdr key = none := rfl

/-- A text without white space and NULs arrives as it is. -/
theorem trimOws_cstr {v : Bytes} (h : ∀ c ∈ v, c ≠ 0 ∧ c ≠ ch ' ' ∧ c ≠ ch '\t') : trimOws (cstr v) = v := by
  rw [cstr_eq_self fun h0 => (h 0 h0).1 rfl]
  exact trimOws_eq_self (fun c hc => (h c (List.mem_of_mem_head? hc)).2)
    (fun c hc => (h c (List.mem_of_mem_getLast? hc)).2)

theorem trimOws_decimalInt (z : ℤ) : trimOws (cstr (decimalInt z)) = decimalInt z := by
  apply trimOws_cstr
  intro c hc
  have harg := argChar_decimalInt c hc
  refine ⟨?_, ?_, ?_⟩
  · rintro rfl
    exact not_mem_decimalInt (by decide) (by decide) z hc
  all_goals
    rintro rfl
    exact absurd harg (by decide)

theorem trimOws_decimal (n : ℕ) : trimOws (cstr (decimal n)) = decimal n := trimOws_decimalInt n

theorem trimOws_hexdigest (data : Bytes) : trimOws (cstr (hexdigest data)) = hexdigest data := by
  apply trimOws_cstr
  have hdigits : ∀ c ∈ bytes "0123456789abcdef", c ≠ 0 ∧ c ≠ ch ' ' ∧ c ≠ ch '\t' := by decide +kernel
  exact fun c hc => hdigits c (mem_hexdigest hc)

/-! ## What is sent -/

namespace Reply123

variable (r : Reply123)

/-- The value of the `HHNO` header. -/
def nextoffsetText : Bytes :=
  decimalInt r.chunkNextOffset72 ++ if r.chunkNextMeta72 = cnoEof then bytes " EOF" else []

/-- The headers for a 7.2 client. -/
def headers72 : List (Bytes × Bytes) :=
  [(hhCookie, cstr (decimal r.estaleCookie72)), (hhErrno, cstr (decimalInt r.eno72))]
    ++ if r.chunkNextMeta72 = cnoMissing then [] else [(hhNo, cstr r.nextoffsetText)]

/-- All headers of a reply that is passed on, in the order in which they are added. -/
def passedHeaders (minor : ℤ) : List (Bytes × Bytes) :=
  (if minor < 3 then r.headers72 else [])
    ++ (if r.contentEncoding = ceFs123Secretbox then [(bytes "Content-encoding", bytes "fs123-secretbox")] else [])
    ++ [(hhTrsum, cstr r.contentThreeroe), (bytes "Cache-control", cstr r.cacheControl),
      (bytes "Content-type", bytes "application/octet-stream")]
    ++ (if r.etag64 = 0 then [] else [(bytes "ETag", cstr (etagMangle r.etag64 []))])
    ++ [(hhTrsum, cstr (hexdigest r.content))]

end Reply123

namespace Req

variable {svr : Server} {nonce : Bytes} {hr : HttpRequest} {r r' : Req} {reply : Reply123} {sent : Sent}

theorem addHeader_eq_ok {name value : Bytes} (h : r.addHeader svr name value = .ok r') :
    r.function = bytes "p" ∧ r' = { r with ohdrs := r.ohdrs ++ [(name, cstr value)] } := by
  unfold addHeader at h
  split at h
  · simp [httpthrow] at h
  · next hfun => exact ⟨not_not.mp hfun, (addHdr_eq_ok_iff.mp h).2⟩

theorem addHeaders72_eq_ok (h : r.addHeaders72 svr reply = .ok r') :
    r' = { r with ohdrs := r.ohdrs ++ if r.protoMinor < 3 then reply.headers72 else [] } := by
  unfold addHeaders72 at h
  split at h
  · next hminor =>
    obtain ⟨r₁, h₁, h⟩ := bind_eq_ok_iff.mp h
    obtain ⟨r₂, h₂, h⟩ := bind_eq_ok_iff.mp h
    obtain ⟨-, rfl⟩ := addHeader_eq_ok h₁
    obtain ⟨-, rfl⟩ := addHeader_eq_ok h₂
    unfold addPeerNextoffset at h
    rw [if_pos hminor, Reply123.headers72]
    by_cases hmeta : reply.chunkNextMeta72 = cnoMissing
    · rw [if_neg (not_not.mpr hmeta), Except.ok.injEq] at h
      rw [← h, if_pos hmeta]
      simp
    · rw [if_pos hmeta] at h
      rw [(addHeader_eq_ok h).2, if_neg hmeta]
      simp [Reply123.nextoffsetText]
  · next hminor =>
    rw [Except.ok.injEq] at h
    rw [← h, if_neg hminor, List.append_nil]

theorem addEncoding_eq_ok (h : r.addEncoding svr reply = .ok r') :
    reply.contentEncoding ≠ ceUnknown
      ∧ r' = { r with ohdrs := r.ohdrs ++ if reply.contentEncoding = ceFs123Secretbox then
          [(bytes "Content-encoding", bytes "fs123-secretbox")] else [] } := by
  unfold addEncoding at h
  have hcstr : cstr (bytes "fs123-secretbox") = bytes "fs123-secretbox" := by decide
  split at h
  · next hce =>
    rw [if_pos hce, (addHeader_eq_ok h).2, hcstr, hce]
    exact ⟨by decide, rfl⟩
  · next hce =>
    split at h
    · simp [httpthrow] at h
    · next hunknown =>
      rw [Except.ok.injEq] at h
      rw [← h, if_neg hce, List.append_nil]
      exact ⟨hunknown, rfl⟩

/-- A `/p` reply is not encoded again. -/
theorem pReply_eq_ok {body cc : Bytes} {etag64 : ℕ} (h : r.pReply svr nonce body etag64 cc = .ok sent)
    (hfun : r.function = bytes "p") (hget : r.method = .GET) :
    sent = ⟨200, r.ohdrs ++ [(bytes "Cache-control", cstr cc), (bytes "Content-type", bytes "application/octet-stream")]
      ++ (if etag64 = 0 then [] else [(bytes "ETag", cstr (etagMangle etag64 []))])
      ++ [(hhTrsum, cstr (hexdigest body))], body⟩ := by
  have hcstr : cstr (bytes "application/octet-stream") = bytes "application/octet-stream" := by decide
  obtain ⟨-, -, h⟩ := bind_eq_ok_iff.mp h
  obtain ⟨r₁, h₁, h⟩ := bind_eq_ok_iff.mp h
  obtain ⟨-, -, rfl⟩ := copyToPbuf_eq_ok_iff.mp h₁
  unfold encryptAndSend200 at h
  obtain ⟨r₂, h₂, h⟩ := bind_eq_ok_iff.mp h
  obtain ⟨-, rfl⟩ := addHdr_eq_ok_iff.mp h₂
  obtain ⟨r₃, h₃, h⟩ := bind_eq_ok_iff.mp h
  obtain ⟨-, rfl⟩ := addHdr_eq_ok_iff.mp h₃
  obtain ⟨rq, hrq⟩ : ∃ rq : Req, rq = { r with ohdrs := r.ohdrs ++ [(bytes "Cache-control", cstr cc)]
      ++ [(bytes "Content-type", cstr (bytes "application/octet-stream"))] } := ⟨_, rfl⟩
  obtain ⟨r₄, h₄, h⟩ := bind_eq_ok_iff.mp h
  obtain rfl : rq.withBuf (zeros frontRoom) body (zeros backRoom) = r₄ := by
    rw [hrq]
    exact Except.ok.inj h₄
  obtain ⟨⟨r₅, esid⟩, h₅, h⟩ := bind_eq_ok_iff.mp h
  -- the function is `p`: no secret is used
  have hplain : (rq.withBuf (zeros frontRoom) body (zeros backRoom)).maybeEncodeContent svr nonce
      = .ok (rq.withBuf (zeros frontRoom) body (zeros backRoom), []) := by
    have hp : (rq.withBuf (zeros frontRoom) body (zeros backRoom)).function = bytes "p" := by rw [hrq]; exact hfun
    unfold maybeEncodeContent
    split
    · rfl
    · rw [if_pos hp]
  rw [hplain, Except.ok.injEq, Prod.mk.injEq] at h₅
  obtain ⟨rfl, rfl⟩ := h₅
  obtain ⟨r₆, h₆, h⟩ := bind_eq_ok_iff.mp h
  obtain ⟨r₇, h₇, h⟩ := bind_eq_ok_iff.mp h
  obtain ⟨r₈, h₈, h⟩ := bind_eq_ok_iff.mp h
  have hohdrs : (rq.withBuf (zeros frontRoom) body (zeros backRoom)).ohdrs = r.ohdrs
      ++ [(bytes "Cache-control", cstr cc), (bytes "Content-type", bytes "application/octet-stream")] := by
    rw [hrq, hcstr]
    exact List.append_assoc _ _ _
  have hm : r₇.method = .GET := by
    rw [addHdrIf_eq_ok h₇, addHdrIf_eq_ok h₆, hrq]
    exact hget
  have hbody : r₇.content = body := by
    rw [addHdrIf_eq_ok h₇, addHdrIf_eq_ok h₆]
    exact withBuf_content rq _ body _
  have hne : ¬ r₇.method = .HEAD := by rw [hm]; decide
  rw [Except.ok.injEq, if_neg hne, hbody] at h
  rw [← h, addHdrIf_eq_ok h₈, if_neg hne, hbody, hm, addHdrIf_eq_ok h₇, addHdrIf_eq_ok h₆]
  by_cases h0 : etag64 = 0
  · simp [h0, hohdrs]
  · simp [h0, hohdrs]

/-- What a successful `p` sends. -/
theorem passOn_eq_ok (hh : r.Handed svr hr) (hget : r.method = .GET)
    (h : r.passOn svr nonce reply true = .ok sent) :
    reply.contentEncoding ≠ ceUnknown ∧ sent = ⟨200, reply.passedHeaders r.protoMinor, reply.content⟩ := by
  unfold passOn at h
  rw [if_neg (by decide)] at h
  obtain ⟨r₁, h₁, h⟩ := bind_eq_ok_iff.mp h
  obtain ⟨r₂, h₂, h⟩ := bind_eq_ok_iff.mp h
  obtain ⟨r₃, h₃, h⟩ := bind_eq_ok_iff.mp h
  obtain rfl := addHeaders72_eq_ok h₁
  obtain ⟨hce, rfl⟩ := addEncoding_eq_ok h₂
  obtain ⟨hfun, rfl⟩ := addHeader_eq_ok h₃
  refine ⟨hce, (pReply_eq_ok h hfun hget).trans ?_⟩
  simp [Reply123.passedHeaders, hh.ohdrs]

theorem addHeader_ok (hl : svr.ev.Lawful) (hfun : r.function = bytes "p") {name value : Bytes} (hname : NoBreak name)
    (hvalue : NoBreak value) :
    r.addHeader svr name value = .ok { r with ohdrs := r.ohdrs ++ [(name, cstr value)] } := by
  rw [addHeader, if_neg (not_not.mpr hfun)]
  exact addHdr_ok hl r hname hvalue

theorem noBreak_decimalInt (z : ℤ) : NoBreak (decimalInt z) :=
  ⟨not_mem_decimalInt (by decide) (by decide) z, not_mem_decimalInt (by decide) (by decide) z⟩

theorem NoBreak.append {a b : Bytes} (ha : NoBreak a) (hb : NoBreak b) : NoBreak (a ++ b) := by
  unfold NoBreak at *
  simp [ha, hb]

theorem addHeaders72_ok (hl : svr.ev.Lawful) (hfun : r.function = bytes "p") (reply : Reply123) :
    ∃ hdrs, r.addHeaders72 svr reply = .ok { r with ohdrs := hdrs } := by
  have hsuffix : NoBreak (if reply.chunkNextMeta72 = cnoEof then bytes " EOF" else []) := by
    split
    all_goals decide
  have hnext : ∀ hdrs, ∃ hdrs', Req.addPeerNextoffset svr { r with ohdrs := hdrs } reply
      = .ok { r with ohdrs := hdrs' } := by
    intro hdrs
    unfold addPeerNextoffset
    split
    · exact ⟨_, addHeader_ok (r := { r with ohdrs := hdrs }) hl hfun (by decide)
        (NoBreak.append (noBreak_decimalInt _) hsuffix)⟩
    · exact ⟨hdrs, rfl⟩
  unfold addHeaders72
  split
  · obtain ⟨hdrs, hhdrs⟩ := hnext ((r.ohdrs ++ [(hhCookie, cstr (decimal reply.estaleCookie72))])
      ++ [(hhErrno, cstr (decimalInt reply.eno72))])
    have herrno := addHeader_ok (r := { r with ohdrs := r.ohdrs ++ [(hhCookie, cstr (decimal reply.estaleCookie72))] })
      hl hfun (show NoBreak hhErrno by decide) (noBreak_decimalInt reply.eno72)
    exact ⟨hdrs, bind_eq_ok_iff.mpr ⟨_, addHeader_ok hl hfun (by decide) (noBreak_decimal _),
      bind_eq_ok_iff.mpr ⟨_, herrno, hhdrs⟩⟩⟩
  · exact ⟨r.ohdrs, rfl⟩

theorem addEncoding_ok (hl : svr.ev.Lawful) (hfun : r.function = bytes "p")
    (hce : reply.contentEncoding ≠ ceUnknown) : ∃ hdrs, r.addEncoding svr reply = .ok { r with ohdrs := hdrs } := by
  unfold addEncoding
  split
  · exact ⟨_, addHeader_ok hl hfun (by decide) (by decide)⟩
  · exact ⟨r.ohdrs, rfl⟩

/-- Nothing goes wrong with a reply that fits. -/
theorem passOn_ok (hl : svr.ev.Lawful) (hna : svr.na.Lawful) (hu : svr.Usable)
    (hnonce : nonce.length = secretboxNoncebytes) (hh : r.Handed svr hr) (hfun : r.function = bytes "p")
    (hce : reply.contentEncoding ≠ ceUnknown) (hthreeroe : NoBreak reply.contentThreeroe)
    (hlen : reply.content.length ≤ maxReplySize) : ∃ sent, r.passOn svr nonce reply true = .ok sent := by
  obtain ⟨h₁, heq₁⟩ := addHeaders72_ok hl hfun reply
  obtain ⟨h₂, heq₂⟩ := addEncoding_ok (r := { r with ohdrs := h₁ }) hl hfun hce
  have heq₃ := addHeader_ok (r := { r with ohdrs := h₂ }) hl hfun (show NoBreak hhTrsum by decide) hthreeroe
  obtain ⟨rq, hrq⟩ : ∃ rq : Req, rq = { r with ohdrs := h₂ ++ [(hhTrsum, cstr reply.contentThreeroe)] } := ⟨_, rfl⟩
  have hcc : NoBreak reply.cacheControl := by
    constructor
    all_goals
      intro hmem
      exact absurd (reply.argChar_cacheControl _ hmem) (by decide)
  have hblob : rq.blob = none := by
    rw [hrq]
    exact hh.blob_eq_none (by rw [hfun]; decide) (by rw [hfun]; decide)
  have hacc : rq.mayUseSecrets svr = true → rq.acceptEncoding = ceFs123Secretbox := by
    rw [hrq]
    exact hh.accept
  obtain ⟨sent, hsent⟩ := encryptAndSend200_ok (r := rq) (f := zeros frontRoom) (c := reply.content)
    (b := zeros backRoom) hl hna hu hnonce hcc
    (small_of_le (by rw [zeros_length]; omega) (by rw [zeros_length]; omega)) (by rw [zeros_length]; decide)
    (by rw [zeros_length]; decide) hacc reply.etag64
  have hp : rq.function = bytes "p" := by rw [hrq]; exact hfun
  refine ⟨sent, ?_⟩
  rw [passOn, if_neg (by decide), heq₁, ok_bind, heq₂, ok_bind, heq₃, ok_bind, ← hrq, pReply,
    expectFunction_eq_ok hp, ok_bind, copyToPbuf_eq_ok_iff.mpr ⟨hblob, hlen, rfl⟩, ok_bind]
  exact hsent

/-- What is sent when the backend has not modified the reply. -/
theorem passOn_not_modified (hl : svr.ev.Lawful) (hh : r.Handed svr hr) (hne : r.inm ≠ []) (hinm : NoBreak r.inm)
    (reply : Reply123) : r.passOn svr nonce reply false
      = .ok ⟨304, [(bytes "ETag", cstr r.inm), (bytes "Cache-control", cstr reply.cacheControl)], []⟩ := by
  have hcc : NoBreak reply.cacheControl := by
    constructor
    all_goals
      intro hmem
      exact absurd (reply.argChar_cacheControl _ hmem) (by decide)
  rw [passOn, if_pos (by decide), notModifiedReply, if_neg hne, addHdr_ok hl r (by decide) hinm, ok_bind,
    addHdr_ok hl _ (by decide) hcc, ok_bind]
  simp [hh.ohdrs]

end Req

/-! ## What is received -/

namespace Reply123

/-- What `getreply` has made of a response of this protocol version. -/
structure Passable (minor : ℕ) (r : Reply123) : Prop where
  magic : r.magic = replyMagic
  threeroe : r.contentThreeroe = hexdigest r.content
  encoding : r.contentEncoding = ceIdent ∨ r.contentEncoding = ceFs123Secretbox
  etag : r.etag64 < 2 ^ 64
  maxAge : InClock r.maxAge
  eno : 0 ≤ r.eno72 ∧ r.eno72 < 2 ^ 31
  cookie : r.estaleCookie72 < 2 ^ 64
  cookie_eno : r.eno72 = 0 ∨ r.estaleCookie72 = 0
  next : (r.chunkNextMeta72 = cnoMissing ∧ r.chunkNextOffset72 = -1)
    ∨ (r.eno72 = 0 ∧ (r.chunkNextMeta72 = cnoNotEof ∨ r.chunkNextMeta72 = cnoEof)
      ∧ -2 ^ 63 ≤ r.chunkNextOffset72 ∧ r.chunkNextOffset72 < 2 ^ 63)
  only72 : minor < 3 ∨ (r.eno72 = 0 ∧ r.estaleCookie72 = 0 ∧ r.chunkNextMeta72 = cnoMissing)

/-- The times of a reply that is received at `now`, for what was sent for the age `age`. -/
def timed (r : Reply123) (age now : ℤ) : Reply123 :=
  { r with
    lastRefresh := now
    expires := now + age.tdiv second * second
    staleWhileRevalidate := 0 }

variable {r : Reply123} {minor : ℕ}

/-- The response for a reply that is passed on. -/
def response (r : Reply123) (minor : ℕ) : HttpResponse := ⟨200, r.passedHeaders minor, r.content⟩

section Headers

theorem hdr_age : (r.response minor).hdr (bytes "age") = none := by
  unfold response passedHeaders headers72
  split_ifs
  all_goals
    simp +decide [HttpResponse.hdr_cons, HttpResponse.hdr_nil]

theorem hdr_cacheControl : (r.response minor).hdr (bytes "cache-control") = some r.cacheControl := by
  unfold response passedHeaders headers72
  split_ifs
  all_goals
    simp +decide [HttpResponse.hdr_cons, HttpResponse.hdr_nil, r.trimOws_cacheControl]

theorem hdr_trsum : (r.response minor).hdr hhTrsum = some (hexdigest r.content) := by
  unfold response passedHeaders headers72
  split_ifs
  all_goals
    simp +decide [HttpResponse.hdr_cons, HttpResponse.hdr_nil, trimOws_hexdigest]

theorem hdr_encoding : (r.response minor).hdr (bytes "content-encoding")
    = if r.contentEncoding = ceFs123Secretbox then some (bytes "fs123-secretbox") else none := by
  unfold response passedHeaders headers72
  split_ifs
  all_goals
    simp +decide [HttpResponse.hdr_cons, HttpResponse.hdr_nil]

theorem hdr_etag : (r.response minor).hdr (bytes "etag")
    = if r.etag64 = 0 then none else some (trimOws (cstr (etagMangle r.etag64 []))) := by
  unfold response passedHeaders headers72
  split_ifs
  all_goals
    simp +decide [HttpResponse.hdr_cons, HttpResponse.hdr_nil]

theorem hdr_cookie : (r.response minor).hdr hhCookie
    = if (minor : ℤ) < 3 then some (decimal r.estaleCookie72) else none := by
  unfold response passedHeaders headers72
  split_ifs
  all_goals
    simp +decide [HttpResponse.hdr_cons, HttpResponse.hdr_nil, trimOws_decimal]

theorem hdr_errno : (r.response minor).hdr hhErrno
    = if (minor : ℤ) < 3 then some (decimalInt r.eno72) else none := by
  unfold response passedHeaders headers72
  split_ifs
  all_goals
    simp +decide [HttpResponse.hdr_cons, HttpResponse.hdr_nil, trimOws_decimalInt]

theorem hdr_nextoffset (hminor : (minor : ℤ) < 3) : (r.response minor).hdr hhNo
    = if r.chunkNextMeta72 = cnoMissing then none else some (trimOws (cstr r.nextoffsetText)) := by
  unfold response passedHeaders headers72
  rw [if_pos hminor]
  split_ifs
  all_goals
    simp +decide [HttpResponse.hdr_cons, HttpResponse.hdr_nil]

end Headers

theorem getEtag64_response (h : r.etag64 < 2 ^ 64) : (r.response minor).getEtag64 = .ok r.etag64 := by
  unfold HttpResponse.getEtag64
  rw [r.hdr_etag]
  by_cases h0 : r.etag64 = 0
  · rw [if_pos h0, h0]
  · have hmangled : etagMangle r.etag64 [] = [ch '"'] ++ decimal r.etag64 ++ [ch '"'] := by
      simp [etagMangle]
    have htrim : trimOws (cstr (etagMangle r.etag64 [])) = etagMangle r.etag64 [] := by
      have hnul : (0 : UInt8) ∉ etagMangle r.etag64 [] := by
        rw [hmangled]
        simp only [List.mem_append, List.mem_singleton, not_or]
        exact ⟨⟨by decide, not_mem_decimal (by decide) _⟩, by decide⟩
      rw [cstr_eq_self hnul, hmangled]
      refine trimOws_eq_self ?_ ?_
      · intro c hc
        obtain rfl : ch '"' = c := by simpa using hc
        decide
      · intro c hc
        rw [List.getLast?_append_of_ne_nil _ (by simp)] at hc
        obtain rfl : ch '"' = c := by simpa using hc
        decide
    rw [if_neg h0, htrim, hmangled]
    exact parseQuotedEtag_decimal h

theorem checkTrsum_response {r' : Reply123} (h : r'.contentThreeroe = hexdigest r.content) :
    (r.response minor).checkTrsum r' = .ok () := by
  unfold HttpResponse.checkTrsum
  rw [r.hdr_trsum]
  dsimp only
  exact if_pos ((findStr_isSome_iff _ _).mpr (by rw [h]))

/-- A 7.2 receiver reads the next offset back. -/
theorem readNextoffset_response {r' : Reply123} (hminor : (minor : ℤ) < 3)
    (hmeta : r.chunkNextMeta72 = cnoNotEof ∨ r.chunkNextMeta72 = cnoEof)
    (hlo : -2 ^ 63 ≤ r.chunkNextOffset72) (hhi : r.chunkNextOffset72 < 2 ^ 63) :
    (r.response minor).readNextoffset r' = .ok { r' with
      chunkNextOffset72 := r.chunkNextOffset72, chunkNextMeta72 := r.chunkNextMeta72 } := by
  have hpresent : r.chunkNextMeta72 ≠ cnoMissing := by
    rcases hmeta with h | h
    all_goals
      rw [h]
      decide
  unfold HttpResponse.readNextoffset
  rw [r.hdr_nextoffset hminor, if_neg hpresent, nextoffsetText]
  rcases hmeta with h | h
  · rw [h, if_neg (by decide), List.append_nil, trimOws_decimalInt]
    have hscan : scanintS 64 0 true (decimalInt r.chunkNextOffset72) 0
        = .ok (r.chunkNextOffset72, 0 + (decimalInt r.chunkNextOffset72).length) :=
      scanintS_decimalInt (by decide) hlo hhi (by simp) EndsNumber.nil
    simp [hscan, bind, Except.bind, cstr]
  · have hnul : (0 : UInt8) ∉ decimalInt r.chunkNextOffset72 ++ bytes " EOF" := by
      rw [List.mem_append, not_or]
      exact ⟨not_mem_decimalInt (by decide) (by decide) _, by decide⟩
    have htrim : trimOws (cstr (decimalInt r.chunkNextOffset72 ++ bytes " EOF"))
        = decimalInt r.chunkNextOffset72 ++ bytes " EOF" := by
      rw [cstr_eq_self hnul]
      refine trimOws_eq_self ?_ ?_
      · intro c hc
        rw [List.head?_append_of_ne_nil _ (decimalInt_ne_nil _)] at hc
        have harg := argChar_decimalInt c (List.mem_of_mem_head? hc)
        constructor
        all_goals
          rintro rfl
          exact absurd harg (by decide)
      · intro c hc
        have hlast : (bytes " EOF").getLast? = some (ch 'F') := by decide
        rw [List.getLast?_append_of_ne_nil _ (by decide), hlast, Option.some.injEq] at hc
        rw [← hc]
        decide
    rw [h, if_pos rfl, htrim]
    have hscan : scanintS 64 0 true (decimalInt r.chunkNextOffset72 ++ bytes " EOF") 0
        = .ok (r.chunkNextOffset72, 0 + (decimalInt r.chunkNextOffset72).length) :=
      scanintS_decimalInt (by decide) hlo hhi (List.drop_zero) (EndsNumber.cons (c := ch ' ') (bytes "EOF") (by decide))
    have hwords : cstr ((bytes " EOF").dropWhile isspace) = bytes "EOF" := by decide
    simp +decide [hscan, bind, Except.bind, hwords]

/-- What comes of a reply: its times are counted anew, everything else is what it was. -/
theorem getreply_response (hp : r.Passable minor) (now : ℤ) (held : Reply123) :
    (r.response minor).getreply minor now held = .ok (r.timed r.maxAge now, true) := by
  have hce : encodingStoi (((r.response minor).hdr (bytes "content-encoding")).getD []) = r.contentEncoding := by
    rw [r.hdr_encoding]
    rcases hp.encoding with h | h
    · rw [h]
      decide
    · rw [h]
      decide
  have hage : (r.response minor).getAge = .ok 0 := by
    rw [HttpResponse.getAge, r.hdr_age]
    rfl
  have hmax : (r.response minor).getMaxAge = _ := getMaxAge_cacheControl r.hdr_cacheControl hp.maxAge
  have hswr : (r.response minor).getStaleWhileRevalidate = _ := getStaleWhileRevalidate_cacheControl r.hdr_cacheControl
  have hcode : (r.response minor).httpCode = 200 := rfl
  have hcontent : (r.response minor).content = r.content := rfl
  unfold HttpResponse.getreply
  rw [if_neg (by rw [hcode]; decide), hage, ok_bind, hmax, ok_bind, hswr, ok_bind, if_neg (by rw [hcode]; decide)]
  unfold HttpResponse.getreply200
  rw [hce, hcontent, getEtag64_response hp.etag]
  by_cases hminor : minor < 3
  · have hint : (minor : ℤ) < 3 := by exact_mod_cast hminor
    have herrno : (r.response minor).getErrno72 = .ok r.eno72 := by
      rw [HttpResponse.getErrno72, r.hdr_errno, if_pos hint]
      exact svtoS_decimalInt (by decide) (le_trans (by decide) hp.eno.1) hp.eno.2
    have hcookie : (r.response minor).getCookie72 = .ok r.estaleCookie72 := by
      rw [HttpResponse.getCookie72, r.hdr_cookie, if_pos hint]
      exact svtoU_decimal hp.cookie
    obtain ⟨made, hmade, hfields⟩ : ∃ made, ofResponse72 now r.eno72 r.estaleCookie72 r.content r.contentEncoding 0
        (r.maxAge.tdiv second) r.etag64 0 = .ok made
        ∧ made = { r.timed r.maxAge now with chunkNextOffset72 := -1, chunkNextMeta72 := cnoMissing } := by
      refine ⟨_, ?_, rfl⟩
      have hne : ¬ (r.eno72 ≠ 0 ∧ r.estaleCookie72 ≠ 0) := by
        rcases hp.cookie_eno with h | h
        · simp [h]
        · simp [h]
      simp [ofResponse72, if_neg hne, setTimes, valid, hp.eno.1, miss, timed, hp.magic, hp.threeroe]
    have hsum : made.contentThreeroe = hexdigest r.content := by
      rw [hfields]
      exact hp.threeroe
    simp only [if_pos hminor, herrno, hcookie, hmade, ok_bind, checkTrsum_response hsum]
    rcases hp.next with ⟨hmeta, hoff⟩ | ⟨heno, hmeta, hlo, hhi⟩
    · have hself : made = r.timed r.maxAge now := by
        rw [hfields, ← hmeta, ← hoff]
        rfl
      by_cases heno : r.eno72 = 0
      · have hnone : (r.response minor).readNextoffset made = .ok made := by
          rw [HttpResponse.readNextoffset, r.hdr_nextoffset hint, if_pos hmeta]
        rw [if_neg (not_not.mpr heno), hnone, hself]
        rfl
      · rw [if_pos heno, hself]
        rfl
    · rw [if_neg (not_not.mpr heno), readNextoffset_response hint hmeta hlo hhi, hfields]
      rfl
  · obtain ⟨heno, hcookie, hmeta⟩ := hp.only72.resolve_left hminor
    have hoff : r.chunkNextOffset72 = -1 := by
      rcases hp.next with ⟨-, h⟩ | ⟨-, h | h, -⟩
      · exact h
      all_goals
        rw [hmeta] at h
        exact absurd h (by decide)
    have hint : ¬ (minor : ℤ) < 3 := by exact_mod_cast hminor
    have hcookie72 : (r.response minor).getCookie72 = .ok 0 := by
      rw [HttpResponse.getCookie72, r.hdr_cookie, if_neg hint]
    have hmade : ofResponse73 now r.content r.contentEncoding 0 (r.maxAge.tdiv second) r.etag64 0
        = .ok (r.timed r.maxAge now) := by
      simp [ofResponse73, setTimes, valid, miss, timed, hp.magic, hp.threeroe, heno, hcookie, hmeta, hoff]
    have hsum : (r.timed r.maxAge now).contentThreeroe = hexdigest r.content := hp.threeroe
    simp only [if_neg hminor, hcookie72, hmade, ok_bind, checkTrsum_response hsum]

/-- A response that says that nothing was modified: the reply that is held gets the same times. -/
theorem getreply_not_modified (hmax : InClock r.maxAge) (inm : Bytes) (now : ℤ) (held : Reply123) :
    (⟨304, [(bytes "ETag", inm), (bytes "Cache-control", cstr r.cacheControl)], []⟩ : HttpResponse).getreply minor now
      held = .ok (held.timed r.maxAge now, false) := by
  obtain ⟨resp, hresp⟩ : ∃ resp : HttpResponse,
      resp = ⟨304, [(bytes "ETag", inm), (bytes "Cache-control", cstr r.cacheControl)], []⟩ := ⟨_, rfl⟩
  have hcc : resp.hdr (bytes "cache-control") = some r.cacheControl := by
    rw [hresp]
    simp +decide [HttpResponse.hdr_cons, HttpResponse.hdr_nil, r.trimOws_cacheControl]
  have hage : resp.getAge = .ok 0 := by
    have hnone : resp.hdr (bytes "age") = none := by
      rw [hresp]
      simp +decide [HttpResponse.hdr_cons, HttpResponse.hdr_nil]
    rw [HttpResponse.getAge, hnone]
    rfl
  have hcode : resp.httpCode = 304 := by rw [hresp]
  rw [← hresp, HttpResponse.getreply, if_neg (by rw [hcode]; decide), hage, ok_bind, getMaxAge_cacheControl hcc hmax,
    ok_bind, getStaleWhileRevalidate_cacheControl hcc, ok_bind, if_pos hcode]
  simp [Reply123.timed]

@[simp] theorem maxAge_timed (r : Reply123) (age now : ℤ) : (r.timed age now).maxAge = age.tdiv second * second :=
  add_sub_cancel_left _ _

theorem Passable.timed (h : r.Passable minor) (now : ℤ) : (r.timed r.maxAge now).Passable minor :=
  { h with maxAge := by rw [maxAge_timed]; exact h.maxAge.tdiv_second.1 }

/-- The seconds are cut off at the first peer only. -/
theorem timed_timed (r : Reply123) (age t now : ℤ) :
    (r.timed age t).timed (age.tdiv second * second) now = r.timed age now := by
  rw [Reply123.timed, Int.mul_tdiv_cancel _ (by decide)]
  rfl

end Reply123

/-! ## A chain of peers -/

/-- A peer that is asked for a reply, and the one that asks, with its clock at the receipt and what it held before. -/
structure Hop where
  svr : Server
  nonce : Bytes
  hr : HttpRequest
  req : Req
  minor : ℕ
  now : ℤ
  held : Reply123
  ev_lawful : svr.ev.Lawful
  na_lawful : svr.na.Lawful
  usable : svr.Usable
  nonce_length : nonce.length = secretboxNoncebytes
  handed : req.Handed svr hr
  function_p : req.function = bytes "p"
  get : req.method = .GET
  minor_eq : req.protoMinor = minor

namespace Hop

/-- What the peer's backend has returned goes through `p` and `getreply`. -/
def pass (h : Hop) (reply : Reply123 × Bool) : Res (Reply123 × Bool) := do
  let sent ← h.req.passOn h.svr h.nonce reply.1 reply.2
  sent.response.getreply h.minor h.now h.held

variable {h last : Hop} {hops : List Hop} {r : Reply123}

theorem pass_modified (hp : r.Passable h.minor) (hlen : r.content.length ≤ maxReplySize) :
    h.pass (r, true) = .ok (r.timed r.maxAge h.now, true) := by
  have hce : r.contentEncoding ≠ ceUnknown := by
    rcases hp.encoding with hce | hce
    all_goals
      rw [hce]
      decide
  obtain ⟨sent, hsent⟩ := Req.passOn_ok h.ev_lawful h.na_lawful h.usable h.nonce_length h.handed h.function_p hce
    (hp.threeroe ▸ Req.noBreak_hexdigest r.content) hlen
  obtain ⟨-, rfl⟩ := Req.passOn_eq_ok h.handed h.get hsent
  refine bind_eq_ok_iff.mpr ⟨_, hsent, ?_⟩
  rw [h.minor_eq]
  exact Reply123.getreply_response hp h.now h.held

theorem pass_not_modified (hmax : InClock r.maxAge) (hne : h.req.inm ≠ []) (hinm : NoBreak h.req.inm) :
    h.pass (r, false) = .ok (h.held.timed r.maxAge h.now, false) :=
  bind_eq_ok_iff.mpr ⟨_, Req.passOn_not_modified h.ev_lawful h.handed hne hinm r,
    Reply123.getreply_not_modified hmax _ h.now h.held⟩

/-- Everything that the peers of a chain need to pass a reply on. -/
def Passes (hops : List Hop) (r : Reply123) : Bool → Prop
  | true => (∀ h ∈ hops, r.Passable h.minor) ∧ r.content.length ≤ maxReplySize
  | false => InClock r.maxAge ∧ ∀ h ∈ hops, h.req.inm ≠ [] ∧ NoBreak h.req.inm

theorem Passes.head {modified : Bool} (hp : Passes (h :: hops) r modified) :
    h.pass (r, modified) = .ok ((if modified then r else h.held).timed r.maxAge h.now, modified) := by
  cases modified with
  | true => exact pass_modified (hp.1 h List.mem_cons_self) hp.2
  | false =>
    obtain ⟨hne, hinm⟩ := hp.2 h List.mem_cons_self
    exact pass_not_modified hp.1 hne hinm

theorem Passes.tail {modified : Bool} (hp : Passes (h :: hops) r modified) :
    Passes hops ((if modified then r else h.held).timed r.maxAge h.now) modified := by
  cases modified with
  | true => exact ⟨fun h' hh' => (hp.1 h' (List.mem_cons_of_mem _ hh')).timed _, hp.2⟩
  | false =>
    refine ⟨?_, fun h' hh' => hp.2 h' (List.mem_cons_of_mem _ hh')⟩
    rw [Reply123.maxAge_timed]
    exact hp.1.tdiv_second.1

/-- However many peers pass a reply on, the last one has what the first one had, or what it held itself if nothing
was modified, and it has it for as many whole seconds from the receipt on as the first one had it from its
refresh on: it expires no later only if the chain took less than the fraction that is cut off. What there was to
be revalidated in the background is gone. -/
theorem hops_pass {modified : Bool} (hp : Passes (hops ++ [last]) r modified) :
    ∃ r', (hops ++ [last]).foldlM (fun reply h => h.pass reply) (r, modified) = .ok (r', modified)
      ∧ r' = (if modified then r else last.held).timed r.maxAge last.now
      ∧ (r'.expires ≤ r.expires ↔ last.now ≤ r.lastRefresh + r.maxAge.tmod second) := by
  refine ⟨_, ?_, rfl, ?_⟩
  · induction hops generalizing r with
    | nil =>
      rw [List.nil_append, List.foldlM_cons, hp.head]
      rfl
    | cons h hops ih =>
      rw [List.cons_append, List.foldlM_cons, hp.head, ok_bind, ih hp.tail, Reply123.maxAge_timed]
      cases modified with
      | true => exact congrArg (fun x => Except.ok (x, true)) (r.timed_timed _ _ _)
      | false =>
        have htimed : ∀ r' : Reply123, r'.timed (r.maxAge.tdiv second * second) last.now = r'.timed r.maxAge last.now := by
          intro r'
          rw [Reply123.timed, Int.mul_tdiv_cancel _ (by decide)]
          rfl
        exact congrArg (fun x => Except.ok (x, false)) (htimed _)
  · have hsplit := Int.tdiv_mul_add_tmod r.maxAge second
    have hexp : r.expires = r.lastRefresh + r.maxAge := by
      rw [Reply123.maxAge]
      omega
    dsimp only [Reply123.timed]
    constructor
    all_goals
      intro h
      omega

/-- A `/p` request at 7.3. -/
private def peerHttp : HttpRequest := ⟨bytes "/fs123/7/3/p/1/a/x", .GET, none, none, []⟩

private def peerReq : Req :=
  { Req.ofHttp peerHttp with
    protoMinor := 3
    function := bytes "p"
    pathInfo := bytes "/1/a/x" }

private theorem parse_peerHttp : Req.parse statsServer peerHttp = .ok (peerReq, .p 0 []) := by decide

/-- A hop that ends at `now`. -/
private def hopAt (now : ℤ) : Hop where
  svr := statsServer
  nonce := upTo 24
  hr := peerHttp
  req := peerReq
  minor := 3
  now := now
  held := .miss
  ev_lawful := libevent_lawful
  na_lawful := Sodium.ofTable_lawful _ _ _
  usable := ⟨by simp [statsServer]⟩
  nonce_length := by decide
  handed := Req.parse_handed parse_peerHttp
  function_p := rfl
  get := rfl
  minor_eq := rfl

/-- A reply that was refreshed at second 100 and lives for a minute. -/
private def minuteReply : Reply123 :=
  { Reply123.miss with
    eno72 := 0
    lastRefresh := 100 * second
    expires := 160 * second
    staleWhileRevalidate := 30 * second
    etag64 := 7
    contentEncoding := ceIdent
    contentThreeroe := hexdigest (bytes "ok")
    content := bytes "ok" }

/-- Two hops, ten seconds each, make it live for twenty seconds more. -/
theorem hops_pass_twice : ∃ r', [hopAt (110 * second), hopAt (120 * second)].foldlM (fun reply h => h.pass reply)
    (minuteReply, true) = .ok (r', true) ∧ r'.expires = 180 * second ∧ r'.staleWhileRevalidate = 0 := by
  have hpassable : minuteReply.Passable 3 :=
    ⟨rfl, rfl, Or.inl rfl, by decide, by decide, by decide, by decide, Or.inl rfl, Or.inl ⟨rfl, rfl⟩,
      Or.inr ⟨rfl, rfl, rfl⟩⟩
  have hp : Passes ([hopAt (110 * second)] ++ [hopAt (120 * second)]) minuteReply true := by
    refine ⟨?_, by decide⟩
    intro h hh
    rcases List.mem_cons.mp hh with rfl | hh
    · exact hpassable
    · rw [List.mem_singleton.mp hh]
      exact hpassable
  obtain ⟨r', hrun, hr', -⟩ := hops_pass hp
  refine ⟨r', hrun, ?_, ?_⟩
  · rw [hr']
    decide
  · rw [hr']
    rfl

end Hop

end Fs123
