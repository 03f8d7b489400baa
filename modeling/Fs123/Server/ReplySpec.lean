import Fs123.Server.Handed

/-!
# What the reply members do

Every member but `p_reply` is some preparation followed by `common_reply200`. `build_eq` gives the request
at that point for a reply that keeps to its contract: its key/value pairs are the echo and the member's own
(`HandlerReply.kvs`), and its buffer holds the content (`HandlerReply.content`) with the room of the
request around it. `commonReply200_carries` says what is then sent.
-/

namespace Fs123

open Cxx

/-! ## Sending -/

/-- The encoding that a list of headers announces, as the client reads it. -/
def headersEncoding (hdrs : List (Bytes × Bytes)) : ℤ :=
  encodingStoi (((hdrs.find? fun h => lower h.1 = bytes "content-encoding").map Prod.snd).getD [])

theorem headersEncoding_nil : headersEncoding [] = ceIdent := by decide

theorem headersEncoding_cons_ne {name : Bytes} (h : lower name ≠ bytes "content-encoding")
    (value : Bytes) (hdrs : List (Bytes × Bytes)) :
    headersEncoding ((name, value) :: hdrs) = headersEncoding hdrs := by
  rw [headersEncoding, List.find?_cons_of_neg (by simpa using h), ← headersEncoding]

theorem headersEncoding_cons (value : Bytes) (hdrs : List (Bytes × Bytes)) :
    headersEncoding ((bytes "Content-encoding", value) :: hdrs) = encodingStoi value := by
  have h : lower (bytes "Content-encoding") = bytes "content-encoding" := by decide
  rw [headersEncoding, List.find?_cons_of_pos (by simpa using h)]
  rfl

/-- The encoding of a reply. -/
def Sent.contentEncoding (sent : Sent) : ℤ := headersEncoding sent.headers

/-- The reply carries a plaintext: as it is, or in an envelope under the server's secret. -/
inductive Sent.Carries (svr : Server) (nonce plain : Bytes) (sent : Sent) : Prop
  | ident : sent.contentEncoding = ceIdent → sent.body = plain → Carries svr nonce plain sent
  | secretbox (sm : SecretManager) (sid secret : Bytes) : svr.secretManager = some sm →
      sm.getEncodeSid = .ok sid → sm.getSharedkey sid = .ok secret → 0 < sid.length →
      sid.length ≤ 255 → secretboxKeybytes ≤ secret.length →
      sent.contentEncoding = ceFs123Secretbox →
      sent.body = envelope svr.na sid secret nonce secretboxPadding plain →
      Carries svr nonce plain sent

namespace Req

theorem addHdr_eq_ok_iff {r r' : Req} {ev : Evhttp} {name value : Bytes} :
    r.addHdr ev name value = .ok r'
      ↔ ev.headerOk name (cstr value) = true
        ∧ r' = { r with ohdrs := r.ohdrs ++ [(name, cstr value)] } := by
  unfold addHdr
  split
  · next h =>
    rw [Except.ok.injEq]
    constructor
    · intro hr
      exact ⟨h, hr.symm⟩
    · intro hr
      exact hr.2.symm
  · next h => simp [throwSe, h]

/-- A conditional header changes the headers only. -/
theorem addHdrIf_eq_ok {r r' : Req} {ev : Evhttp} {cond : Bool} {name value : Bytes}
    (h : r.addHdrIf ev cond name value = .ok r') :
    r' = { r with ohdrs := r.ohdrs ++ if cond then [(name, cstr value)] else [] } := by
  unfold addHdrIf at h
  split at h
  · next hc =>
    rw [if_pos hc]
    exact (addHdr_eq_ok_iff.mp h).2
  · next hc =>
    rw [Except.ok.injEq] at h
    rw [if_neg hc, List.append_nil, h]

/-- The encoding step, when it succeeds. -/
theorem maybeEncodeContent_ok {svr : Server} {nonce : Bytes} (hna : svr.na.Lawful)
    (hnonce : nonce.length = secretboxNoncebytes) {r r' : Req} {f c b esid : Bytes}
    (hsmall : Small f c b)
    (h : (r.withBuf f c b).maybeEncodeContent svr nonce = .ok (r', esid)) :
    r'.ohdrs = r.ohdrs ∧ r'.method = r.method
      ∧ ((esid = [] ∧ r'.content = c)
        ∨ ∃ sm secret, svr.secretManager = some sm ∧ sm.getEncodeSid = .ok esid
          ∧ sm.getSharedkey esid = .ok secret ∧ 0 < esid.length ∧ esid.length ≤ 255
          ∧ secretboxKeybytes ≤ secret.length
          ∧ r'.content = envelope svr.na esid secret nonce secretboxPadding c) := by
  unfold maybeEncodeContent at h
  split at h
  · rw [Except.ok.injEq, Prod.mk.injEq] at h
    obtain ⟨rfl, rfl⟩ := h
    exact ⟨rfl, rfl, Or.inl ⟨rfl, withBuf_content r f c b⟩⟩
  · next sm hsm =>
    split_ifs at h with hp hacc
    · rw [Except.ok.injEq, Prod.mk.injEq] at h
      obtain ⟨rfl, rfl⟩ := h
      exact ⟨rfl, rfl, Or.inl ⟨rfl, withBuf_content r f c b⟩⟩
    · simp [httpthrow] at h
    · rw [not_not] at hacc
      obtain ⟨sid, hsid, h⟩ := bind_eq_ok_iff.mp h
      obtain ⟨secret, hsecret, h⟩ := bind_eq_ok_iff.mp h
      have hmem : ((r.withBuf f c b).blob.getD []) = f ++ c ++ b := rfl
      rw [hacc, hmem] at h
      rcases heq : encode svr.na ceFs123Secretbox sid secret (f ++ c ++ b) (r.withBuf f c b).buf
        secretboxPadding (.random nonce) with ⟨res, mem⟩
      rw [heq] at h
      dsimp only at h
      obtain ⟨buf, hres, hfin⟩ := bind_eq_ok_iff.mp h
      subst hres
      rw [Except.ok.injEq, Prod.mk.injEq] at hfin
      obtain ⟨rfl, rfl⟩ := hfin
      -- `encode` did not throw, so its conditions hold.
      have henc : Encodable sid secret f c b := by
        by_contra hne
        exact (encode_withBuf_throws r hsmall hne).not_ok buf (congrArg Prod.fst heq)
      obtain ⟨buf', mem', heq', hbytes⟩ := encode_withBuf r hna hsmall hnonce henc
      rw [heq, Prod.mk.injEq, Except.ok.injEq] at heq'
      obtain ⟨rfl, rfl⟩ := heq'
      exact ⟨rfl, rfl, Or.inr ⟨sm, secret, hsm, hsid, hsecret, henc.sid_pos, henc.sid_le, henc.secret,
        hbytes⟩⟩

theorem encryptAndSend200_carries {svr : Server} {nonce : Bytes} (hna : svr.na.Lawful)
    (hnonce : nonce.length = secretboxNoncebytes) {r : Req} {f c b cc : Bytes} {etag64 : ℕ} {sent : Sent}
    (hsmall : Small f c b) (hget : r.method = .GET) (hoh : r.ohdrs = [])
    (h : (r.withBuf f c b).encryptAndSend200 svr nonce cc etag64 = .ok sent) :
    sent.Carries svr nonce c := by
  unfold encryptAndSend200 at h
  obtain ⟨r₁, h₁, h⟩ := bind_eq_ok_iff.mp h
  obtain ⟨-, rfl⟩ := addHdr_eq_ok_iff.mp h₁
  obtain ⟨r₂, h₂, h⟩ := bind_eq_ok_iff.mp h
  obtain ⟨-, rfl⟩ := addHdr_eq_ok_iff.mp h₂
  obtain ⟨r₃, h₃, h⟩ := bind_eq_ok_iff.mp h
  obtain ⟨rq, hrq⟩ : ∃ rq : Req, rq = { r with ohdrs := r.ohdrs
      ++ [(bytes "Cache-control", cstr cc)]
      ++ [(bytes "Content-type", cstr (bytes "application/octet-stream"))] } := ⟨_, rfl⟩
  obtain rfl : rq.withBuf f c b = r₃ := by
    rw [hrq]
    exact Except.ok.inj h₃
  obtain ⟨⟨r₄, esid⟩, h₄, h⟩ := bind_eq_ok_iff.mp h
  obtain ⟨hoh₄, hm₄, henc⟩ := maybeEncodeContent_ok hna hnonce hsmall h₄
  obtain ⟨r₅, h₅, h⟩ := bind_eq_ok_iff.mp h
  have h₅' := addHdrIf_eq_ok h₅
  obtain ⟨r₆, h₆, h⟩ := bind_eq_ok_iff.mp h
  have h₆' := addHdrIf_eq_ok h₆
  obtain ⟨r₇, h₇, h⟩ := bind_eq_ok_iff.mp h
  have h₇' := addHdrIf_eq_ok h₇
  rw [Except.ok.injEq] at h
  have hm₆ : r₆.method = .GET := by
    rw [h₆', h₅']
    simp only [hm₄, hrq, hget]
  have hcontent : r₆.content = r₄.content := by
    rw [h₆', h₅']
    rfl
  have hbody : sent.body = r₄.content := by
    rw [← h, hm₆]
    exact hcontent
  -- Only the encryption adds a `Content-encoding`.
  have hce : sent.contentEncoding = if esid ≠ [] then ceFs123Secretbox else ceIdent := by
    have htail : headersEncoding ((if etag64 ≠ 0 then
        [(bytes "ETag", cstr (etagMangle etag64 esid))] else [])
        ++ [(hhTrsum, cstr (hexdigest r₄.content))]) = ceIdent := by
      split
      · rw [List.singleton_append, headersEncoding_cons_ne (by decide),
          headersEncoding_cons_ne (by decide), headersEncoding_nil]
      · rw [List.nil_append, headersEncoding_cons_ne (by decide), headersEncoding_nil]
    have hhdrs : sent.headers = [(bytes "Cache-control", cstr cc),
        (bytes "Content-type", cstr (bytes "application/octet-stream"))]
        ++ ((if esid ≠ [] then [(bytes "Content-encoding", cstr (bytes "fs123-secretbox"))] else [])
        ++ ((if etag64 ≠ 0 then [(bytes "ETag", cstr (etagMangle etag64 esid))] else [])
        ++ [(hhTrsum, cstr (hexdigest r₄.content))])) := by
      rw [← h, h₇', hm₆, hcontent, h₆', h₅']
      simp [hoh₄, hrq, hoh]
    rw [Sent.contentEncoding, hhdrs, List.cons_append, List.cons_append, List.nil_append,
      headersEncoding_cons_ne (by decide), headersEncoding_cons_ne (by decide)]
    split
    · rw [List.singleton_append, headersEncoding_cons]
      decide
    · exact htail
  rcases henc with ⟨rfl, hplain⟩ | ⟨sm, secret, hsm, hsid, hsecret, hpos, hle, hlen, hbox⟩
  · refine Sent.Carries.ident ?_ (hbody.trans hplain)
    simpa using hce
  · have hne : esid ≠ [] := by
      rintro rfl
      simp at hpos
    refine Sent.Carries.secretbox sm esid secret hsm hsid hsecret hpos hle hlen ?_ (hbody.trans hbox)
    simpa [hne] using hce

/-! ## When sending succeeds -/

end Req

/-- A server with secrets has a secret to encode with. -/
structure Server.Usable (svr : Server) : Prop where
  secret : ∀ sm, svr.secretManager = some sm → ∃ sid secret, sm.getEncodeSid = .ok sid
    ∧ sm.getSharedkey sid = .ok secret ∧ 0 < sid.length ∧ sid.length ≤ 255
    ∧ secretboxKeybytes ≤ secret.length

/-- The bytes that encryption puts in front of a reply: the authenticator and the header with the secret
id. -/
def Server.overhead (svr : Server) (r : Req) : ℕ :=
  if r.mayUseSecrets svr then (svr.encodeSid.toOption.getD []).length + 45 else 0

namespace Req

variable {svr : Server} {nonce : Bytes}

theorem addHdr_ok (hl : svr.ev.Lawful) (r : Req) {name value : Bytes} (hname : NoBreak name)
    (hvalue : NoBreak value) :
    r.addHdr svr.ev name value = .ok { r with ohdrs := r.ohdrs ++ [(name, cstr value)] } :=
  addHdr_eq_ok_iff.mpr ⟨hl.headerOk _ _ hname hvalue.cstr, rfl⟩

theorem addHdrIf_ok (hl : svr.ev.Lawful) (r : Req) (cond : Bool) {name value : Bytes}
    (hname : NoBreak name) (hvalue : NoBreak value) :
    ∃ hdrs, r.addHdrIf svr.ev cond name value = .ok { r with ohdrs := hdrs } := by
  unfold addHdrIf
  split
  · exact ⟨_, addHdr_ok hl r hname hvalue⟩
  · exact ⟨r.ohdrs, rfl⟩

/-- The digits of a number are no line breaks. -/
theorem noBreak_decimal (n : ℕ) : NoBreak (decimal n) :=
  ⟨not_mem_decimal (by decide) n, not_mem_decimal (by decide) n⟩

theorem noBreak_etagMangle (etag : ℕ) (esid : Bytes) : NoBreak (etagMangle etag esid) := by
  have h := noBreak_decimal (etag ^^^ if esid = [] then 0 else threeroeHash64 esid)
  have h1 : ch '\r' ≠ ch '"' := by decide
  have h2 : ch '\n' ≠ ch '"' := by decide
  refine ⟨?_, ?_⟩
  · simpa [etagMangle, h1] using h.1
  · simpa [etagMangle, h2] using h.2

theorem noBreak_hexdigest (data : Bytes) : NoBreak (hexdigest data) :=
  NoBreak.of_forall (fun _ hc => mem_hexdigest hc) (by decide) (by decide)

/-- The encoding step needs room in front for its overhead, and nothing else that a usable server does
not have. -/
theorem maybeEncodeContent_total (hna : svr.na.Lawful) (hu : svr.Usable)
    (hnonce : nonce.length = secretboxNoncebytes) {r : Req} {f c b : Bytes} (hsmall : Small f c b)
    (hb : secretboxPadding ≤ b.length)
    (hacc : r.mayUseSecrets svr = true → r.acceptEncoding = ceFs123Secretbox) :
    (svr.overhead r ≤ f.length →
        ∃ blob buf esid, (r.withBuf f c b).maybeEncodeContent svr nonce
          = .ok ({ r with blob := blob, buf := buf }, esid))
      ∧ (f.length < svr.overhead r → Throws ((r.withBuf f c b).maybeEncodeContent svr nonce)) := by
  unfold maybeEncodeContent Server.overhead Server.encodeSid
  cases hsm : svr.secretManager with
  | none =>
    have hno : r.mayUseSecrets svr = false := by simp [mayUseSecrets, hsm]
    rw [hno]
    exact ⟨fun _ => ⟨_, _, [], rfl⟩, fun h => absurd h (by simp)⟩
  | some sm =>
    by_cases hp : r.function = bytes "p"
    · have hno : r.mayUseSecrets svr = false := by simp [mayUseSecrets, hp]
      dsimp only
      rw [hno, withBuf_function, if_pos hp]
      exact ⟨fun _ => ⟨_, _, [], rfl⟩, fun h => absurd h (by simp)⟩
    · have hyes : r.mayUseSecrets svr = true := by simp [mayUseSecrets, hsm, hp]
      obtain ⟨sid, secret, hsid, hsecret, hpos, hle, hlen⟩ := hu.secret sm hsm
      have hce : (r.withBuf f c b).acceptEncoding = ceFs123Secretbox := hacc hyes
      have hmem : ((r.withBuf f c b).blob.getD []) = f ++ c ++ b := rfl
      have hpad : padding secretboxPadding c.length ≤ secretboxPadding := Nat.sub_le _ _
      simp only [hyes, if_true, withBuf_function, if_neg hp, hce, ne_eq, not_true_eq_false, if_false,
        hsid, hsecret, bind, Except.bind, hmem, Except.toOption, Option.getD_some]
      refine ⟨fun hroom => ?_, fun hroom => ?_⟩
      · have he : Encodable sid secret f c b := ⟨hpos, hle, hlen, hroom, hpad.trans hb⟩
        obtain ⟨buf, mem, henc, -⟩ := encode_withBuf r hna hsmall hnonce he
        rw [henc]
        refine ⟨some mem, buf, sid, ?_⟩
        simp only [← hacc hyes]
        rfl
      · have hno : ¬ Encodable sid secret f c b := fun henc => absurd henc.front (by omega)
        obtain ⟨e, he⟩ : Throws (encode svr.na ceFs123Secretbox sid secret (f ++ c ++ b)
            (r.withBuf f c b).buf secretboxPadding (.random nonce)).1 :=
          encode_withBuf_throws r hsmall hno
        rw [he]
        exact ⟨e, rfl⟩

/-- Sending succeeds exactly when there is room for the overhead of the encryption. -/
theorem encryptAndSend200_total (hl : svr.ev.Lawful) (hna : svr.na.Lawful) (hu : svr.Usable)
    (hnonce : nonce.length = secretboxNoncebytes) {r : Req} {f c b cc : Bytes}
    (hsmall : Small f c b) (hb : secretboxPadding ≤ b.length)
    (hcc : NoBreak cc) (hacc : r.mayUseSecrets svr = true → r.acceptEncoding = ceFs123Secretbox)
    (etag64 : ℕ) :
    (svr.overhead r ≤ f.length →
        ∃ sent, (r.withBuf f c b).encryptAndSend200 svr nonce cc etag64 = .ok sent)
      ∧ (f.length < svr.overhead r →
        Throws ((r.withBuf f c b).encryptAndSend200 svr nonce cc etag64)) := by
  obtain ⟨rq, hrq⟩ : ∃ rq : Req, rq = { r with ohdrs := r.ohdrs
      ++ [(bytes "Cache-control", cstr cc)]
      ++ [(bytes "Content-type", cstr (bytes "application/octet-stream"))] } := ⟨_, rfl⟩
  have hover : svr.overhead rq = svr.overhead r := by rw [hrq]; rfl
  have henc := maybeEncodeContent_total (r := rq) hna hu hnonce hsmall hb
    (by rw [hrq]; exact hacc)
  rw [hover] at henc
  unfold encryptAndSend200
  rw [addHdr_ok hl _ (by decide) hcc]
  simp only [bind, Except.bind]
  rw [addHdr_ok hl _ (by decide) (by decide)]
  have hens : ensurePbuf { { r.withBuf f c b with
      ohdrs := (r.withBuf f c b).ohdrs ++ [(bytes "Cache-control", cstr cc)] } with
      ohdrs := (r.withBuf f c b).ohdrs ++ [(bytes "Cache-control", cstr cc)]
        ++ [(bytes "Content-type", cstr (bytes "application/octet-stream"))] }
      = .ok (rq.withBuf f c b) := by
    rw [hrq]
    rfl
  simp only [hens]
  refine ⟨fun hroom => ?_, fun hroom => ?_⟩
  · obtain ⟨blob, buf, esid, heq⟩ := henc.1 hroom
    simp only [heq]
    obtain ⟨h₁, heq₁⟩ := addHdrIf_ok hl { rq with blob := blob, buf := buf } (decide (esid ≠ []))
      (show NoBreak (bytes "Content-encoding") by decide)
      (show NoBreak (bytes "fs123-secretbox") by decide)
    rw [heq₁]
    obtain ⟨h₂, heq₂⟩ := addHdrIf_ok hl { rq with blob := blob, buf := buf, ohdrs := h₁ }
      (decide (etag64 ≠ 0)) (show NoBreak (bytes "ETag") by decide)
      (noBreak_etagMangle etag64 esid)
    dsimp only
    rw [heq₂]
    obtain ⟨h₃, heq₃⟩ := addHdrIf_ok hl { rq with blob := blob, buf := buf, ohdrs := h₂ }
      (decide (rq.method = .GET)) (show NoBreak hhTrsum by decide)
      (noBreak_hexdigest (if rq.method = .HEAD then [] else
        content { rq with blob := blob, buf := buf, ohdrs := h₂ }))
    dsimp only
    rw [heq₃]
    exact ⟨_, rfl⟩
  · obtain ⟨e, he⟩ := henc.2 hroom
    rw [he]
    exact ⟨e, rfl⟩

theorem ensurePbuf_unallocated {r : Req} (h : r.blob = none) :
    r.ensurePbuf = .ok (r.withBuf (zeros frontRoom) [] (zeros backRoom)) := by
  rw [ensurePbuf, if_pos (by simp [h]), allocatePbuf_eq_ok_iff]
  exact ⟨h, Nat.zero_le _, by rw [Nat.zero_add]⟩

theorem frame73_unallocated {r : Req} (h : r.blob = none) :
    r.frame73 = (r.withBuf (zeros frontRoom) [] (zeros backRoom)).frame73 := by
  unfold frame73
  rw [ensurePbuf_unallocated h, withBuf_ensurePbuf]

/-- A 7.3 reply that is sent carries the framed content, and the framing has fitted in front of it. -/
theorem commonReply200_carries {svr : Server} {nonce : Bytes} (hna : svr.na.Lawful)
    (hnonce : nonce.length = secretboxNoncebytes) {r : Req} {f c b cc : Bytes} {etag64 : ℕ} {sent : Sent}
    (hsmall : Small f c b) (hb : 2 ≤ b.length)
    (h3 : 3 ≤ r.protoMinor) (hget : r.method = .GET) (hoh : r.ohdrs = [])
    (h : (r.withBuf f c b).commonReply200 svr nonce cc etag64 = .ok sent) :
    sent.Carries svr nonce (frame r.kvpairs c) ∧ headerBytes r.kvpairs c.length ≤ f.length := by
  unfold commonReply200 at h
  obtain ⟨r₁, h₁, h⟩ := bind_eq_ok_iff.mp h
  rw [finishBody, if_pos (show 3 ≤ (r.withBuf f c b).protoMinor from h3)] at h₁
  have hfit : headerBytes r.kvpairs c.length ≤ f.length := by
    by_contra hlt
    exact (frame73_withBuf_throws r hsmall hb (by omega)).not_ok r₁ h₁
  obtain ⟨f', hf', heq⟩ := frame73_withBuf r hsmall hb hfit
  rw [heq, Except.ok.injEq] at h₁
  subst h₁
  have hlen := frame_length r.kvpairs c
  refine ⟨encryptAndSend200_carries hna hnonce ?_ hget hoh h, hfit⟩
  unfold Small at hsmall ⊢
  rw [List.length_drop]
  omega

end Req

/-! ## The members -/

namespace HandlerReply

/-- Every member but `p_reply` frames its content. -/
def framed : HandlerReply → Bool
  | .p _ _ => false
  | _ => true

/-- The pairs that the member adds to a 7.3 reply. -/
def kvs : HandlerReply → List (Bytes × Bytes)
  | .a _ validator esc => [(keyCookie, decimal esc), (keyValidator, decimal validator)]
  | .d nextstart _ esc => [(keyCookie, decimal esc), (keyNextstart, nextstart)]
  | .f _ validator _ esc => [(keyCookie, decimal esc), (keyValidator, decimal validator)]
  | .errno eno => [(keyErrno, decimalInt eno)]
  | _ => []

/-- The content that the member puts into the buffer or finds there. -/
def content (svr : Server) (r : Req) : HandlerReply → Bytes
  | .a sb validator _ => if 3 ≤ r.protoMinor then sb.text else sb.text ++ [ch '\n'] ++ decimal validator
  | .d _ _ _ => r.content
  | .f written _ _ _ => written
  | .l target => target
  | .s sv => sv.text
  | .x xattr => xattr
  | .n body => body ++ svr.serverStats
  | .p body _ => body
  | .errno _ => r.content

/-- The etag that the member passes on. -/
def etag64 : HandlerReply → ℕ
  | .d _ etag64 _ => etag64
  | .f _ _ etag64 _ => etag64
  | .p _ etag64 => etag64
  | _ => 0

/-- The contract of the reply members: the handler answers the request it was given, within the limits. -/
def Contract (svr : Server) (r : Req) (rep : HandlerReply) : Prop :=
  match rep with
  | .a _ _ _ => r.function = bytes "a" ∧ (rep.content svr r).length ≤ maxReplySize
  | .d nextstart _ _ => r.function = bytes "d" ∧ (r.buf.size = 0 → nextstart = [])
      ∧ (r.protoMinor < 3 → nextstart = [] ∨ ∃ n, svtoU 64 nextstart = .ok n)
  | .f written _ _ _ => r.function = bytes "f" ∧ written.length ≤ r.requestedLen
  | .l _ => r.function = bytes "l" ∧ (rep.content svr r).length ≤ maxReplySize
  | .s _ => r.function = bytes "s" ∧ (rep.content svr r).length ≤ maxReplySize
  | .x _ => r.function = bytes "x" ∧ (rep.content svr r).length ≤ maxReplySize
  | .n _ => r.function = bytes "n" ∧ (rep.content svr r).length ≤ maxReplySize
  | .p _ _ => r.function = bytes "p" ∧ (rep.content svr r).length ≤ maxReplySize
  | .errno _ => True

end HandlerReply

namespace Req

/-- The room in front of the content of a request. -/
def front (r : Req) : ℕ := frontRoom + if r.function = bytes "f" then validatorSpace else 0

/-- The request with more key/value pairs. -/
def addKvs (r : Req) (kvs : List (Bytes × Bytes)) : Req := { r with kvpairs := r.kvpairs ++ kvs }

variable {svr : Server} {hr : HttpRequest} {r : Req} {nonce cc : Bytes}

theorem Handed.blob_eq_none (hh : r.Handed svr hr) (hd : r.function ≠ bytes "d")
    (hf : r.function ≠ bytes "f") : r.blob = none := by
  cases hh.buf with
  | unallocated _ _ h => exact h
  | dir c b h => exact absurd h hd
  | file b h => exact absurd h hf

/-- The buffer regions of a reply in the making. -/
structure Regions (r : Req) (f c b : Bytes) : Prop where
  front : f.length = r.front
  back : backRoom ≤ b.length
  size : c.length + b.length ≤ maxReplySize + backRoom

theorem Regions.small {f c b : Bytes} (h : r.Regions f c b) : Small f c b := by
  refine small_of_le ?_ ?_
  · have : r.front ≤ 2 * frontRoom := by
      unfold Req.front
      split <;> decide
    rw [h.front]
    exact this
  · have := h.size
    omega

theorem Regions.header_lt {f c b : Bytes} (h : r.Regions f c b) :
    f.length + c.length + 66 < 2 ^ 32 := by
  have hfront : r.front ≤ 2 * frontRoom := by
    unfold Req.front
    split <;> decide
  have hsum : 2 * frontRoom + (maxReplySize + backRoom) + 66 < 2 ^ 32 := by decide
  have := h.size
  have := h.front
  omega

/-- A 7.3 reply is sent exactly when the pairs, the framing and the overhead of the encryption fit in front
of the content. -/
theorem Regions.commonReply200_total {f c b : Bytes} (h : r.Regions f c b) (r' : Req)
    (hl : svr.ev.Lawful) (hna : svr.na.Lawful) (hu : svr.Usable)
    (hnonce : nonce.length = secretboxNoncebytes) (h3 : 3 ≤ r'.protoMinor) (hcc : NoBreak cc)
    (hacc : r'.mayUseSecrets svr = true → r'.acceptEncoding = ceFs123Secretbox) (etag64 : ℕ) :
    (headerBytes r'.kvpairs c.length + svr.overhead r' ≤ f.length →
        ∃ sent, (r'.withBuf f c b).commonReply200 svr nonce cc etag64 = .ok sent)
      ∧ (f.length < headerBytes r'.kvpairs c.length + svr.overhead r' →
        Throws ((r'.withBuf f c b).commonReply200 svr nonce cc etag64)) := by
  have hsmall := h.small
  have hback : 34 ≤ b.length := h.back
  unfold commonReply200 finishBody
  rw [if_pos (show 3 ≤ (r'.withBuf f c b).protoMinor from h3)]
  by_cases hfit : headerBytes r'.kvpairs c.length ≤ f.length
  · obtain ⟨f', hf', heq⟩ := frame73_withBuf r' hsmall (by omega) hfit
    have hlen := frame_length r'.kvpairs c
    have hsmall' : Small f' (frame r'.kvpairs c) (b.drop 2) := by
      unfold Small at hsmall ⊢
      rw [List.length_drop]
      omega
    have htotal := encryptAndSend200_total hl hna hu hnonce hsmall'
      (by rw [List.length_drop, secretboxPadding]; omega) hcc hacc etag64
    rw [heq]
    exact ⟨fun hroom => htotal.1 (by omega), fun hroom => htotal.2 (by omega)⟩
  · refine ⟨fun hroom => absurd hroom (by omega), fun _ => ?_⟩
    exact (frame73_withBuf_throws r' hsmall (by omega) (by omega)).bind _

/-- The regions after `copy_to_pbuf`. -/
theorem regions_copy {s : Bytes} (hf : r.function ≠ bytes "f") (hs : s.length ≤ maxReplySize) :
    r.Regions (zeros frontRoom) s (zeros backRoom) := by
  refine ⟨?_, ?_, ?_⟩
  · rw [Req.front, if_neg hf, zeros_length, Nat.add_zero]
  · rw [zeros_length]
  · rw [zeros_length]
    omega

theorem expectFunction_eq_ok {f name : Bytes} (h : r.function = f) :
    r.expectFunction f name = .ok () := by
  rw [expectFunction, if_neg (by simp [h])]

theorem expectFunction_inv {f name : Bytes} {u : Unit} (h : r.expectFunction f name = .ok u) :
    r.function = f := by
  unfold expectFunction at h
  split at h
  · simp [httpthrow] at h
  · next hf => exact not_not.mp hf

/-- The handler's writes and `grow_back` make the written bytes the content. -/
theorem fill_growBack {f b w : Bytes} (h : Small f [] b) (hw : w.length ≤ b.length) :
    ∃ buf, ((r.withBuf f [] b).fill w).buf.growBack w.length = .ok buf
      ∧ { (r.withBuf f [] b).fill w with buf := buf } = r.withBuf f w (b.drop w.length) := by
  have hsmall : Small f [] (w ++ b.drop w.length) := by
    unfold Small at h ⊢
    rw [List.length_append, List.length_drop]
    omega
  have hfill : (r.withBuf f [] b).fill w = r.withBuf f [] (w ++ b.drop w.length) := by
    have hwrite : writeAt (f ++ [] ++ b) f.length w = f ++ [] ++ (w ++ b.drop w.length) := by
      have := writeAt_append_mid f (b.take w.length) (b.drop w.length) w rfl
        (by rw [List.length_take]; omega)
      rw [List.append_assoc, List.take_append_drop] at this
      rw [List.append_nil, this, List.append_assoc]
    simp only [fill, withBuf, Option.map_some, hwrite, List.length_append, List.length_drop]
    congr 2
    omega
  rw [hfill]
  have h64 : (2 : ℕ) ^ 63 < sizeMod := by decide
  refine ⟨⟨f.length, w.length, 0, f.length + 0 + (w ++ b.drop w.length).length⟩, ?_, ?_⟩
  · unfold Small at h
    unfold PaddedUcharSpan.growBack
    rw [withBuf_size, List.length_nil, addW_eq (by omega), Nat.add_zero,
      (withBuf_wf r hsmall).subspan_eq_ok]
    · simp [withBuf]
    · simp only [withBuf]
      omega
    · simp only [withBuf, List.length_append, List.length_nil]
      push_cast
      omega
  · simp only [withBuf, List.append_nil, List.length_append, List.append_assoc]
    congr 2
    omega

theorem addKv_addKv (k v k' v' : Bytes) : (r.addKv k v).addKv k' v' = r.addKvs [(k, v), (k', v')] := by
  simp [addKv, addKvs]

@[simp] theorem addKvs_nil : r.addKvs [] = r := by
  simp [addKvs]

theorem copyReply_eq {f name s : Bytes} (hf : r.function = f) (hblob : r.blob = none)
    (hs : s.length ≤ maxReplySize) :
    r.copyReply svr nonce f name s cc
      = (r.withBuf (zeros frontRoom) s (zeros backRoom)).commonReply200 svr nonce cc 0 := by
  rw [copyReply, expectFunction_eq_ok hf]
  simp only [bind, Except.bind]
  rw [copyToPbuf_eq_ok_iff.mpr ⟨hblob, hs, rfl⟩]

/-- Up to `common_reply200`, a 7.3 reply within its contract only fills in the pairs and the buffer. -/
theorem Handed.build_eq {rep : HandlerReply} (hh : r.Handed svr hr) (nonce cc : Bytes) (h3 : 3 ≤ r.protoMinor)
    (hc : rep.Contract svr r) (hfr : rep.framed = true) :
    ∃ f b, r.Regions f (rep.content svr r) b
      ∧ rep.build svr nonce r cc
        = ((r.addKvs rep.kvs).withBuf f (rep.content svr r) b).commonReply200 svr nonce cc rep.etag64 := by
  -- The members that copy their content.
  have hcopy : ∀ {fn name s : Bytes}, r.function = fn → fn ≠ bytes "d" → fn ≠ bytes "f" →
      s.length ≤ maxReplySize → ∃ f b, r.Regions f s b ∧ r.copyReply svr nonce fn name s cc
        = ((r.addKvs []).withBuf f s b).commonReply200 svr nonce cc 0 := by
    intro fn name s hfn hd hf hs
    refine ⟨zeros frontRoom, zeros backRoom, regions_copy (hfn ▸ hf) hs, ?_⟩
    rw [addKvs_nil, copyReply_eq hfn (hh.blob_eq_none (hfn ▸ hd) (hfn ▸ hf)) hs]
  cases rep with
  | a sb validator esc =>
    obtain ⟨hfn, hlen⟩ := hc
    simp only [HandlerReply.content, if_pos h3] at hlen ⊢
    have hblob : r.blob = none := hh.blob_eq_none (by rw [hfn]; decide) (by rw [hfn]; decide)
    refine ⟨zeros frontRoom, zeros backRoom, regions_copy (by rw [hfn]; decide) hlen, ?_⟩
    rw [HandlerReply.build, aReply, expectFunction_eq_ok hfn]
    simp only [bind, Except.bind, if_pos h3, addKv_addKv]
    rw [copyToPbuf_eq_ok_iff.mpr ⟨show (r.addKvs _).blob = none from hblob, hlen, rfl⟩]
    rfl
  | d nextstart etag64 esc =>
    obtain ⟨hfn, hne, -⟩ := hc
    cases hh.buf with
    | unallocated hd => exact absurd hfn hd
    | file b hf => exact absurd (hfn.symm.trans hf) (by decide)
    | dir c b _ hbuf hback hsum =>
      have hcont : r.content = c := by rw [hbuf, withBuf_content]
      simp only [HandlerReply.content, hcont]
      refine ⟨zeros frontRoom, b, ⟨?_, hback, hsum⟩, ?_⟩
      · rw [Req.front, if_neg (by rw [hfn]; decide), zeros_length, Nat.add_zero]
      · rw [HandlerReply.build, dReply, expectFunction_eq_ok hfn]
        simp only [bind, Except.bind]
        rw [if_neg (by intro hbad; exact hbad.2 (hne hbad.1)), if_pos h3, addKv_addKv]
        conv_lhs => rw [hbuf]
        rfl
  | f written validator etag64 esc =>
    obtain ⟨hfn, hlen⟩ := hc
    cases hh.buf with
    | unallocated _ hf => exact absurd hfn hf
    | dir c b hd => exact absurd (hd.symm.trans hfn) (by decide)
    | file b _ hbuf hback hsum =>
      have hsmall : Small (zeros (frontRoom + validatorSpace)) [] b :=
        small_of_le (by rw [zeros_length]; decide) (by
          simp only [List.length_nil]
          omega)
      obtain ⟨buf, hgrow, hreq⟩ := fill_growBack (r := r) (w := written) hsmall (by omega)
      rw [← hbuf] at hgrow hreq
      simp only [HandlerReply.content]
      refine ⟨zeros (frontRoom + validatorSpace), b.drop written.length, ⟨?_, ?_, ?_⟩, ?_⟩
      · rw [Req.front, if_pos hfn, zeros_length]
      · rw [List.length_drop]
        omega
      · rw [List.length_drop]
        omega
      · have hfn' : (r.fill written).function = bytes "f" := hfn
        rw [HandlerReply.build, fReply, expectFunction_eq_ok hfn']
        simp only [bind, Except.bind]
        rw [if_neg (show ¬ written.length > (r.fill written).requestedLen from by
          simp only [fill]
          omega), hgrow]
        dsimp only
        rw [if_pos (show 3 ≤ (r.fill written).protoMinor from h3), addKv_addKv, hreq]
        rfl
  | l target => exact hcopy hc.1 (by decide) (by decide) hc.2
  | s sv => exact hcopy hc.1 (by decide) (by decide) hc.2
  | x xattr => exact hcopy hc.1 (by decide) (by decide) hc.2
  | n body => exact hcopy hc.1 (by decide) (by decide) hc.2
  | p body etag64 => exact absurd hfr Bool.false_ne_true
  | errno eno =>
    have hb : HandlerReply.build (.errno eno) svr nonce r cc
        = (r.addKvs [(keyErrno, decimalInt eno)]).commonReply200 svr nonce cc 0 := by
      rw [HandlerReply.build, errnoReply, if_pos h3]
      rfl
    simp only [HandlerReply.content, HandlerReply.kvs, HandlerReply.etag64, hb]
    cases hh.buf with
    | unallocated _ hf hblob =>
      have hcont : r.content = [] := by
        rw [Req.content, hblob]
        simp [PaddedUcharSpan.bytesOf, slice]
      rw [hcont]
      refine ⟨zeros frontRoom, zeros backRoom, regions_copy hf (Nat.zero_le _), ?_⟩
      unfold commonReply200 finishBody
      rw [if_pos (show 3 ≤ (r.addKvs [(keyErrno, decimalInt eno)]).protoMinor from h3),
        if_pos (show 3 ≤ ((r.addKvs [(keyErrno, decimalInt eno)]).withBuf (zeros frontRoom) []
          (zeros backRoom)).protoMinor from h3),
        frame73_unallocated (show (r.addKvs _).blob = none from hblob)]
    | dir c b hfn hbuf hback hsum =>
      have hcont : r.content = c := by rw [hbuf, withBuf_content]
      rw [hcont]
      refine ⟨zeros frontRoom, b, ⟨?_, hback, hsum⟩, ?_⟩
      · rw [Req.front, if_neg (by rw [hfn]; decide), zeros_length, Nat.add_zero]
      · conv_lhs => rw [hbuf]
        rfl
    | file b hfn hbuf hback hsum =>
      have hcont : r.content = [] := by rw [hbuf, withBuf_content]
      rw [hcont]
      refine ⟨zeros (frontRoom + validatorSpace), b, ⟨?_, by omega, ?_⟩, ?_⟩
      · rw [Req.front, if_pos hfn, zeros_length]
      · simp only [List.length_nil]
        omega
      · conv_lhs => rw [hbuf]
        rfl

theorem copyReply_inv {f name s : Bytes} {sent : Sent}
    (h : r.copyReply svr nonce f name s cc = .ok sent) :
    r.function = f ∧ s.length ≤ maxReplySize := by
  unfold copyReply at h
  obtain ⟨u, hfn, h⟩ := bind_eq_ok_iff.mp h
  obtain ⟨r₁, hcopy, -⟩ := bind_eq_ok_iff.mp h
  exact ⟨expectFunction_inv hfn, (copyToPbuf_eq_ok_iff.mp hcopy).2.1⟩

/-- A 7.3 reply that was built has kept to its contract: the members check it. -/
theorem contract_of_build {rep : HandlerReply} {sent : Sent} (h3 : 3 ≤ r.protoMinor)
    (h : rep.build svr nonce r cc = .ok sent) : rep.Contract svr r := by
  cases rep with
  | a sb validator esc =>
    unfold HandlerReply.build aReply at h
    obtain ⟨u, hfn, h⟩ := bind_eq_ok_iff.mp h
    rw [if_pos h3] at h
    obtain ⟨r₁, hcopy, -⟩ := bind_eq_ok_iff.mp h
    refine ⟨expectFunction_inv hfn, ?_⟩
    rw [HandlerReply.content, if_pos h3]
    exact (copyToPbuf_eq_ok_iff.mp hcopy).2.1
  | d nextstart etag64 esc =>
    unfold HandlerReply.build dReply at h
    obtain ⟨u, hfn, h⟩ := bind_eq_ok_iff.mp h
    refine ⟨expectFunction_inv hfn, ?_, fun hlt => by omega⟩
    intro hsize
    by_contra hne
    rw [if_pos ⟨hsize, hne⟩] at h
    simp [httpthrow] at h
  | f written validator etag64 esc =>
    unfold HandlerReply.build fReply at h
    obtain ⟨u, hfn, h⟩ := bind_eq_ok_iff.mp h
    refine ⟨expectFunction_inv hfn, ?_⟩
    by_contra hlt
    rw [if_pos (show written.length > (r.fill written).requestedLen from not_le.mp hlt)] at h
    simp [httpthrow] at h
  | l target => exact copyReply_inv h
  | s sv => exact copyReply_inv h
  | x xattr => exact copyReply_inv h
  | n body => exact copyReply_inv h
  | p body etag64 =>
    unfold HandlerReply.build pReply at h
    obtain ⟨u, hfn, h⟩ := bind_eq_ok_iff.mp h
    obtain ⟨r₁, hcopy, -⟩ := bind_eq_ok_iff.mp h
    exact ⟨expectFunction_inv hfn, (copyToPbuf_eq_ok_iff.mp hcopy).2.1⟩
  | errno eno => trivial

/-- A 7.3 reply within its contract is sent exactly when its header bytes fit. -/
theorem Handed.build_total {rep : HandlerReply} (hh : r.Handed svr hr) (hl : svr.ev.Lawful)
    (hna : svr.na.Lawful) (hu : svr.Usable) (hnonce : nonce.length = secretboxNoncebytes)
    (h3 : 3 ≤ r.protoMinor) (hcc : NoBreak cc) (hc : rep.Contract svr r) (hfr : rep.framed = true) :
    (headerBytes (r.kvpairs ++ rep.kvs) (rep.content svr r).length + svr.overhead r ≤ r.front →
        ∃ sent, rep.build svr nonce r cc = .ok sent)
      ∧ (r.front < headerBytes (r.kvpairs ++ rep.kvs) (rep.content svr r).length + svr.overhead r →
        Throws (rep.build svr nonce r cc)) := by
  obtain ⟨f, b, hreg, heq⟩ := hh.build_eq nonce cc h3 hc hfr
  have htotal := hreg.commonReply200_total (r.addKvs rep.kvs) hl hna hu hnonce h3 hcc hh.accept
    rep.etag64
  rw [hreg.front] at htotal
  rw [heq]
  exact htotal

end Req

end Fs123
