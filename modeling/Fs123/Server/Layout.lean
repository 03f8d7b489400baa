import Fs123.Codec.RoundTrip
import Fs123.Server.Reply

/-!
# The layout of the reply buffer

All the states of a request's reply buffer have one form: free bytes in front, the content so far, free
bytes behind (`Req.withBuf`). In this form each operation on the buffer either takes its bytes from one
of the free parts or, exactly when there are too few, throws. `frame73_withBuf` puts the operations of
`common_reply200` together.
-/

namespace Fs123

open Cxx

/-- A computation that starts with a throw throws. -/
theorem Throws.bind {α β : Type} {x : Res α} (h : Throws x) (f : α → Res β) : Throws (x >>= f) := by
  obtain ⟨e, rfl⟩ := h
  exact ⟨e, rfl⟩

theorem Throws.not_ok {α : Type} {x : Res α} (h : Throws x) (a : α) : x ≠ .ok a := by
  obtain ⟨e, rfl⟩ := h
  simp

namespace Req

/-- The request with `front` and `back` free around `content` in its blob. -/
def withBuf (r : Req) (front content back : Bytes) : Req :=
  { r with
    blob := some (front ++ content ++ back)
    buf := ⟨front.length, content.length, 0, front.length + content.length + back.length⟩ }

@[simp] theorem withBuf_withBuf (r : Req) (f c b f' c' b' : Bytes) :
    (r.withBuf f c b).withBuf f' c' b' = r.withBuf f' c' b' := rfl

@[simp] theorem withBuf_kvpairs (r : Req) (f c b : Bytes) : (r.withBuf f c b).kvpairs = r.kvpairs := rfl

@[simp] theorem withBuf_function (r : Req) (f c b : Bytes) :
    (r.withBuf f c b).function = r.function := rfl

@[simp] theorem withBuf_content (r : Req) (f c b : Bytes) : (r.withBuf f c b).content = c := by
  rw [content, PaddedUcharSpan.bytesOf]
  exact slice_append_mid _ _ _ rfl rfl

@[simp] theorem withBuf_size (r : Req) (f c b : Bytes) : (r.withBuf f c b).buf.size = c.length := rfl

@[simp] theorem withBuf_ensurePbuf (r : Req) (f c b : Bytes) :
    (r.withBuf f c b).ensurePbuf = .ok (r.withBuf f c b) := rfl

/-- The buffer is smaller than any signed offset. -/
def Small (front content back : Bytes) : Prop :=
  front.length + content.length + back.length < 2 ^ 63

theorem withBuf_wf (r : Req) {f c b : Bytes} (h : Small f c b) :
    (r.withBuf f c b).buf.Wf (f ++ c ++ b) := by
  refine ⟨Nat.zero_le _, ?_, ?_, ?_⟩
  · simp only [withBuf]
    omega
  · simp [withBuf]
    omega
  · simp only [List.length_append]
    exact h

theorem withBuf_availFront (r : Req) (f c b : Bytes) : (r.withBuf f c b).buf.availFront = f.length := by
  simp [withBuf, PaddedUcharSpan.availFront]

theorem withBuf_availBack (r : Req) {f c b : Bytes} (h : Small f c b) :
    (r.withBuf f c b).buf.availBack = b.length := by
  rw [(withBuf_wf r h).availBack_eq]
  simp only [withBuf]
  omega

/-! ## Prepending and appending -/

theorem prepend_withBuf (r : Req) {f c b more : Bytes} (h : Small f c b)
    (hmore : more.length ≤ f.length) :
    (r.withBuf f c b).prepend more
      = .ok (r.withBuf (f.take (f.length - more.length)) (more ++ c) b) := by
  have hwf := withBuf_wf r h
  unfold Small at h
  have hstr : stdString more = .ok more := if_pos (by omega)
  obtain ⟨f₁, f₂, hf, hf₂⟩ : ∃ f₁ f₂, f = f₁ ++ f₂ ∧ f₂.length = more.length :=
    ⟨f.take (f.length - more.length), f.drop (f.length - more.length),
      (List.take_append_drop _ _).symm, by rw [List.length_drop]; omega⟩
  have hf₁ : f.take (f.length - more.length) = f₁ := by
    rw [hf, List.length_append, hf₂, Nat.add_sub_cancel, List.take_left]
  have hflen : f.length = f₁.length + more.length := by
    rw [hf, List.length_append, hf₂]
  have hgrow : (r.withBuf f c b).buf.growFront more.length
      = .ok ⟨f₁.length, more.length + c.length, 0, f.length + c.length + b.length⟩ := by
    rw [PaddedUcharSpan.growFront_eq _ (by omega), addW_eq (by
      have : (2 : ℕ) ^ 63 < sizeMod := by decide
      simp only [withBuf]
      omega), hwf.subspan_eq_ok]
    · simp only [withBuf, Except.ok.injEq, PaddedUcharSpan.mk.injEq, and_self, and_true]
      omega
    · simp only [withBuf]
      omega
    · simp only [withBuf]
      push_cast
      omega
  have hwrite : writeAt (f ++ c ++ b) f₁.length more = f₁ ++ (more ++ c) ++ b := by
    have := writeAt_append_mid f₁ f₂ (c ++ b) more rfl hf₂.symm
    rw [hf]
    simpa only [List.append_assoc] using this
  rw [hf₁]
  unfold prepend PaddedUcharSpan.prepend
  rw [hstr]
  simp only [bind, Except.bind]
  rw [hgrow]
  simp only [withBuf, Option.getD_some, hwrite, List.length_append, hflen]
  congr 4
  omega

/-- Too few bytes in front make `prepend` throw. -/
theorem prepend_withBuf_throws (r : Req) {f c b more : Bytes} (h : Small f c b)
    (hmore : f.length < more.length) : Throws ((r.withBuf f c b).prepend more) := by
  unfold Small at h
  unfold prepend
  by_cases hlen : more.length < 2 ^ 63
  · rw [stdString, if_pos hlen]
    simp only [bind, Except.bind]
    have hgrow : Throws ((r.withBuf f c b).buf.growFront more.length) := by
      rw [PaddedUcharSpan.growFront_eq _ hlen, PaddedUcharSpan.subspan, if_pos]
      · simp
      · rw [withBuf_availFront, toSsize_eq (by omega)]
        omega
    unfold PaddedUcharSpan.prepend
    obtain ⟨e, he⟩ := hgrow
    rw [he]
    exact ⟨e, rfl⟩
  · rw [stdString, if_neg hlen]
    exact ⟨_, rfl⟩

theorem append_withBuf (r : Req) {f c b more : Bytes} (h : Small f c b)
    (hmore : more.length ≤ b.length) :
    (r.withBuf f c b).append more = .ok (r.withBuf f (c ++ more) (b.drop more.length)) := by
  have hwf := withBuf_wf r h
  unfold Small at h
  have hstr : stdString more = .ok more := if_pos (by omega)
  have hgrow : (r.withBuf f c b).buf.growBack more.length
      = .ok ⟨f.length, more.length + c.length, 0, f.length + c.length + b.length⟩ := by
    unfold PaddedUcharSpan.growBack
    rw [addW_eq (by
      have : (2 : ℕ) ^ 63 < sizeMod := by decide
      simp only [withBuf]
      omega), hwf.subspan_eq_ok]
    · simp only [withBuf, Except.ok.injEq, PaddedUcharSpan.mk.injEq, and_self, and_true]
      omega
    · simp only [withBuf]
      omega
    · simp only [withBuf]
      push_cast
      omega
  have hwrite : writeAt (f ++ c ++ b) (f.length + c.length) more
      = f ++ (c ++ more) ++ b.drop more.length := by
    have := writeAt_append_mid (f ++ c) (b.take more.length) (b.drop more.length) more
      (List.length_append).symm (by rw [List.length_take]; omega)
    rw [List.append_assoc (f ++ c), List.take_append_drop] at this
    rw [this]
    simp only [List.append_assoc]
  unfold append PaddedUcharSpan.append
  rw [hstr]
  simp only [bind, Except.bind]
  rw [hgrow]
  simp only [withBuf, Option.getD_some, hwrite, List.length_append, List.length_drop]
  congr 3
  · omega
  · omega

/-- Too few bytes behind make `append` throw. -/
theorem append_withBuf_throws (r : Req) {f c b more : Bytes} (h : Small f c b)
    (hlen : more.length < 2 ^ 62) (hsize : f.length + c.length < 2 ^ 62)
    (hmore : b.length < more.length) : Throws ((r.withBuf f c b).append more) := by
  have hwf := withBuf_wf r h
  have hgrow : Throws ((r.withBuf f c b).buf.growBack more.length) := by
    unfold PaddedUcharSpan.growBack PaddedUcharSpan.subspan
    unfold Small at h
    have h64 : (sizeMod : ℤ) = 2 ^ 64 := by norm_num [sizeMod]
    rw [if_neg, if_pos]
    · simp
    · rw [withBuf_availFront, addW_eq (by
        have : (2 : ℕ) ^ 63 < sizeMod := by decide
        simp only [withBuf]
        omega)]
      simp only [withBuf]
      push_cast
      rw [Int.emod_eq_of_lt (by omega) (by omega)]
      omega
    · rw [withBuf_availFront, toSsize_eq (by omega)]
      omega
  unfold append
  rw [stdString, if_pos (by omega)]
  simp only [bind, Except.bind]
  unfold PaddedUcharSpan.append
  obtain ⟨e, he⟩ := hgrow
  rw [he]
  exact ⟨e, rfl⟩

/-- Moving an empty window forward turns free bytes behind it into free bytes in front. -/
theorem subspan_withBuf (r : Req) {f s b : Bytes} {n : ℕ} (h : Small f [] (s ++ b)) (hn : n = s.length) :
    ∃ buf, (r.withBuf f [] (s ++ b)).buf.subspan n 0 = .ok buf
      ∧ { r.withBuf f [] (s ++ b) with buf := buf } = r.withBuf (f ++ s) [] b := by
  subst hn
  refine ⟨_, (withBuf_wf r h).subspan_eq_ok ?_ ?_, ?_⟩
  · simp only [withBuf]
    omega
  · simp only [withBuf, List.length_append, List.length_nil]
    push_cast
    omega
  · simp only [withBuf, List.length_append, List.length_nil, List.append_assoc, List.nil_append]
    congr 2
    omega

/-! ## The framing of a 7.3 reply -/

/-- The text in front of the content. -/
def contentPrefix (n : ℕ) : Bytes := netstring keyContent ++ [ch ' '] ++ decimal n ++ [ch ':']

/-- The body that `frame73` builds around a content. -/
def frame (kvpairs : List (Bytes × Bytes)) (content : Bytes) : Bytes :=
  pairsText kvpairs.reverse ++ pairText (keyContent, content)

/-- The number of bytes that `frame73` prepends. -/
def headerBytes (kvpairs : List (Bytes × Bytes)) (n : ℕ) : ℕ :=
  (pairsText kvpairs.reverse).length + (contentPrefix n).length

theorem pairText_keyContent (content : Bytes) :
    pairText (keyContent, content) = contentPrefix content.length ++ content ++ bytes ",\n" := by
  have : bytes ",\n" = [ch ',', ch '\n'] := rfl
  simp only [pairText, contentPrefix, netstring, this, List.append_assoc, List.cons_append,
    List.nil_append]

theorem frame_length (kvpairs : List (Bytes × Bytes)) (content : Bytes) :
    (frame kvpairs content).length = headerBytes kvpairs content.length + content.length + 2 := by
  rw [frame, pairText_keyContent]
  simp only [List.length_append, headerBytes, show (bytes ",\n").length = 2 from rfl]
  omega

/-- The loop over the pairs, by induction on them: each one is put in front of what is already there, so
they end up in reverse order. -/
theorem foldlM_prepend_withBuf (r : Req) (kvs : List (Bytes × Bytes)) {f c b : Bytes}
    (h : Small f c b) :
    ((pairsText kvs.reverse).length ≤ f.length →
        ∃ f', f'.length + (pairsText kvs.reverse).length = f.length
          ∧ kvs.foldlM (fun r p => r.prepend (pairText p)) (r.withBuf f c b)
            = .ok (r.withBuf f' (pairsText kvs.reverse ++ c) b))
      ∧ (f.length < (pairsText kvs.reverse).length →
        Throws (kvs.foldlM (fun r p => r.prepend (pairText p)) (r.withBuf f c b))) := by
  induction kvs generalizing f c with
  | nil => exact ⟨fun _ => ⟨f, rfl, rfl⟩, fun hlt => absurd hlt (by simp)⟩
  | cons p kvs ih =>
    have hsplit : pairsText (p :: kvs).reverse = pairsText kvs.reverse ++ pairText p := by
      rw [List.reverse_cons, pairsText_append, pairsText_singleton]
    rw [hsplit, List.length_append, List.foldlM_cons]
    by_cases hp : (pairText p).length ≤ f.length
    · obtain ⟨f₁, hf₁⟩ : ∃ f₁, f₁ = f.take (f.length - (pairText p).length) := ⟨_, rfl⟩
      have hlen : f₁.length + (pairText p).length = f.length := by
        rw [hf₁, List.length_take]
        omega
      have hsmall : Small f₁ (pairText p ++ c) b := by
        unfold Small at h ⊢
        rw [List.length_append]
        omega
      rw [prepend_withBuf r h hp, ← hf₁]
      simp only [bind, Except.bind]
      obtain ⟨hok, hthrow⟩ := ih hsmall
      refine ⟨fun hle => ?_, fun hlt => hthrow (by omega)⟩
      obtain ⟨f', hf', hrun⟩ := hok (by omega)
      refine ⟨f', by omega, ?_⟩
      rw [List.append_assoc]
      exact hrun
    · refine ⟨fun hle => by omega, fun _ => ?_⟩
      exact (prepend_withBuf_throws r h (by omega)).bind _

/-- The first two steps of the framing: what is left is the loop over the pairs. -/
theorem frame73_withBuf_eq (r : Req) {f c b : Bytes} (h : Small f c b) (hb : 2 ≤ b.length)
    (hf : (contentPrefix c.length).length ≤ f.length) :
    ∃ f₁, f₁.length + (contentPrefix c.length).length = f.length
      ∧ Small f₁ (pairText (keyContent, c)) (b.drop 2)
      ∧ (r.withBuf f c b).frame73 = r.kvpairs.foldlM (fun r p => r.prepend (pairText p))
          (r.withBuf f₁ (pairText (keyContent, c)) (b.drop 2)) := by
  have htwo : (bytes ",\n").length = 2 := rfl
  obtain ⟨f₁, hf₁⟩ : ∃ f₁, f₁ = f.take (f.length - (contentPrefix c.length).length) := ⟨_, rfl⟩
  have hlen : f₁.length + (contentPrefix c.length).length = f.length := by
    rw [hf₁, List.length_take]
    omega
  have hsmall : Small f₁ (contentPrefix c.length ++ c) b := by
    unfold Small at h ⊢
    rw [List.length_append]
    omega
  refine ⟨f₁, hlen, ?_, ?_⟩
  · unfold Small at hsmall ⊢
    rw [pairText_keyContent, List.length_append, List.length_drop, htwo]
    omega
  · have hpre : (r.withBuf f c b).prepend (netstring keyContent ++ [ch ' '] ++ decimal c.length
        ++ [ch ':']) = .ok (r.withBuf f₁ (contentPrefix c.length ++ c) b) := by
      rw [hf₁]
      exact prepend_withBuf r h hf
    have happ : (r.withBuf f₁ (contentPrefix c.length ++ c) b).append (bytes ",\n")
        = .ok (r.withBuf f₁ (pairText (keyContent, c)) (b.drop 2)) := by
      rw [pairText_keyContent]
      exact append_withBuf r hsmall hb
    unfold frame73
    rw [withBuf_ensurePbuf]
    simp only [bind, Except.bind, withBuf_size, hpre, happ, withBuf_kvpairs]

/-- The framing takes its bytes from the front, and two from the back. -/
theorem frame73_withBuf (r : Req) {f c b : Bytes} (h : Small f c b) (hb : 2 ≤ b.length)
    (hf : headerBytes r.kvpairs c.length ≤ f.length) :
    ∃ f', f'.length + headerBytes r.kvpairs c.length = f.length
      ∧ (r.withBuf f c b).frame73 = .ok (r.withBuf f' (frame r.kvpairs c) (b.drop 2)) := by
  unfold headerBytes at hf ⊢
  obtain ⟨f₁, hlen, hsmall, heq⟩ := frame73_withBuf_eq r h hb (by omega)
  obtain ⟨f', hf', hrun⟩ := (foldlM_prepend_withBuf r r.kvpairs hsmall).1 (by omega)
  refine ⟨f', by omega, ?_⟩
  rw [heq, hrun, frame]

/-- Without enough room in front the framing throws. -/
theorem frame73_withBuf_throws (r : Req) {f c b : Bytes} (h : Small f c b) (hb : 2 ≤ b.length)
    (hf : f.length < headerBytes r.kvpairs c.length) : Throws (r.withBuf f c b).frame73 := by
  unfold headerBytes at hf
  by_cases hp : (contentPrefix c.length).length ≤ f.length
  · obtain ⟨f₁, hlen, hsmall, heq⟩ := frame73_withBuf_eq r h hb hp
    rw [heq]
    exact (foldlM_prepend_withBuf r r.kvpairs hsmall).2 (by omega)
  · unfold frame73
    rw [withBuf_ensurePbuf]
    have hthrow : Throws ((r.withBuf f c b).prepend (contentPrefix c.length)) :=
      prepend_withBuf_throws r h (by omega)
    exact hthrow.bind _

/-! ## Allocation -/

/-- The room that `allocate_pbuf` leaves in front of the content. -/
def frontRoom : ℕ := secretboxLeadersz + maxHeadersz

/-- The room that `allocate_pbuf` leaves behind the content. -/
def backRoom : ℕ := secretboxPadding + finalNetstringBytes

theorem allocatePbuf_eq_ok_iff {r r' : Req} {sz : ℕ} :
    r.allocatePbuf sz = .ok r'
      ↔ r.blob = none ∧ sz ≤ maxReplySize
        ∧ r' = r.withBuf (zeros frontRoom) [] (zeros (sz + backRoom)) := by
  unfold allocatePbuf
  by_cases hblob : r.blob = none
  · by_cases hsz : sz ≤ maxReplySize
    · have hfront : secretboxLeadersz + maxHeadersz + 0 < sizeMod := by decide
      have hbuf : PaddedUcharSpan.ofSpan 0
          (secretboxLeadersz + maxHeadersz + sz + secretboxPadding + finalNetstringBytes)
          (secretboxLeadersz + maxHeadersz) 0
          = .ok ⟨frontRoom, 0, 0, frontRoom + 0 + (sz + backRoom)⟩ := by
        unfold PaddedUcharSpan.ofSpan
        rw [if_neg (by omega), addW_eq hfront, if_neg (by omega), if_neg (by decide)]
        simp only [frontRoom, backRoom, Except.ok.injEq, PaddedUcharSpan.mk.injEq, true_and, zero_add]
        omega
      rw [if_neg (by simp [hblob]), if_neg (by omega)]
      dsimp only
      rw [hbuf]
      simp only [bind, Except.bind, Except.ok.injEq, hblob, hsz, true_and]
      have hzeros : zeros (secretboxLeadersz + maxHeadersz + sz + secretboxPadding
          + finalNetstringBytes) = zeros frontRoom ++ [] ++ zeros (sz + backRoom) := by
        rw [List.append_nil, zeros_append]
        congr 1
      rw [hzeros]
      simp only [withBuf, zeros_length, List.length_nil]
      exact eq_comm
    · rw [if_neg (by simp [hblob]), if_pos (by omega)]
      simp [hsz]
  · rw [if_pos (by simpa [Option.isSome_iff_ne_none] using hblob)]
    simp [hblob]

theorem small_of_le {f c b : Bytes} (hf : f.length ≤ 2 * frontRoom)
    (hc : c.length + b.length ≤ maxReplySize + 2 * backRoom) : Small f c b := by
  have h : 2 * frontRoom + (maxReplySize + 2 * backRoom) < 2 ^ 63 := by decide
  unfold Small
  omega

theorem copyToPbuf_eq_ok_iff {r r' : Req} {s : Bytes} :
    r.copyToPbuf s = .ok r'
      ↔ r.blob = none ∧ s.length ≤ maxReplySize
        ∧ r' = r.withBuf (zeros frontRoom) s (zeros backRoom) := by
  have happend : s.length ≤ maxReplySize →
      (r.withBuf (zeros frontRoom) [] (zeros (s.length + backRoom))).append s
        = .ok (r.withBuf (zeros frontRoom) s (zeros backRoom)) := by
    intro hs
    rw [append_withBuf r (small_of_le (by simp; omega) (by simp; omega)) (by simp), List.nil_append,
      zeros_drop, Nat.add_sub_cancel_left]
  unfold copyToPbuf
  rw [bind_eq_ok_iff]
  constructor
  · intro h
    obtain ⟨r₁, h₁, h⟩ := h
    obtain ⟨hblob, hs, rfl⟩ := allocatePbuf_eq_ok_iff.mp h₁
    rw [happend hs, Except.ok.injEq] at h
    exact ⟨hblob, hs, h.symm⟩
  · intro h
    obtain ⟨hblob, hs, rfl⟩ := h
    exact ⟨_, allocatePbuf_eq_ok_iff.mpr ⟨hblob, hs, rfl⟩, happend hs⟩

/-! ## Encryption -/

/-- The conditions under which a buffer can be encrypted in place. -/
structure Encodable (sid secret f c b : Bytes) : Prop where
  sid_pos : 0 < sid.length
  sid_le : sid.length ≤ 255
  secret : secretboxKeybytes ≤ secret.length
  front : sid.length + 45 ≤ f.length
  back : padding secretboxPadding c.length ≤ b.length

variable {svr : Server} {sid secret nonce : Bytes}

theorem encode_withBuf (r : Req) {na : Sodium} (hna : na.Lawful) {f c b : Bytes} (h : Small f c b)
    (hnonce : nonce.length = secretboxNoncebytes) (he : Encodable sid secret f c b) :
    ∃ buf mem, encode na ceFs123Secretbox sid secret (f ++ c ++ b) (r.withBuf f c b).buf
        secretboxPadding (.random nonce) = (.ok buf, mem)
      ∧ buf.bytesOf mem = envelope na sid secret nonce secretboxPadding c := by
  have hwf := withBuf_wf r h
  have hbytes : (r.withBuf f c b).buf.bytesOf (f ++ c ++ b) = c := withBuf_content r f c b
  have hfront := he.front
  have hnon : encodeNonce na secret ((r.withBuf f c b).buf.bytesOf (f ++ c ++ b)) (.random nonce)
      = .ok nonce := rfl
  obtain ⟨pre, post, henc⟩ := encode_spec hna he.sid_pos he.sid_le
    (show 0 < secretboxPadding by decide) he.secret hwf
    (by rw [withBuf_availFront]; simp only [offsetofKeyid, secretboxMacbytes]; omega)
    (by rw [withBuf_availBack r h, withBuf_size]; exact he.back) hnon hnonce
  refine ⟨_, _, henc, ?_⟩
  rw [PaddedUcharSpan.bytesOf, hbytes]
  exact slice_append_mid _ _ _ rfl
    (by rw [envelope_length hna (by decide) he.secret hnonce, withBuf_size])

/-- When one of the conditions fails, `encode` throws. -/
theorem encode_withBuf_throws (r : Req) {na : Sodium} {f c b : Bytes} (h : Small f c b)
    (he : ¬ Encodable sid secret f c b) :
    Throws (encode na ceFs123Secretbox sid secret (f ++ c ++ b) (r.withBuf f c b).buf
        secretboxPadding (.random nonce)).1 := by
  unfold encode
  rw [if_neg (by decide)]
  split
  · simp
  · next hsecret =>
    rw [if_neg (by decide)]
    unfold encodeSecretbox SecretboxHeader.forKey
    dsimp only
    by_cases h0 : sid.length % 256 = 0
    · rw [if_pos h0]
      exact ⟨_, rfl⟩
    · rw [if_neg h0]
      by_cases hsid : sid.length % 256 ≠ sid.length
      · rw [if_pos hsid]
        exact ⟨_, rfl⟩
      · rw [if_neg hsid]
        simp only [withBuf_availFront, withBuf_availBack r h, withBuf_size, SecretboxHeader.wiresize]
        have hmod := Nat.mod_lt sid.length (show 0 < 256 by decide)
        -- The id and the secret are fine, so it is the room that is missing.
        split
        · simp
        · split
          · simp
          · next hfront hback =>
            simp only [offsetofKeyid, secretboxMacbytes] at hfront
            exact absurd ⟨by omega, by omega, by omega, by omega, by omega⟩ he

end Req

end Fs123
