import Fs123.Server.ReplySpec

/-!
# Every member ends in `encrypt_and_send200`

Whatever a reply member does before it sends, it keeps the function, the method and the accepted encoding
of its request, and adds none but the 7.2 headers (`Req.Prepared`). `HandlerReply.build_send` says so for
all members at once; what holds of `encrypt_and_send200` then holds of each of them.
-/

namespace Fs123

open Cxx

namespace Req

variable {svr : Server} {nonce cc : Bytes} {r r' : Req}

/-- The headers that only a 7.2 reply has. -/
def headers72 : List Bytes := [hhErrno, hhCookie, hhNo]

/-- `r'` is `r` on its way to be sent. -/
structure Prepared (r r' : Req) : Prop where
  function : r'.function = r.function
  method : r'.method = r.method
  acceptEncoding : r'.acceptEncoding = r.acceptEncoding
  ohdrs : ∃ hdrs, r'.ohdrs = r.ohdrs ++ hdrs ∧ ∀ h ∈ hdrs, h.1 ∈ headers72

/-- A change of the buffer and the key/value pairs. -/
theorem Prepared.of_eq (hf : r'.function = r.function) (hm : r'.method = r.method)
    (ha : r'.acceptEncoding = r.acceptEncoding) (ho : r'.ohdrs = r.ohdrs) : Prepared r r' :=
  ⟨hf, hm, ha, [], by rw [ho, List.append_nil], by simp⟩

theorem Prepared.refl (r : Req) : Prepared r r := Prepared.of_eq rfl rfl rfl rfl

theorem Prepared.trans {r₁ r₂ r₃ : Req} (h : Prepared r₁ r₂) (h' : Prepared r₂ r₃) : Prepared r₁ r₃ := by
  obtain ⟨a, ha, ha72⟩ := h.ohdrs
  obtain ⟨b, hb, hb72⟩ := h'.ohdrs
  refine ⟨h'.function.trans h.function, h'.method.trans h.method,
    h'.acceptEncoding.trans h.acceptEncoding, a ++ b, ?_, ?_⟩
  · rw [hb, ha, List.append_assoc]
  · intro x hx
    rcases List.mem_append.mp hx with hx | hx
    · exact ha72 x hx
    · exact hb72 x hx

theorem prepend_prepared {more : Bytes} (h : r.prepend more = .ok r') : Prepared r r' := by
  unfold Req.prepend at h
  obtain ⟨more', -, h⟩ := bind_eq_ok_iff.mp h
  obtain ⟨⟨buf, mem⟩, -, h⟩ := bind_eq_ok_iff.mp h
  rw [← Except.ok.inj h]
  exact Prepared.of_eq rfl rfl rfl rfl

theorem append_prepared {more : Bytes} (h : r.append more = .ok r') : Prepared r r' := by
  unfold Req.append at h
  obtain ⟨more', -, h⟩ := bind_eq_ok_iff.mp h
  obtain ⟨⟨buf, mem⟩, -, h⟩ := bind_eq_ok_iff.mp h
  rw [← Except.ok.inj h]
  exact Prepared.of_eq rfl rfl rfl rfl

theorem ensurePbuf_prepared (h : r.ensurePbuf = .ok r') : Prepared r r' := by
  unfold ensurePbuf at h
  split at h
  · obtain ⟨-, -, rfl⟩ := allocatePbuf_eq_ok_iff.mp h
    exact Prepared.of_eq rfl rfl rfl rfl
  · rw [← Except.ok.inj h]
    exact Prepared.refl r

theorem copyToPbuf_prepared {s : Bytes} (h : r.copyToPbuf s = .ok r') : Prepared r r' := by
  obtain ⟨-, -, rfl⟩ := copyToPbuf_eq_ok_iff.mp h
  exact Prepared.of_eq rfl rfl rfl rfl

theorem addHdr_prepared {ev : Evhttp} {name value : Bytes} (hname : name ∈ headers72)
    (h : r.addHdr ev name value = .ok r') : Prepared r r' := by
  obtain ⟨-, rfl⟩ := addHdr_eq_ok_iff.mp h
  refine ⟨rfl, rfl, rfl, [(name, cstr value)], rfl, ?_⟩
  intro x hx
  rw [List.mem_singleton.mp hx]
  exact hname

theorem frame73_prepared (h : r.frame73 = .ok r') : Prepared r r' := by
  unfold frame73 at h
  obtain ⟨r₁, h₁, h⟩ := bind_eq_ok_iff.mp h
  obtain ⟨r₂, h₂, h⟩ := bind_eq_ok_iff.mp h
  obtain ⟨r₃, h₃, h⟩ := bind_eq_ok_iff.mp h
  have hpairs : ∀ (kvs : List (Bytes × Bytes)) {r r' : Req},
      kvs.foldlM (fun r p => r.prepend (pairText p)) r = .ok r' → Prepared r r' := by
    intro kvs
    induction kvs with
    | nil =>
      intro r r' h
      rw [← Except.ok.inj h]
      exact Prepared.refl r
    | cons p kvs ih =>
      intro r r' h
      rw [List.foldlM_cons] at h
      obtain ⟨r₁, h₁, h⟩ := bind_eq_ok_iff.mp h
      exact (prepend_prepared h₁).trans (ih h)
  exact (((ensurePbuf_prepared h₁).trans (prepend_prepared h₂)).trans (append_prepared h₃)).trans
    (hpairs _ h)

theorem finishBody_prepared (h : r.finishBody svr = .ok r') : Prepared r r' := by
  unfold finishBody at h
  split at h
  · exact frame73_prepared h
  · unfold addHdrIf at h
    split at h
    · exact addHdr_prepared (by decide) h
    · rw [← Except.ok.inj h]
      exact Prepared.refl r

/-- The request that `r` is sent as. -/
def Sends (svr : Server) (nonce cc : Bytes) (r : Req) (etag64 : ℕ) (sent : Sent) : Prop :=
  ∃ r', Prepared r r' ∧ r'.encryptAndSend200 svr nonce cc etag64 = .ok sent

theorem Sends.of_prepared {etag64 : ℕ} {sent : Sent} (h : Prepared r r')
    (hs : r'.Sends svr nonce cc etag64 sent) : r.Sends svr nonce cc etag64 sent := by
  obtain ⟨r₁, h₁, hsend⟩ := hs
  exact ⟨r₁, h.trans h₁, hsend⟩

theorem commonReply200_send {etag64 : ℕ} {sent : Sent} (h : r.commonReply200 svr nonce cc etag64 = .ok sent) :
    r.Sends svr nonce cc etag64 sent := by
  unfold commonReply200 at h
  obtain ⟨r₁, h₁, h⟩ := bind_eq_ok_iff.mp h
  exact ⟨r₁, finishBody_prepared h₁, h⟩

theorem copyReply_send {f name content : Bytes} {sent : Sent}
    (h : r.copyReply svr nonce f name content cc = .ok sent) : r.Sends svr nonce cc 0 sent := by
  unfold copyReply at h
  obtain ⟨-, -, h⟩ := bind_eq_ok_iff.mp h
  obtain ⟨r₁, h₁, h⟩ := bind_eq_ok_iff.mp h
  exact Sends.of_prepared (copyToPbuf_prepared h₁) (commonReply200_send h)

theorem aReply_send {sb : Stat} {validator esc : ℕ} {sent : Sent}
    (h : r.aReply svr nonce sb validator esc cc = .ok sent) : r.Sends svr nonce cc 0 sent := by
  unfold aReply at h
  obtain ⟨-, -, h⟩ := bind_eq_ok_iff.mp h
  split at h
  · obtain ⟨r₁, h₁, h⟩ := bind_eq_ok_iff.mp h
    refine Sends.of_prepared ?_ (Sends.of_prepared (copyToPbuf_prepared h₁) (commonReply200_send h))
    exact Prepared.of_eq rfl rfl rfl rfl
  · obtain ⟨r₁, h₁, h⟩ := bind_eq_ok_iff.mp h
    obtain ⟨r₂, h₂, h⟩ := bind_eq_ok_iff.mp h
    refine Sends.of_prepared (addHdr_prepared (by decide) h₁) ?_
    exact Sends.of_prepared (copyToPbuf_prepared h₂) (commonReply200_send h)

theorem addNextoffset_prepared {nextstart : Bytes} (h : r.addNextoffset svr nextstart = .ok r') :
    Prepared r r' := by
  unfold addNextoffset at h
  split at h
  · exact addHdr_prepared (by decide) h
  · obtain ⟨-, -, h⟩ := bind_eq_ok_iff.mp h
    exact addHdr_prepared (by decide) h

theorem dReply_send {nextstart : Bytes} {etag64 esc : ℕ} {sent : Sent}
    (h : r.dReply svr nonce nextstart etag64 esc cc = .ok sent) : r.Sends svr nonce cc etag64 sent := by
  unfold dReply at h
  obtain ⟨-, -, h⟩ := bind_eq_ok_iff.mp h
  split_ifs at h with hempty h3
  · simp [httpthrow] at h
  · dsimp only at h
    refine Sends.of_prepared ?_ (commonReply200_send h)
    exact Prepared.of_eq rfl rfl rfl rfl
  · obtain ⟨r₁, h₁, h⟩ := bind_eq_ok_iff.mp h
    obtain ⟨r₂, h₂, h⟩ := bind_eq_ok_iff.mp h
    refine Sends.of_prepared (addHdr_prepared (by decide) h₁) ?_
    exact Sends.of_prepared (addNextoffset_prepared h₂) (commonReply200_send h)

theorem fReply_send {nread validator etag64 esc : ℕ} {sent : Sent}
    (h : r.fReply svr nonce nread validator etag64 esc cc = .ok sent) :
    r.Sends svr nonce cc etag64 sent := by
  unfold fReply at h
  obtain ⟨-, -, h⟩ := bind_eq_ok_iff.mp h
  split at h
  · simp [httpthrow] at h
  · obtain ⟨buf, -, h⟩ := bind_eq_ok_iff.mp h
    dsimp only at h
    split at h
    · refine Sends.of_prepared ?_ (commonReply200_send h)
      exact Prepared.of_eq rfl rfl rfl rfl
    · obtain ⟨r₁, h₁, h⟩ := bind_eq_ok_iff.mp h
      obtain ⟨r₂, h₂, h⟩ := bind_eq_ok_iff.mp h
      refine Sends.of_prepared ?_ (Sends.of_prepared ((addHdr_prepared (by decide) h₁).trans
        (prepend_prepared h₂)) (commonReply200_send h))
      exact Prepared.of_eq rfl rfl rfl rfl

theorem errnoReply_send {eno : ℤ} {sent : Sent} (h : r.errnoReply svr nonce eno cc = .ok sent) :
    r.Sends svr nonce cc 0 sent := by
  unfold errnoReply at h
  split at h
  · refine Sends.of_prepared ?_ (commonReply200_send h)
    exact Prepared.of_eq rfl rfl rfl rfl
  · obtain ⟨r₁, h₁, h⟩ := bind_eq_ok_iff.mp h
    exact Sends.of_prepared (addHdr_prepared (by decide) h₁) (commonReply200_send h)

end Req

/-- What a reply member sends, it sends with `encrypt_and_send200` and its own etag. -/
theorem HandlerReply.build_send {svr : Server} {nonce cc : Bytes} {r : Req} {rep : HandlerReply}
    {sent : Sent} (h : rep.build svr nonce r cc = .ok sent) : r.Sends svr nonce cc rep.etag64 sent := by
  cases rep with
  | a sb validator esc => exact Req.aReply_send h
  | d nextstart etag64 esc => exact Req.dReply_send h
  | f written validator etag64 esc =>
    refine Req.Sends.of_prepared ?_ (Req.fReply_send h)
    exact Req.Prepared.of_eq rfl rfl rfl rfl
  | l target => exact Req.copyReply_send h
  | s sv => exact Req.copyReply_send h
  | x xattr => exact Req.copyReply_send h
  | n body => exact Req.copyReply_send h
  | p body etag64 =>
    replace h : r.pReply svr nonce body etag64 cc = .ok sent := h
    unfold Req.pReply at h
    obtain ⟨-, -, h⟩ := bind_eq_ok_iff.mp h
    obtain ⟨r₁, h₁, h⟩ := bind_eq_ok_iff.mp h
    exact ⟨r₁, Req.copyToPbuf_prepared h₁, h⟩
  | errno eno => exact Req.errnoReply_send h

end Fs123
