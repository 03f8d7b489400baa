import Fs123.Server.Layout
import Fs123.Server.Parse

/-!
# The requests that a handler holds

What `parse_and_handle` guarantees of a request when it calls the handler (`Req.Handed`): the protocol
minor is a supported one, the only key/value pair is the echo of the request, no header has been added, and
the buffer is as the function needs it. `parse_handed` establishes it; `add_dirent`, the one member that a
handler calls before it replies, keeps it (`Handed.addDirents`).
-/

namespace Fs123

open Cxx

namespace Req

/-- The state of the buffer before the reply. -/
inductive BufState (r : Req) : Prop
  | unallocated : r.function ≠ bytes "d" → r.function ≠ bytes "f" → r.blob = none → BufState r
  | dir (c b : Bytes) : r.function = bytes "d" → r = r.withBuf (zeros frontRoom) c b →
      backRoom ≤ b.length → c.length + b.length ≤ maxReplySize + backRoom → BufState r
  | file (b : Bytes) : r.function = bytes "f" →
      r = r.withBuf (zeros (frontRoom + validatorSpace)) [] b →
      b.length = r.requestedLen + backRoom → r.requestedLen + validatorSpace ≤ maxReplySize →
      BufState r

section Parse

variable (svr : Server) (hr : HttpRequest)

/-- What holds of a request until its function is looked at. -/
structure Fresh (r : Req) : Prop where
  minor_ge : 2 ≤ r.protoMinor
  minor_le : r.protoMinor ≤ 3
  method : r.method = hr.method
  ohdrs : r.ohdrs = []
  kvpairs : r.kvpairs = []
  blob : r.blob = none

/-- What holds of a request when its function is looked at. -/
structure Checked (r : Req) : Prop where
  minor_ge : 2 ≤ r.protoMinor
  minor_le : r.protoMinor ≤ 3
  method : r.method = hr.method
  ohdrs : r.ohdrs = []
  accept : r.mayUseSecrets svr = true → r.acceptEncoding = ceFs123Secretbox
  echo : (r.function = bytes "p" ∧ r.kvpairs = [])
    ∨ (r.function ≠ bytes "p" ∧ ∃ uri, r.kvpairs = [(keyRequest, uri)])
  blob : r.blob = none

/-- What holds of a request in the hands of a handler. -/
structure Handed (r : Req) : Prop where
  minor_ge : 2 ≤ r.protoMinor
  minor_le : r.protoMinor ≤ 3
  method : r.method = hr.method
  ohdrs : r.ohdrs = []
  accept : r.mayUseSecrets svr = true → r.acceptEncoding = ceFs123Secretbox
  echo : (r.function = bytes "p" ∧ r.kvpairs = [])
    ∨ (r.function ≠ bytes "p" ∧ ∃ uri, r.kvpairs = [(keyRequest, uri)])
  buf : r.BufState

variable {svr hr} {r r' : Req}

theorem parsePath_fresh (h : parsePath svr hr = .ok r) : r.Fresh hr := by
  unfold parsePath at h
  dsimp only at h
  split at h
  · simp [httpthrow] at h
  · obtain ⟨⟨minor, next⟩, -, h⟩ := bind_eq_ok_iff.mp h
    dsimp only at h
    split_ifs at h with hlo hhi hsep
    · simp [httpthrow] at h
    · simp [httpthrow] at h
    · simp [httpthrow] at h
    · rw [Except.ok.injEq] at h
      subst h
      simp only [protocolMinorMin, protocolMinorMax] at hlo hhi
      exact ⟨not_lt.mp hlo, not_lt.mp hhi, rfl, rfl, rfl, rfl⟩

theorem Fresh.splitEnvelope (hfresh : r.Fresh hr) {decrypted : Bytes}
    (h : r.splitEnvelope decrypted = .ok r') :
    r'.Fresh hr ∧ r'.acceptEncoding = r.acceptEncoding := by
  obtain ⟨hge, hle, hm, hoh, hkv, hblob⟩ := hfresh
  unfold Req.splitEnvelope at h
  split at h
  · simp [httpthrow] at h
  · dsimp only at h
    split at h
    all_goals
      rw [Except.ok.injEq] at h
      subst h
      exact ⟨⟨hge, hle, hm, hoh, hkv, hblob⟩, rfl⟩

theorem Fresh.decodeEnvelope (hfresh : r.Fresh hr) (h : r.decodeEnvelope svr = .ok r') :
    r'.Fresh hr ∧ r'.acceptEncoding = r.acceptEncoding := by
  unfold Req.decodeEnvelope at h
  split at h
  · simp [httpthrow] at h
  · split at h
    · simp [httpthrow] at h
    · obtain ⟨decode64, -, h⟩ := bind_eq_ok_iff.mp h
      obtain ⟨hdr, -, h⟩ := bind_eq_ok_iff.mp h
      dsimp only at h
      obtain ⟨decrypted, -, h⟩ := bind_eq_ok_iff.mp h
      have hfresh' : Fresh hr { r with envelopeSid := hdr.keyid } :=
        ⟨hfresh.minor_ge, hfresh.minor_le, hfresh.method, hfresh.ohdrs, hfresh.kvpairs, hfresh.blob⟩
      exact hfresh'.splitEnvelope h

/-- Both forms of a request: a server with secrets has seen that the client accepts encrypted replies,
since `/e` is not `/p`. -/
theorem Fresh.decodeQuery (hfresh : r.Fresh hr)
    (haccept : r.mayUseSecrets svr = true → r.acceptEncoding = ceFs123Secretbox)
    (h : r.decodeQuery svr hr = .ok r') :
    r'.Fresh hr ∧ (r'.mayUseSecrets svr = true → r'.acceptEncoding = ceFs123Secretbox) := by
  unfold Req.decodeQuery at h
  split at h
  · next he =>
    obtain ⟨hfresh', hacc⟩ := hfresh.decodeEnvelope h
    refine ⟨hfresh', fun hsec => ?_⟩
    rw [hacc]
    apply haccept
    unfold mayUseSecrets at hsec ⊢
    rw [he]
    simp only [Bool.and_eq_true] at hsec
    simp only [hsec.1, Bool.true_and]
    decide
  · unfold Req.plainQuery at h
    split at h
    · simp [httpthrow] at h
    · rw [Except.ok.injEq] at h
      subst h
      exact ⟨⟨hfresh.minor_ge, hfresh.minor_le, hfresh.method, hfresh.ohdrs, hfresh.kvpairs,
        hfresh.blob⟩, haccept⟩

theorem Fresh.checkUnlessP (hfresh : r.Fresh hr)
    (haccept : r.mayUseSecrets svr = true → r.acceptEncoding = ceFs123Secretbox)
    (h : r.checkUnlessP hr = .ok r') : r'.Checked svr hr := by
  unfold Req.checkUnlessP at h
  split at h
  · next hp =>
    rw [Except.ok.injEq] at h
    subst h
    exact ⟨hfresh.minor_ge, hfresh.minor_le, hfresh.method, hfresh.ohdrs, haccept,
      Or.inl ⟨hp, hfresh.kvpairs⟩, hfresh.blob⟩
  · next hp =>
    unfold Req.checkRequest at h
    split at h
    · simp [httpthrow] at h
    · obtain ⟨-, -, h⟩ := bind_eq_ok_iff.mp h
      split at h
      · simp [httpthrow] at h
      · next i hi =>
        rw [Except.ok.injEq] at h
        subst h
        refine ⟨hfresh.minor_ge, hfresh.minor_le, hfresh.method, hfresh.ohdrs, haccept,
          Or.inr ⟨hp, hr.uri.drop i, ?_⟩, hfresh.blob⟩
        simp [addKv, hfresh.kvpairs]

/-- `/d` gets a buffer of the requested length. -/
theorem Checked.dispatchDir {inm64 : ℕ} {call : HandlerCall} (hchk : r.Checked svr hr)
    (hf : r.function = bytes "d") (h : r.dispatchDir inm64 = .ok (r', call)) : r'.Handed svr hr := by
  unfold Req.dispatchDir at h
  obtain ⟨⟨lenkib, off⟩, -, h⟩ := bind_eq_ok_iff.mp h
  obtain ⟨-, -, h⟩ := bind_eq_ok_iff.mp h
  obtain ⟨start, -, h⟩ := bind_eq_ok_iff.mp h
  obtain ⟨r₁, halloc, h⟩ := bind_eq_ok_iff.mp h
  obtain ⟨start', -, h⟩ := bind_eq_ok_iff.mp h
  obtain ⟨hblob, hsz, rfl⟩ := allocatePbuf_eq_ok_iff.mp halloc
  rw [Except.ok.injEq, Prod.mk.injEq] at h
  obtain ⟨rfl, -⟩ := h
  refine ⟨hchk.minor_ge, hchk.minor_le, hchk.method, hchk.ohdrs, hchk.accept, hchk.echo, ?_⟩
  exact BufState.dir [] _ hf rfl (by simp) (by simp; omega)

/-- `/f` gets a buffer of the requested length, with room for a validator in front. -/
theorem Checked.dispatchFile {inm64 : ℕ} {call : HandlerCall} (hchk : r.Checked svr hr)
    (hf : r.function = bytes "f") (h : r.dispatchFile inm64 = .ok (r', call)) : r'.Handed svr hr := by
  unfold Req.dispatchFile at h
  obtain ⟨⟨lenkib, offsetkib⟩, -, h⟩ := bind_eq_ok_iff.mp h
  obtain ⟨-, -, h⟩ := bind_eq_ok_iff.mp h
  obtain ⟨r₁, halloc, h⟩ := bind_eq_ok_iff.mp h
  obtain ⟨buf, hbuf, h⟩ := bind_eq_ok_iff.mp h
  obtain ⟨hblob, hsz, rfl⟩ := allocatePbuf_eq_ok_iff.mp halloc
  split at h
  · simp [httpthrow] at h
  · rw [Except.ok.injEq, Prod.mk.injEq] at h
    obtain ⟨rfl, -⟩ := h
    have hsum : validatorSpace + (lenkib * 1024 + backRoom)
        = lenkib * 1024 + validatorSpace + backRoom := by omega
    obtain ⟨buf', hbuf', hreq⟩ := subspan_withBuf { r with requestedLen := lenkib * 1024 }
      (f := zeros frontRoom) (s := zeros validatorSpace) (b := zeros (lenkib * 1024 + backRoom))
      (small_of_le (by simp; omega) (by simp; omega)) (zeros_length _).symm
    rw [zeros_append, zeros_append, hsum] at hreq
    rw [zeros_append, hsum, hbuf, Except.ok.injEq] at hbuf'
    subst hbuf'
    rw [hreq]
    refine ⟨hchk.minor_ge, hchk.minor_le, hchk.method, hchk.ohdrs, hchk.accept, hchk.echo, ?_⟩
    exact BufState.file (zeros (lenkib * 1024 + backRoom)) hf rfl (by simp [withBuf]) hsz

theorem dispatchXattr_req {call : HandlerCall} (h : r.dispatchXattr svr = .ok (r', call)) :
    r' = r := by
  unfold Req.dispatchXattr at h
  obtain ⟨⟨lenkib, first⟩, -, h⟩ := bind_eq_ok_iff.mp h
  obtain ⟨-, -, h⟩ := bind_eq_ok_iff.mp h
  dsimp only at h
  split at h
  · simp [httpthrow] at h
  · split at h
    · simp [httpthrow] at h
    · rw [Except.ok.injEq, Prod.mk.injEq] at h
      exact h.1.symm

theorem Checked.dispatch {inm64 : ℕ} {call : HandlerCall} (hchk : r.Checked svr hr)
    (h : r.dispatch svr hr inm64 = .ok (r', call)) : r'.Handed svr hr := by
  unfold Req.dispatch at h
  by_cases hd : r.function = bytes "d"
  · rw [if_neg (by rw [hd]; decide), if_pos hd] at h
    exact hchk.dispatchDir hd h
  by_cases hf : r.function = bytes "f"
  · rw [if_neg (by rw [hf]; decide), if_neg hd, if_pos hf] at h
    exact hchk.dispatchFile hf h
  rw [if_neg hd, if_neg hf] at h
  -- All other functions are handed over as they are.
  have hsimple : ∀ {call' : HandlerCall},
      (.ok (r, call') : Res (Req × HandlerCall)) = .ok (r', call) → r' = r := by
    intro call' h
    rw [Except.ok.injEq, Prod.mk.injEq] at h
    exact h.1.symm
  have hsame : r' = r := by
    split_ifs at h with ha hl hs hx hn hp
    · exact hsimple h
    · exact hsimple h
    · exact hsimple h
    · exact dispatchXattr_req h
    · exact hsimple h
    · exact hsimple h
    · simp [httpthrow] at h
  rw [hsame]
  exact ⟨hchk.minor_ge, hchk.minor_le, hchk.method, hchk.ohdrs, hchk.accept, hchk.echo,
    BufState.unallocated hd hf hchk.blob⟩

/-- Every request that reaches a handler is `Handed`. -/
theorem parse_handed {call : HandlerCall} (h : parse svr hr = .ok (r, call)) : r.Handed svr hr := by
  unfold parse at h
  obtain ⟨r₁, hpath, h⟩ := bind_eq_ok_iff.mp h
  have hfresh₁ := parsePath_fresh hpath
  split at h
  · simp [httpthrow] at h
  · next hacc =>
    have haccept : r₁.mayUseSecrets svr = true → r₁.acceptEncoding = ceFs123Secretbox := by
      intro hsec
      by_contra hne
      exact hacc ⟨hsec, hne⟩
    obtain ⟨r₂, hr₂, h⟩ := bind_eq_ok_iff.mp h
    obtain ⟨hfresh₂, haccept₂⟩ := hfresh₁.decodeQuery haccept hr₂
    obtain ⟨r₃, hr₃, h⟩ := bind_eq_ok_iff.mp h
    have hchk := hfresh₂.checkUnlessP haccept₂ hr₃
    obtain ⟨esid, -, h⟩ := bind_eq_ok_iff.mp h
    obtain ⟨inm64, -, h⟩ := bind_eq_ok_iff.mp h
    have hchk' : Checked svr hr { r₃ with inm := headInm hr } :=
      ⟨hchk.minor_ge, hchk.minor_le, hchk.method, hchk.ohdrs, hchk.accept, hchk.echo, hchk.blob⟩
    exact hchk'.dispatch h

end Parse

/-! ## Directory entries -/

/-- A directory entry as the handler passes it: name, type and estale cookie. -/
abbrev Dirent := Bytes × ℤ × ℕ

/-- The handler's calls of `add_dirent`, one after the other. -/
def addDirents (r : Req) (entries : List Dirent) : Res Req :=
  entries.foldlM (fun r e => do let (r, _) ← r.addDirent e.1 e.2.1 e.2.2; .ok r) r

section Dirents

variable {svr : Server} {hr : HttpRequest} {r r' : Req}

/-- One entry goes behind the content, if it leaves the room that the framing and the padding need. -/
theorem Handed.addDirent {name : Bytes} {type : ℤ} {esc : ℕ} {added : Bool}
    (hh : r.Handed svr hr) (h : r.addDirent name type esc = .ok (r', added)) : r'.Handed svr hr := by
  unfold Req.addDirent at h
  split_ifs at h with hd hlong hshort
  · simp [httpthrow] at h
  · simp [throwSe] at h
  · simp [throwSe] at h
  · have hfd : r.function = bytes "d" := not_not.mp hd
    obtain ⟨avail, havail, h⟩ := bind_eq_ok_iff.mp h
    split at h
    · rw [Except.ok.injEq, Prod.mk.injEq] at h
      obtain ⟨rfl, -⟩ := h
      exact hh
    · next hfits =>
      obtain ⟨r₁, happ, h⟩ := bind_eq_ok_iff.mp h
      rw [Except.ok.injEq, Prod.mk.injEq] at h
      obtain ⟨rfl, -⟩ := h
      cases hh.buf with
      | unallocated hd' _ _ => exact absurd hfd hd'
      | file b hf _ _ _ => exact absurd (hfd.symm.trans hf) (by decide)
      | dir c b _ hbuf hback hsum =>
        have hsmall : Small (zeros frontRoom) c b := small_of_le (by simp; omega) (by omega)
        -- What `buf_content_avail_back` leaves free is exactly `backRoom`.
        have havail' : avail + backRoom = b.length := by
          unfold bufContentAvailBack at havail
          rw [hbuf, withBuf_availBack r hsmall] at havail
          split at havail
          · simp at havail
          · rw [Except.ok.injEq] at havail
            simp only [backRoom] at *
            omega
        obtain ⟨entry, hentry⟩ : ∃ entry, entry = netstring name ++ [ch ' '] ++ decimalInt type
          ++ [ch ' '] ++ decimal esc ++ [ch '\n'] := ⟨_, rfl⟩
        rw [← hentry] at happ hfits
        rw [hbuf, append_withBuf r hsmall (by omega), Except.ok.injEq] at happ
        subst happ
        refine ⟨hh.minor_ge, hh.minor_le, hh.method, hh.ohdrs, hh.accept, hh.echo, ?_⟩
        refine BufState.dir (c ++ entry) (b.drop entry.length) hfd rfl ?_ ?_
        · rw [List.length_drop]
          omega
        · rw [List.length_append, List.length_drop]
          omega

theorem Handed.addDirents {entries : List Dirent} (hh : r.Handed svr hr)
    (h : r.addDirents entries = .ok r') : r'.Handed svr hr := by
  induction entries generalizing r with
  | nil =>
    obtain rfl : r = r' := by simpa [Req.addDirents, pure, Except.pure] using h
    exact hh
  | cons e entries ih =>
    unfold Req.addDirents at h
    rw [List.foldlM_cons] at h
    obtain ⟨r₁, h₁, h⟩ := bind_eq_ok_iff.mp h
    obtain ⟨⟨r₂, added⟩, hadd, h₂⟩ := bind_eq_ok_iff.mp h₁
    obtain rfl : r₂ = r₁ := by simpa using h₂
    exact ih (hh.addDirent hadd) h

end Dirents

end Req

end Fs123
