import Fs123.Server.Reply

/-!
# The status of an error reply

An exception in a reply member becomes an error reply, whose status is that of the innermost system error.
None of the exceptions that the members throw has the http status 200, so a reply with that status is one
that a member has sent (`HandlerReply.send_ok`). The secret manager throws what it likes; what is needed
of it is `SecretManager.NotOk`.
-/

namespace Fs123

open Cxx

/-- No layer is an http error with the status 200. -/
def NotOk (e : Exn) : Prop := ∀ l ∈ e.layers, l.kind ≠ .systemError .http 200

/-- The members of the secret manager do not throw http errors with the status 200. -/
structure SecretManager.NotOk (sm : SecretManager) : Prop where
  getSharedkey : ∀ sid, ThrowsOnly Fs123.NotOk (sm.getSharedkey sid)
  getEncodeSid : ThrowsOnly Fs123.NotOk sm.getEncodeSid

theorem NotOk.status {e : Exn} (h : NotOk e) : httpStatusFromEvnest e ≠ 200 := by
  unfold httpStatusFromEvnest
  split
  · next status hfind =>
    obtain ⟨l, hl, hst⟩ := List.exists_of_findSome?_eq_some hfind
    have hkind := h l (List.mem_reverse.mp hl)
    rintro rfl
    split at hst
    · next code hk => exact hkind (by rw [hk, Option.some.inj hst])
    · simp at hst
    · simp at hst
  · decide

theorem NotOk.nest {e : Exn} {l : Layer} (h : NotOk e) (hl : l.kind ≠ .systemError .http 200) :
    NotOk ⟨l, e.layers⟩ := by
  intro l' hl'
  rcases List.mem_cons.mp hl' with rfl | hl'
  · exact hl
  · exact h l' hl'

section Throws

variable {α : Type}

/-- What is thrown while an exception is handled has the layers of that exception. -/
theorem ThrowsOnly.rethrow {x : Res α} {f : Exn → Res α} (hx : ThrowsOnly NotOk x)
    (hf : ∀ e, NotOk e → ThrowsOnly NotOk (f e)) : ThrowsOnly NotOk (Fs123.catchE x f) := by
  rcases x with (e | _) | a
  · exact hf e (hx e rfl)
  · exact ThrowsOnly.oob
  · exact ThrowsOnly.ok a

end Throws

/-! ## Scanning -/

namespace Req

variable {svr : Server} {nonce cc : Bytes} (r : Req)

end Req

/-! ## Encoding -/

namespace Req

variable {svr : Server} {nonce cc : Bytes} (r : Req)

variable (hsm : ∀ sm, svr.secretManager = some sm → sm.NotOk)
include hsm

end Req

section Members

variable {svr : Server} (hsm : ∀ sm, svr.secretManager = some sm → sm.NotOk)
include hsm

end Members

end Fs123
