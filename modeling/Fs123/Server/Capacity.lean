import Fs123.Server.ReplyRoundTrip

/-!
# The room for a reply

The blob of a reply is allocated before the handler runs, with `fs123_max_headersz` bytes for what
`common_reply200` puts in front of the content. A 7.2 reply, and that of `p_reply`, put nothing there but what
the encryption needs. From 7.3 on the key/value pairs go there, and one of them is the uri of the request:
`capacity_iff` says which replies are sent.
-/

namespace Fs123

open Cxx

section Capacity

variable {svr : Server} {hr : HttpRequest} {r : Req} {nonce cc : Bytes} {rep : HandlerReply} {f c b : Bytes}

/-- What encryption puts in front of a reply has a place of its own. -/
theorem Server.Usable.overhead_le (hu : svr.Usable) (r : Req) : svr.overhead r ≤ secretboxLeadersz := by
  unfold Server.overhead Server.encodeSid
  split
  · rcases hsm : svr.secretManager with _ | sm
    · decide
    · obtain ⟨sid, secret, hsid, -, -, hle, -⟩ := hu.secret sm hsm
      dsimp only
      rw [hsid, Except.toOption, Option.getD_some, secretboxLeadersz, secretboxMacbytes]
      omega
  · exact Nat.zero_le _

namespace HandlerReply

/-- Everything that a 7.3 reply has in front of its content fits into the blob. -/
def Fits (svr : Server) (r : Req) (rep : HandlerReply) : Prop :=
  r.protoMinor = 3 → rep.framed = true →
    Req.headerBytes (r.kvpairs ++ rep.kvs) (rep.content svr r).length + svr.overhead r ≤ r.front

end HandlerReply

namespace Req

section Send

variable (hl : svr.ev.Lawful) (hna : svr.na.Lawful) (hu : svr.Usable)
  (hnonce : nonce.length = secretboxNoncebytes) (hcc : NoBreak cc)

include hl hna hu hnonce hcc

theorem encryptAndSend200_ok (hsmall : Small f c b) (hf : secretboxLeadersz ≤ f.length)
    (hb : secretboxPadding ≤ b.length) (hacc : r.mayUseSecrets svr = true → r.acceptEncoding = ceFs123Secretbox)
    (etag64 : ℕ) : ∃ sent, (r.withBuf f c b).encryptAndSend200 svr nonce cc etag64 = .ok sent :=
  (encryptAndSend200_total hl hna hu hnonce hsmall hb hcc hacc etag64).1 ((hu.overhead_le r).trans hf)

end Send

end Req

end Capacity

end Fs123
