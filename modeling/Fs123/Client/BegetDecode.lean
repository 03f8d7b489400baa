import Fs123.Client.DecodedReply
import Fs123.Codec.RoundTrip

/-!
# Decrypting and decoding a reply

The model of `beget_decode` of the mounted client after `retrying_berefresh` has returned: the content is
decrypted as its encoding says, and then decoded.
-/

namespace Fs123

open Cxx

/-- What the mounted client reads of its configuration. -/
structure Client where
  na : Sodium
  secretMgr : Option SecretManager
  acceptPlaintextReplies : Bool
  encryptRequests : Bool

/-- `beget_decode(req)`, on the reply that the backend has delivered. -/
def Client.begetDecode (cl : Client) (fuel minor : ℕ) (reply : Reply123) :
    Option (Res DecodedReply) :=
  if reply.contentEncoding = ceIdent then
    if cl.acceptPlaintextReplies then decodedReply fuel minor reply reply.content
    else some (throwE (.systemError .system 5)
      (bytes "server replied in plaintext but client option Fs123AcceptPlaintextReplies is false"))
  else if reply.contentEncoding = ceFs123Secretbox then
    match cl.secretMgr with
    | none => some (throwE (.systemError .system 5)
        (bytes "reply is encoded with secretbox, but there's no secret manager"))
    | some sm =>
      match decode cl.na reply.contentEncoding reply.content
          ⟨0, reply.content.length, 0, reply.content.length⟩ sm with
      | (.error f, _) => some (.error f)
      | (.ok sp, mem) => decodedReply fuel minor reply (sp.bytesOf mem)
  else some (throwE (.systemError .system 5) (bytes "Unrecognized content-encoding"))

variable {cl : Client} {fuel minor : ℕ} {reply : Reply123}

theorem Client.begetDecode_ident (hce : reply.contentEncoding = ceIdent)
    (hplain : cl.acceptPlaintextReplies = true) :
    cl.begetDecode fuel minor reply = decodedReply fuel minor reply reply.content := by
  rw [Client.begetDecode, if_pos hce, if_pos hplain]

/-- The client decodes the plaintext of an envelope that it has the secret for. -/
theorem Client.begetDecode_envelope {sm : SecretManager} {sid secret nonce plain : Bytes} {al : ℕ}
    (hna : cl.na.Lawful) (hce : reply.contentEncoding = ceFs123Secretbox)
    (hsm : cl.secretMgr = some sm) (hkey : sm.getSharedkey sid = .ok secret)
    (hlen : secretboxKeybytes ≤ secret.length) (hpos : 0 < sid.length) (hle : sid.length ≤ 255)
    (hal : 0 < al) (hnonce : nonce.length = secretboxNoncebytes)
    (hrec : recordSize al plain.length < 2 ^ 32 - 16)
    (hcontent : reply.content = envelope cl.na sid secret nonce al plain) :
    cl.begetDecode fuel minor reply = decodedReply fuel minor reply plain := by
  obtain ⟨dec, mem', hdec, hbytes⟩ := decode_envelope hna hpos hle hal hkey hlen hnonce hrec
    (show (⟨0, reply.content.length, 0, reply.content.length⟩ : PaddedUcharSpan).data
      = ([] : Bytes).length from rfl)
    (show reply.content.length = (envelope cl.na sid secret nonce al plain).length by rw [hcontent])
  rw [List.nil_append, List.append_nil, ← hcontent] at hdec
  have hne : reply.contentEncoding ≠ ceIdent := by rw [hce]; decide
  rw [Client.begetDecode, if_neg hne, if_pos hce, hsm]
  simp only [hce, hdec, hbytes]

end Fs123
