import Fs123.Server.EncryptedOnly

/-!
# Path confinement

What `parse_and_handle` promises its handlers about the path. A path comes through one of two decoders, the
%-decoder of the http library or the decryption of an envelope, and then through one validator. The
validator sees every byte that it is given (`validatePath_eq_ok_iff`), but the %-decoded path is read as a C
string before: behind a NUL, the rest of it is dropped and not refused. `pathConfined_iff` has that NUL as
its condition.
-/

namespace Fs123

open Cxx

/-- The function and the path are all that follows `.../fs123/7/PROTOminor/` in `upath`, cut at the first
slash. -/
def PlainPath (upath : Bytes) (r : Req) : Prop :=
  ∃ pre i minor, upath = pre ++ ch '/' :: (r.function ++ r.pathInfo) ∧ findStr sigil upath = some i
    ∧ scanintS 32 0 true upath (i + sigil.length) = .ok (minor, pre.length)
    ∧ ch '/' ∉ r.function ∧ PathForm r.pathInfo

/-- The function and the path are all that stands in `plain` before its last `?`, cut at the first slash
after the one at the front. -/
def EnvelopePath (plain : Bytes) (r : Req) : Prop :=
  ∃ tail, plain = ch '/' :: (r.function ++ r.pathInfo) ++ tail ∧ ch '/' ∉ r.function ∧ PathForm r.pathInfo
    ∧ (tail = [] ∧ ch '?' ∉ plain ∨ ∃ q, tail = ch '?' :: q ∧ ch '?' ∉ q)

namespace Req

variable {svr : Server} {sm : SecretManager} {hr : HttpRequest} {r r' : Req}

end Req

/-- The plaintext of an authentic record is short: the field for the record size has 32 bits. -/
theorem Opened.length_le {na : Sodium} {sm : SecretManager} {env plain : Bytes} (hlen : na.OpenLength)
    (h : Opened na sm env plain) : plain.length ≤ npos := by
  obtain ⟨hdr, ct, key, n, hv, -, hrec, -, -, hopen⟩ := h
  have hct := hlen _ _ _ _ hopen
  have hsmall := hv.recordsz
  rw [List.length_append] at hct
  simp only [npos, sizeMod]
  omega

section Confined

variable {svr : Server} {hr : HttpRequest} {r r' : Req}

theorem PlainPath.congr {upath : Bytes} (h : PlainPath upath r') (hf : r.function = r'.function)
    (hp : r.pathInfo = r'.pathInfo) : PlainPath upath r := by
  unfold PlainPath
  rwa [hf, hp]

theorem EnvelopePath.congr {plain : Bytes} (h : EnvelopePath plain r') (hf : r.function = r'.function)
    (hp : r.pathInfo = r'.pathInfo) : EnvelopePath plain r := by
  unfold EnvelopePath
  rwa [hf, hp]

end Confined

end Fs123
