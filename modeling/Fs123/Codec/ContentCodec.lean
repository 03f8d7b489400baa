import Fs123.Client.Reply123
import Fs123.Codec.Sodium
import Fs123.Core.UcharSpan

/-!
# The content codec

The model of `content_codec.cpp` and of `fs123_secretbox_header`. Both directions work in place, so they
take the memory block that the span points into and return it with their result, also when they throw.

The wire format is
`nonce(24) | recordsz(4) | secretidlen(1) | secretid(secretidlen) | ciphertext(recordsz)`.
-/

namespace Fs123

open Cxx

/-! ## Names of the encodings -/

/-- `content_codec::encoding_stoi(encoding)`. -/
def encodingStoi (encoding : Bytes) : ℤ :=
  if (findStr (bytes "fs123-secretbox") encoding).isSome then ceFs123Secretbox
  else if encoding = [] ∨ (findStr (bytes "identity") encoding).isSome then ceIdent
  else ceUnknown

/-! ## The header -/

/-- The offsets of `idlen` and of `keyid` in `fs123_secretbox_header`. -/
def offsetofIdlen : ℕ := 28

@[inherit_doc offsetofIdlen] def offsetofKeyid : ℕ := 29

/-- `fs123_secretbox_header`, with `recordsz` in host order. -/
structure SecretboxHeader where
  nonce : Bytes
  recordsz : ℕ
  keyid : Bytes
  deriving Repr, DecidableEq

/-- `htonl`: four bytes, most significant first. -/
def be32 (n : ℕ) : Bytes :=
  [UInt8.ofNat (n / 2 ^ 24), UInt8.ofNat (n / 2 ^ 16), UInt8.ofNat (n / 2 ^ 8), UInt8.ofNat n]

/-- `ntohl` of four bytes. -/
def ofBe32 (b : Bytes) : ℕ := b.foldl (fun r x => r * 256 + x.toNat) 0

namespace SecretboxHeader

/-- The encryptor's constructor. The parameter `recordsz` is a `uint32_t`; the nonce is set later. -/
def forKey (k : Bytes) (recordsz : ℕ) : Res SecretboxHeader :=
  let idlen := k.length % 256
  if idlen = 0 then
    throwE .runtimeError (bytes "fs123_secretbox_header::ctor: zero-length id")
  else if idlen ≠ k.length then
    throwE .runtimeError (bytes "fs123_secretbox_header::ctor: key too long")
  else .ok ⟨zeros secretboxNoncebytes, recordsz % 2 ^ 32, k⟩

/-- `wiresize()`. -/
def wiresize (h : SecretboxHeader) : ℕ := h.keyid.length + offsetofKeyid

/-- The first `wiresize()` bytes of the header in memory. -/
def wire (h : SecretboxHeader) : Bytes :=
  h.nonce ++ be32 h.recordsz ++ [UInt8.ofNat h.keyid.length] ++ h.keyid

/-- The decryptor's constructor. The read of `onwire[off]` is guarded by `size() < off` only. -/
def ofWire (onwire : Bytes) : Res SecretboxHeader :=
  if onwire.length < offsetofIdlen then
    throwE .runtimeError (bytes "fs123_secretbox_header::ctor - size < offsetof(idlen)")
  else
    match onwire[offsetofIdlen]? with
    | none => .error .oob
    | some idlen =>
      if idlen = 0 then
        throwE .runtimeError (bytes "fs123_secretbox_header::ctor: zero-length id")
      else if onwire.length < idlen.toNat + offsetofKeyid then
        throwE .runtimeError (bytes "fs123_secretbox_header::ctor - not enough input bytes")
      else .ok ⟨slice onwire 0 secretboxNoncebytes, ofBe32 (slice onwire secretboxNoncebytes 4),
        slice onwire offsetofKeyid idlen.toNat⟩

end SecretboxHeader

/-! ## Decoding -/

/-- The text thrown when a secret is shorter than the cipher's key. -/
def secretTooShort (sid : Bytes) (size : ℕ) : Bytes :=
  bytes "secret[" ++ cstr sid ++ bytes "] is too short (" ++ decimal size ++ bytes "), needed "
    ++ decimal secretboxKeybytes

/-- The backward scan for the pad byte, with `k` bytes between `plainstart` and `pend`. -/
def scanPad (mem : Bytes) (plainstart : ℕ) : ℕ → Res ℕ
  | 0 => .ok plainstart
  | k + 1 =>
    match mem[plainstart + k]? with
    | none => .error .oob
    | some b => if b = 0 then scanPad mem plainstart k else .ok (plainstart + k)

/-- The end of `decode`, on the decrypted memory: find the pad byte and cut the plaintext out of the
message. -/
def stripPad (mem : Bytes) (message : PaddedUcharSpan) (plainstart len : ℕ) : Res PaddedUcharSpan := do
  let pend ← scanPad mem plainstart len
  match mem[pend]? with
  | none => .error .oob
  | some b =>
    if b ≠ 2 then
      throwE .runtimeError (bytes "mal-formed or missing pad-bytes at end of message")
    else
      PaddedUcharSpan.ofSpan message.data message.size (plainstart - message.data)
        (pend - plainstart)

/-- The decryption of the record after the header, in place, and the removal of the padding. The sum
`ciphertext_len + BOXZEROBYTES` is computed in 32 bits: both operands are `unsigned`. -/
def openRecord (na : Sodium) (mem : Bytes) (message : PaddedUcharSpan) (hdr : SecretboxHeader)
    (key : Bytes) : Res PaddedUcharSpan × Bytes :=
  let cstart := message.data + hdr.wiresize
  let paddedCstart := cstart - secretboxBoxzerobytes
  let paddedLen := (hdr.recordsz + secretboxBoxzerobytes) % 2 ^ 32
  let plainstart := paddedCstart + secretboxZerobytes
  match na.cryptoSecretboxOpen (slice mem paddedCstart paddedLen) hdr.nonce key with
  | none =>
    (throwE .runtimeError (bytes "message forged, msglen=" ++ decimal paddedLen
      ++ bytes ", secret=" ++ cstr hdr.keyid ++ bytes " key[0]=" ++ decimal ((key.headD 0).toNat)),
      mem)
  | some m =>
    let mem := writeAt mem paddedCstart m
    (stripPad mem message plainstart (cstart + hdr.recordsz - plainstart), mem)

/-- `content_codec::decode` for `CE_FS123_SECRETBOX`. -/
def decodeSecretbox (na : Sodium) (sm : SecretManager) (mem : Bytes) (message : PaddedUcharSpan) :
    Res PaddedUcharSpan × Bytes :=
  match SecretboxHeader.ofWire (message.bytesOf mem) with
  | .error f => (.error f, mem)
  | .ok hdr =>
    if hdr.recordsz ≠ message.size - hdr.wiresize then
      (throwE .runtimeError (bytes "content_codec::decode:  Header is garbled.  "
        ++ bytes "hdr.get_recordsz() != message.size() - hdr.wiresize()"), mem)
    else
      match sm.getSharedkey hdr.keyid with
      | .error f => (.error f, mem)
      | .ok key =>
        if key.length < secretboxKeybytes then
          (throwE .runtimeError (secretTooShort hdr.keyid key.length), mem)
        else openRecord na mem message hdr key

/-- `content_codec::decode`. -/
def decode (na : Sodium) (ce : ℤ) (mem : Bytes) (message : PaddedUcharSpan) (sm : SecretManager) :
    Res PaddedUcharSpan × Bytes :=
  if ce = ceIdent then (.ok message, mem)
  else if ce = ceUnknown then
    (throwE .runtimeError (bytes "cannot decode reply with unrecognized encoding"), mem)
  else if ce = ceFs123Secretbox then decodeSecretbox na sm mem message
  else
    (throwE .logicError (bytes "This can't happen.  reply.encoding isn't even CE_UNKNOWN"), mem)

/-! ## Encoding -/

/-- How `encode` gets its nonce: by hashing the plaintext, or from `randombytes_buf`, whose answer is
carried along. -/
inductive NonceMode where
  | derived
  | random (nonce : Bytes)
  deriving Repr, DecidableEq

/-- The nonce of `encode`. -/
def encodeNonce (na : Sodium) (secret plaintext : Bytes) : NonceMode → Res Bytes
  | .derived =>
    let keybytes := secret.length - secretboxKeybytes
    if keybytes < generichashKeybytesMin then
      throwE .runtimeError (bytes "Not enough bytes in key " ++ decimal secret.length
        ++ bytes " to derive a nonce " ++ decimal (secretboxKeybytes + generichashKeybytesMin)
        ++ bytes ".\n")
    else
      .ok (na.generichash secretboxNoncebytes plaintext
        (slice secret secretboxKeybytes (min keybytes generichashKeybytesMax)))
  | .random nonce => .ok nonce

/-- The number of pad bytes: at least one, up to the alignment. -/
def padding (padAlignment size : ℕ) : ℕ := padAlignment - size % padAlignment

/-- The bytes after the plaintext: `0x02` and then zeros. -/
def padBytes (n : ℕ) : Bytes := 2 :: zeros (n - 1)

/-- `content_codec::encode` for `CE_FS123_SECRETBOX`. -/
def encodeSecretbox (na : Sodium) (sid secret mem : Bytes) (input : PaddedUcharSpan)
    (padAlignment : ℕ) (mode : NonceMode) : Res PaddedUcharSpan × Bytes :=
  let padding := padding padAlignment input.size
  let recordsz := secretboxMacbytes + input.size + padding
  match SecretboxHeader.forKey sid recordsz with
  | .error f => (.error f, mem)
  | .ok hdr =>
    if input.availFront < hdr.wiresize + secretboxMacbytes then
      (throwE .invalidArgument
        (bytes "content_codec::encode:  not enough space to prepend header and MAC"), mem)
    else if input.availBack < padding then
      (throwE .invalidArgument
        (bytes "content_codec::encode:  not enough space after end for padding"), mem)
    else
      let plaintext := input.data
      let c := plaintext - secretboxZerobytes
      let msz := secretboxZerobytes + input.size + padding
      let mem := writeAt mem c (zeros secretboxZerobytes)
      let mem := writeAt mem (plaintext + input.size) (padBytes padding)
      match encodeNonce na secret (slice mem plaintext input.size) mode with
      | .error f => (.error f, mem)
      | .ok nonce =>
        let hdr := { hdr with nonce := nonce }
        if hdr.wiresize < secretboxBoxzerobytes then
          (throwE .runtimeError (bytes "fs123_secretbox_hdr smaller than BOXZEROBYTES.  How??"), mem)
        else
        match na.cryptoSecretbox (slice mem c msz) hdr.nonce secret with
        | none =>
          (throwE .runtimeError (bytes "crypto_secretbox:  failed to authenticate/decode message"),
            mem)
        | some box =>
          let mem := writeAt mem c box
          let mem := writeAt mem (plaintext - secretboxMacbytes - hdr.wiresize) hdr.wire
          (input.subspan (- toSsize (secretboxMacbytes + hdr.wiresize)) (recordsz + hdr.wiresize),
            mem)

/-- `content_codec::encode`. -/
def encode (na : Sodium) (ce : ℤ) (sid secret mem : Bytes) (input : PaddedUcharSpan)
    (padAlignment : ℕ) (mode : NonceMode) : Res PaddedUcharSpan × Bytes :=
  if ce = ceIdent then (.ok input, mem)
  else if secret.length < secretboxKeybytes then
    (throwE .runtimeError (secretTooShort sid secret.length), mem)
  else if ce ≠ ceFs123Secretbox then
    (throwE .invalidArgument (bytes "content_codec::encode only understands the identity "
      ++ bytes "and fs123-secretbox encodings"), mem)
  else encodeSecretbox na sid secret mem input padAlignment mode

end Fs123
