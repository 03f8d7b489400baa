import Fs123.Codec.ContentCodec
import Mathlib.Tactic.Ring

/-!
# The codec round trip

`encode_spec` says what `encode` leaves in memory: the envelope of the plaintext, everything outside it
untouched. `decode_spec` says that `decode` recovers the plaintext from an envelope wherever it lies.
Their composition is the round trip.

The decoder adds 16 to the record size in 32 bits, so an envelope whose record size is within 16 of
`2^32` is refused as forged (`decode_large`), and `roundTrips_iff` has that bound as its condition.
-/

namespace Fs123

open Cxx

/-! ## The header -/

theorem ofBe32_be32 {n : ℕ} (h : n < 2 ^ 32) : ofBe32 (be32 n) = n := by
  simp only [ofBe32, be32, List.foldl_cons, List.foldl_nil, UInt8.toNat_ofNat']
  omega

@[simp] theorem be32_length (n : ℕ) : (be32 n).length = 4 := rfl

namespace SecretboxHeader

/-- A header whose fields have the sizes of the C++ struct, with a usable key id. -/
structure Valid (h : SecretboxHeader) : Prop where
  nonce : h.nonce.length = secretboxNoncebytes
  recordsz : h.recordsz < 2 ^ 32
  keyid_pos : 0 < h.keyid.length
  keyid_le : h.keyid.length ≤ 255

theorem Valid.wire_length {h : SecretboxHeader} (hv : h.Valid) : h.wire.length = h.wiresize := by
  simp only [wire, wiresize, List.length_append, hv.nonce, be32_length, List.length_singleton,
    secretboxNoncebytes, offsetofKeyid]
  omega

/-- The decryptor's constructor reads back what is on the wire. -/
theorem Valid.ofWire_wire {h : SecretboxHeader} (hv : h.Valid) (ct : Bytes) :
    ofWire (h.wire ++ ct) = .ok h := by
  have hn := hv.nonce
  have hlen := hv.wire_length
  have hid : (UInt8.ofNat h.keyid.length).toNat = h.keyid.length := by
    have := hv.keyid_le
    simp only [UInt8.toNat_ofNat']
    omega
  have hpos := hv.keyid_pos
  simp only [secretboxNoncebytes] at hn
  have hget : (h.wire ++ ct)[offsetofIdlen]? = some (UInt8.ofNat h.keyid.length) := by
    rw [wire, List.append_assoc _ [_], List.append_assoc _ _ ct]
    exact getElem?_append_cons _ _ _ (by simp [offsetofIdlen, hn])
  have hnz : UInt8.ofNat h.keyid.length ≠ 0 := by
    intro h0
    rw [h0] at hid
    simp at hid
    omega
  unfold ofWire
  rw [if_neg, hget]
  · simp only [hid]
    rw [if_neg hnz, if_neg]
    · have hnonce : slice (h.wire ++ ct) 0 secretboxNoncebytes = h.nonce := by
        rw [wire, List.append_assoc, List.append_assoc, List.append_assoc]
        simp [secretboxNoncebytes, ← hn]
      have hrec : slice (h.wire ++ ct) secretboxNoncebytes 4 = be32 h.recordsz := by
        rw [wire, List.append_assoc _ [_], List.append_assoc _ _ ct]
        exact slice_append_mid _ _ _ hn.symm rfl
      have hkey : slice (h.wire ++ ct) offsetofKeyid h.keyid.length = h.keyid := by
        rw [wire]
        exact slice_append_mid _ _ _ (by simp [offsetofKeyid, hn]) rfl
      rw [hnonce, hrec, hkey, ofBe32_be32 hv.recordsz]
    · rw [List.length_append, hlen, wiresize]
      omega
  · rw [List.length_append, hlen, wiresize]
    simp [offsetofIdlen, offsetofKeyid]
    omega

end SecretboxHeader

theorem SecretboxHeader.forKey_eq_ok {sid : Bytes} {recordsz : ℕ} (hpos : 0 < sid.length)
    (hle : sid.length ≤ 255) :
    SecretboxHeader.forKey sid recordsz
      = .ok ⟨zeros secretboxNoncebytes, recordsz % 2 ^ 32, sid⟩ := by
  have hmod : sid.length % 256 = sid.length := Nat.mod_eq_of_lt (by omega)
  unfold SecretboxHeader.forKey
  simp only [hmod]
  rw [if_neg (by omega), if_neg (by simp)]

/-! ## The padding -/

theorem padding_pos {al : ℕ} (hal : 0 < al) (n : ℕ) : 0 < padding al n := by
  have := Nat.mod_lt n hal
  unfold padding
  omega

/-- Plaintext and padding make up the smallest multiple of the alignment that exceeds the plaintext. -/
theorem size_add_padding {al : ℕ} (hal : 0 < al) (n : ℕ) : n + padding al n = al * (n / al + 1) := by
  have hmod := Nat.mod_lt n hal
  have hdm := Nat.div_add_mod n al
  unfold padding
  rw [Nat.mul_add, Nat.mul_one]
  omega

theorem padBytes_length {n : ℕ} (h : 0 < n) : (padBytes n).length = n := by
  simp only [padBytes, List.length_cons, zeros_length]
  omega

/-- The backward scan stops at the pad byte: everything after it is zero. -/
theorem scanPad_zeros (a b : Bytes) (plain : Bytes) (z : ℕ) :
    scanPad (a ++ (plain ++ 2 :: zeros z) ++ b) a.length (plain.length + 1 + z)
      = .ok (a.length + plain.length) := by
  induction z generalizing b with
  | zero =>
    have hget : (a ++ (plain ++ 2 :: zeros 0) ++ b)[a.length + plain.length]? = some 2 := by
      simp [zeros]
    simp only [scanPad, hget]
    rw [if_neg (by decide)]
  | succ z ih =>
    have hsplit : a ++ (plain ++ 2 :: zeros (z + 1)) ++ b
        = a ++ (plain ++ 2 :: zeros z) ++ (0 :: b) := by
      simp [zeros, List.replicate_succ']
    have hget : (a ++ (plain ++ 2 :: zeros z) ++ (0 :: b))[a.length + (plain.length + 1 + z)]?
        = some 0 := by
      apply getElem?_append_cons
      simp only [List.length_append, List.length_cons, zeros_length]
      omega
    rw [hsplit, ← Nat.add_assoc, scanPad, hget]
    simp only [if_true]
    exact ih (0 :: b)

/-- What `decode` returns once the record is decrypted: the span of the plaintext. -/
theorem stripPad_padBytes (a plain post : Bytes) {n : ℕ} (hn : 0 < n) {message : PaddedUcharSpan}
    (hge : message.data ≤ a.length) (hfit : a.length + plain.length ≤ message.data + message.size)
    (hsize : message.size < npos) :
    stripPad (a ++ (plain ++ padBytes n) ++ post) message a.length (plain.length + n)
      = .ok ⟨a.length, plain.length, message.data, message.size⟩ := by
  have hnpos : npos + 1 = sizeMod := by decide
  have hscan : scanPad (a ++ (plain ++ padBytes n) ++ post) a.length (plain.length + n)
      = .ok (a.length + plain.length) := by
    rw [show plain.length + n = plain.length + 1 + (n - 1) from by omega]
    exact scanPad_zeros a post plain (n - 1)
  have hpad : (a ++ (plain ++ padBytes n) ++ post)[a.length + plain.length]? = some 2 := by
    have hsplit : a ++ (plain ++ padBytes n) ++ post
        = (a ++ plain) ++ 2 :: (zeros (n - 1) ++ post) := by
      simp [padBytes]
    rw [hsplit]
    exact getElem?_append_cons _ _ _ (by rw [List.length_append])
  have hspan : PaddedUcharSpan.ofSpan message.data message.size (a.length - message.data)
      plain.length = .ok ⟨a.length, plain.length, message.data, message.size⟩ := by
    unfold PaddedUcharSpan.ofSpan
    rw [if_neg (by omega), if_neg, if_neg (by rw [dynamicExtent]; omega), Nat.add_sub_cancel' hge]
    rw [addW_eq (by omega)]
    omega
  rw [stripPad, hscan]
  simp only [bind, Except.bind, hpad, ne_eq, not_true_eq_false, if_false, Nat.add_sub_cancel_left,
    hspan]

/-! ## Decoding an envelope -/

section Decode

variable {na : Sodium} {sm : SecretManager} {hdr : SecretboxHeader} {key : Bytes}
  {message : PaddedUcharSpan} {pre ct post : Bytes}

/-- The checks of `decode` up to the call of `crypto_secretbox_open`. -/
theorem decodeSecretbox_eq (hv : hdr.Valid) (hrec : hdr.recordsz = ct.length)
    (hkey : sm.getSharedkey hdr.keyid = .ok key) (hklen : secretboxKeybytes ≤ key.length)
    (hdata : message.data = pre.length) (hsize : message.size = hdr.wiresize + ct.length) :
    decodeSecretbox na sm (pre ++ (hdr.wire ++ ct) ++ post) message
      = openRecord na (pre ++ (hdr.wire ++ ct) ++ post) message hdr key := by
  have hbytes : message.bytesOf (pre ++ (hdr.wire ++ ct) ++ post) = hdr.wire ++ ct := by
    rw [PaddedUcharSpan.bytesOf]
    exact slice_append_mid _ _ _ hdata (by rw [hsize, List.length_append, hv.wire_length])
  unfold decodeSecretbox
  rw [hbytes, hv.ofWire_wire]
  simp only [hkey]
  rw [if_neg (by rw [hsize, hrec]; simp), if_neg (by omega)]

/-- An envelope whose record size is within 16 of `2^32` is refused: the decoder's length wraps. -/
theorem decode_large (hv : hdr.Valid) (hrec : hdr.recordsz = ct.length)
    (hkey : sm.getSharedkey hdr.keyid = .ok key) (hklen : secretboxKeybytes ≤ key.length)
    (hdata : message.data = pre.length) (hsize : message.size = hdr.wiresize + ct.length)
    (hlarge : 2 ^ 32 ≤ ct.length + secretboxBoxzerobytes) :
    Throws (decode na ceFs123Secretbox (pre ++ (hdr.wire ++ ct) ++ post) message sm).1 := by
  have hlt := hv.recordsz
  have hmod : (ct.length + secretboxBoxzerobytes) % 2 ^ 32 < secretboxZerobytes := by
    simp only [secretboxBoxzerobytes, secretboxZerobytes] at hlarge ⊢
    omega
  have hopen : ∀ off, na.cryptoSecretboxOpen (slice (pre ++ (hdr.wire ++ ct) ++ post) off
      ((ct.length + secretboxBoxzerobytes) % 2 ^ 32)) hdr.nonce key = none := by
    intro off
    rw [Sodium.cryptoSecretboxOpen, if_pos]
    rw [slice_length]
    omega
  unfold decode
  rw [if_neg (by decide), if_neg (by decide), if_pos rfl,
    decodeSecretbox_eq hv hrec hkey hklen hdata hsize]
  simp only [openRecord, hrec, hopen]
  simp

/-- A header that does not give the size of the record is refused. -/
theorem decode_garbled (hv : hdr.Valid) (hrec : hdr.recordsz ≠ ct.length)
    (hdata : message.data = pre.length) (hsize : message.size = hdr.wiresize + ct.length) :
    Throws (decode na ceFs123Secretbox (pre ++ (hdr.wire ++ ct) ++ post) message sm).1 := by
  have hbytes : message.bytesOf (pre ++ (hdr.wire ++ ct) ++ post) = hdr.wire ++ ct := by
    rw [PaddedUcharSpan.bytesOf]
    exact slice_append_mid _ _ _ hdata (by rw [hsize, List.length_append, hv.wire_length])
  unfold decode decodeSecretbox
  rw [if_neg (by decide), if_neg (by decide), if_pos rfl, hbytes, hv.ofWire_wire]
  dsimp only
  rw [if_pos (by rw [hsize, Nat.add_sub_cancel_left]; exact hrec)]
  exact ⟨_, rfl⟩

/-- `decode` recovers the plaintext of an envelope, wherever the envelope lies in memory. -/
theorem decode_spec (hna : na.Lawful) (hv : hdr.Valid) {plain : Bytes} {n : ℕ} (hn : 0 < n)
    (hct : ct = na.secretbox (key.take secretboxKeybytes) hdr.nonce (plain ++ padBytes n))
    (hrec : hdr.recordsz = ct.length) (hsmall : ct.length + secretboxBoxzerobytes < 2 ^ 32)
    (hkey : sm.getSharedkey hdr.keyid = .ok key) (hklen : secretboxKeybytes ≤ key.length)
    (hdata : message.data = pre.length) (hsize : message.size = hdr.wiresize + ct.length) :
    ∃ dec mem', decode na ceFs123Secretbox (pre ++ (hdr.wire ++ ct) ++ post) message sm
        = (.ok dec, mem') ∧ dec.bytesOf mem' = plain := by
  have hk32 : (key.take secretboxKeybytes).length = secretboxKeybytes := by
    rw [List.length_take, Nat.min_eq_left hklen]
  have hctlen : ct.length = secretboxMacbytes + (plain.length + n) := by
    rw [hct, hna.secretbox_length _ hk32 hv.nonce, List.length_append, padBytes_length hn]
  have hws : secretboxBoxzerobytes ≤ hdr.wiresize := by
    simp only [SecretboxHeader.wiresize, offsetofKeyid, secretboxBoxzerobytes]
    omega
  -- The header is cut 16 bytes before its end, where the call reads and writes from.
  obtain ⟨w, t, hwt, ht⟩ : ∃ w t, hdr.wire = w ++ t ∧ t.length = secretboxBoxzerobytes :=
    ⟨hdr.wire.take (hdr.wiresize - secretboxBoxzerobytes),
      hdr.wire.drop (hdr.wiresize - secretboxBoxzerobytes), (List.take_append_drop _ _).symm, by
        rw [List.length_drop, hv.wire_length]
        omega⟩
  have hwlen : w.length = hdr.wiresize - secretboxBoxzerobytes := by
    have := congrArg List.length hwt
    rw [hv.wire_length, List.length_append, ht] at this
    omega
  have hmem : pre ++ (hdr.wire ++ ct) ++ post = (pre ++ w) ++ (t ++ ct) ++ post := by
    rw [hwt]
    simp only [List.append_assoc]
  have hoff : message.data + hdr.wiresize - secretboxBoxzerobytes = (pre ++ w).length := by
    rw [List.length_append, hwlen, hdata]
    omega
  have hlen : (ct.length + secretboxBoxzerobytes) % 2 ^ 32 = (t ++ ct).length := by
    rw [Nat.mod_eq_of_lt hsmall, List.length_append, ht, Nat.add_comm]
  have hopen : na.cryptoSecretboxOpen (t ++ ct) hdr.nonce key
      = some (zeros secretboxZerobytes ++ (plain ++ padBytes n)) := by
    rw [Sodium.cryptoSecretboxOpen, if_neg, List.drop_left' ht, hct,
      hna.open_secretbox _ hk32 hv.nonce]
    · rfl
    · simp only [List.length_append, ht, hctlen, secretboxZerobytes, secretboxBoxzerobytes,
        secretboxMacbytes]
      omega
  obtain ⟨a, ha⟩ : ∃ a, a = pre ++ w ++ zeros secretboxZerobytes := ⟨_, rfl⟩
  have hwrite : writeAt (pre ++ (hdr.wire ++ ct) ++ post)
      (message.data + hdr.wiresize - secretboxBoxzerobytes)
      (zeros secretboxZerobytes ++ (plain ++ padBytes n)) = a ++ (plain ++ padBytes n) ++ post := by
    rw [hmem, writeAt_append_mid _ _ _ _ hoff, ha]
    · simp only [List.append_assoc]
    · simp only [List.length_append, zeros_length, ht, hctlen, padBytes_length hn,
        secretboxZerobytes, secretboxBoxzerobytes, secretboxMacbytes]
      omega
  have hread : slice (pre ++ (hdr.wire ++ ct) ++ post)
      (message.data + hdr.wiresize - secretboxBoxzerobytes) (t ++ ct).length = t ++ ct := by
    rw [hmem]
    exact slice_append_mid _ _ _ hoff rfl
  have hstart : message.data + hdr.wiresize - secretboxBoxzerobytes + secretboxZerobytes
      = a.length := by
    rw [hoff, ha]
    simp only [List.length_append, zeros_length]
  have hleft : message.data + hdr.wiresize + ct.length - a.length = plain.length + n := by
    rw [← hstart, hctlen]
    simp only [secretboxZerobytes, secretboxBoxzerobytes, secretboxMacbytes] at hws ⊢
    omega
  have hstrip : stripPad (a ++ (plain ++ padBytes n) ++ post) message a.length (plain.length + n)
      = .ok ⟨a.length, plain.length, message.data, message.size⟩ := by
    have hid := hv.keyid_le
    simp only [secretboxBoxzerobytes, secretboxMacbytes, SecretboxHeader.wiresize, offsetofKeyid,
      secretboxZerobytes] at *
    apply stripPad_padBytes a plain post hn
    · omega
    · omega
    · simp only [npos, sizeMod]
      omega
  refine ⟨⟨a.length, plain.length, message.data, message.size⟩, a ++ (plain ++ padBytes n) ++ post,
    ?_, ?_⟩
  · unfold decode
    rw [if_neg (by decide), if_neg (by decide), if_pos rfl,
      decodeSecretbox_eq hv hrec hkey hklen hdata hsize, openRecord]
    simp only [hrec, hlen, hread, hopen, hwrite, hstart, hleft, hstrip]
  · rw [PaddedUcharSpan.bytesOf, List.append_assoc a, List.append_assoc plain, ← List.append_assoc a]
    exact slice_append_mid _ _ _ rfl rfl

end Decode

/-! ## Encoding -/

section Encode

variable {na : Sodium} {sid secret : Bytes} {mode : NonceMode} {nonce : Bytes} {al : ℕ}

/-- The header that `encode` writes in front of a plaintext of `size` bytes. The field for the record size
has 32 bits. -/
def envelopeHeader (sid nonce : Bytes) (al size : ℕ) : SecretboxHeader :=
  ⟨nonce, (secretboxMacbytes + size + padding al size) % 2 ^ 32, sid⟩

/-- The record: the box of the padded plaintext. -/
def envelopeRecord (na : Sodium) (secret nonce : Bytes) (al : ℕ) (plain : Bytes) : Bytes :=
  na.secretbox (secret.take secretboxKeybytes) nonce (plain ++ padBytes (padding al plain.length))

/-- The bytes that `encode` leaves in memory. -/
def envelope (na : Sodium) (sid secret nonce : Bytes) (al : ℕ) (plain : Bytes) : Bytes :=
  (envelopeHeader sid nonce al plain.length).wire ++ envelopeRecord na secret nonce al plain

theorem envelopeRecord_length (hna : na.Lawful) (hal : 0 < al)
    (hsecret : secretboxKeybytes ≤ secret.length) (hnonce : nonce.length = secretboxNoncebytes)
    (plain : Bytes) :
    (envelopeRecord na secret nonce al plain).length
      = secretboxMacbytes + plain.length + padding al plain.length := by
  rw [envelopeRecord, hna.secretbox_length _ (by rw [List.length_take, Nat.min_eq_left hsecret])
    hnonce, List.length_append, padBytes_length (padding_pos hal _), Nat.add_assoc]

theorem envelopeHeader_valid (hpos : 0 < sid.length) (hle : sid.length ≤ 255)
    (hnonce : nonce.length = secretboxNoncebytes) (al size : ℕ) :
    (envelopeHeader sid nonce al size).Valid :=
  ⟨hnonce, Nat.mod_lt _ (by decide), hpos, hle⟩

theorem envelope_length (hna : na.Lawful) (hal : 0 < al) (hsecret : secretboxKeybytes ≤ secret.length)
    (hnonce : nonce.length = secretboxNoncebytes) (plain : Bytes) :
    (envelope na sid secret nonce al plain).length
      = secretboxMacbytes + plain.length + padding al plain.length + (sid.length + offsetofKeyid) := by
  rw [envelope, List.length_append, envelopeRecord_length hna hal hsecret hnonce]
  simp only [envelopeHeader, SecretboxHeader.wire, List.length_append, hnonce, be32_length,
    List.length_singleton, secretboxNoncebytes, offsetofKeyid]
  omega

/-- The work of `encode` on a memory split into its regions: `f₁ ++ f₂` in front of the plaintext, with
`f₂` the 32 bytes that the box call needs, and `back` where the padding goes. -/
theorem encodeSecretbox_regions (hna : na.Lawful) (hpos : 0 < sid.length) (hle : sid.length ≤ 255)
    (hal : 0 < al) (hsecret : secretboxKeybytes ≤ secret.length)
    {pre f₁ f₂ plain back : Bytes} (post : Bytes) {input : PaddedUcharSpan}
    (hdata : input.data = (pre ++ f₁ ++ f₂).length) (hsize : input.size = plain.length)
    (hf₁ : f₁.length + secretboxBoxzerobytes = sid.length + offsetofKeyid)
    (hf₂ : f₂.length = secretboxZerobytes) (hback : back.length = padding al plain.length)
    (hnonce : encodeNonce na secret plain mode = .ok nonce)
    (hnlen : nonce.length = secretboxNoncebytes)
    (hfront : sid.length + offsetofKeyid + secretboxMacbytes ≤ input.availFront)
    (havail : padding al plain.length ≤ input.availBack) :
    encodeSecretbox na sid secret (pre ++ f₁ ++ f₂ ++ plain ++ back ++ post) input al mode
      = (input.subspan (- toSsize (secretboxMacbytes + (sid.length + offsetofKeyid)))
          (secretboxMacbytes + plain.length + padding al plain.length
            + (sid.length + offsetofKeyid)),
        pre ++ envelope na sid secret nonce al plain ++ post) := by
  have hpad := padding_pos hal plain.length
  have hplen := padBytes_length hpad
  have hreclen := envelopeRecord_length hna hal hsecret hnlen plain
  have hwire := (envelopeHeader_valid hpos hle hnlen al plain.length).wire_length
  have hd : input.data = (pre ++ f₁).length + secretboxZerobytes := by
    rw [hdata, List.length_append, hf₂]
  obtain ⟨z, hz, hzlen⟩ : ∃ z, z = zeros secretboxZerobytes ∧ z.length = secretboxZerobytes :=
    ⟨_, rfl, zeros_length _⟩
  obtain ⟨pad, hpd⟩ : ∃ pad, pad = padBytes (padding al plain.length) := ⟨_, rfl⟩
  obtain ⟨box, hbox⟩ : ∃ box, box = envelopeRecord na secret nonce al plain := ⟨_, rfl⟩
  obtain ⟨hdr, hhdr⟩ : ∃ hdr, hdr = envelopeHeader sid nonce al plain.length := ⟨_, rfl⟩
  rw [← hpd] at hplen
  rw [← hbox] at hreclen
  rw [← hhdr] at hwire
  -- Zero bytes in front of the plaintext, the pad bytes behind it.
  have h1 : writeAt (pre ++ f₁ ++ f₂ ++ plain ++ back ++ post) (input.data - secretboxZerobytes) z
      = (pre ++ f₁ ++ z) ++ plain ++ (back ++ post) := by
    have := writeAt_append_mid (pre ++ f₁) f₂ (plain ++ (back ++ post)) z
      (show input.data - secretboxZerobytes = (pre ++ f₁).length from by omega)
      (by rw [hzlen, hf₂])
    simpa only [List.append_assoc] using this
  have h2 : writeAt ((pre ++ f₁ ++ z) ++ plain ++ (back ++ post)) (input.data + plain.length) pad
      = (pre ++ f₁ ++ z ++ plain) ++ pad ++ post := by
    rw [← List.append_assoc]
    refine writeAt_append_mid _ _ _ _ ?_ (by rw [hplen, hback])
    rw [List.length_append, List.length_append, hzlen, hd]
  have hplain : slice ((pre ++ f₁ ++ z ++ plain) ++ pad ++ post) input.data plain.length = plain := by
    rw [List.append_assoc (pre ++ f₁ ++ z ++ plain)]
    exact slice_append_mid _ _ _ (by rw [List.length_append, hzlen, hd]) rfl
  -- The box call reads the zeros, the plaintext and the padding, and writes the record.
  have hread : slice ((pre ++ f₁ ++ z ++ plain) ++ pad ++ post) (input.data - secretboxZerobytes)
      (secretboxZerobytes + plain.length + padding al plain.length) = z ++ plain ++ pad := by
    have := slice_append_mid (pre ++ f₁) (z ++ plain ++ pad) post
      (show input.data - secretboxZerobytes = (pre ++ f₁).length from by omega)
      (show secretboxZerobytes + plain.length + padding al plain.length
          = (z ++ plain ++ pad).length from by
        rw [List.length_append, List.length_append, hzlen, hplen])
    simpa only [List.append_assoc] using this
  have hcrypt : na.cryptoSecretbox (z ++ plain ++ pad) nonce secret
      = some (zeros secretboxBoxzerobytes ++ box) := by
    rw [Sodium.cryptoSecretbox, if_neg, List.append_assoc, List.drop_left' hzlen, hbox, hpd,
      envelopeRecord]
    rw [List.length_append, List.length_append, hzlen]
    omega
  have h3 : writeAt ((pre ++ f₁ ++ z ++ plain) ++ pad ++ post) (input.data - secretboxZerobytes)
      (zeros secretboxBoxzerobytes ++ box)
      = pre ++ (f₁ ++ zeros secretboxBoxzerobytes) ++ (box ++ post) := by
    have := writeAt_append_mid (pre ++ f₁) (z ++ plain ++ pad) post
      (zeros secretboxBoxzerobytes ++ box)
      (show input.data - secretboxZerobytes = (pre ++ f₁).length from by omega)
      (by
        simp only [List.length_append, zeros_length, hzlen, hplen, hreclen, secretboxZerobytes,
          secretboxBoxzerobytes, secretboxMacbytes]
        omega)
    simpa only [List.append_assoc] using this
  have hwsize : hdr.wiresize = sid.length + offsetofKeyid := by rw [hhdr]; rfl
  have h4 : writeAt (pre ++ (f₁ ++ zeros secretboxBoxzerobytes) ++ (box ++ post))
      (input.data - secretboxMacbytes - hdr.wiresize) hdr.wire
      = pre ++ hdr.wire ++ (box ++ post) := by
    refine writeAt_append_mid _ _ _ _ ?_ ?_
    · rw [hd, List.length_append, hwsize]
      simp only [secretboxZerobytes, secretboxBoxzerobytes, secretboxMacbytes] at hf₁ ⊢
      omega
    · rw [hwire, List.length_append, zeros_length, hf₁, hwsize]
  unfold encodeSecretbox
  simp only [hsize, SecretboxHeader.forKey_eq_ok hpos hle]
  rw [if_neg (by simp only [SecretboxHeader.wiresize]; omega), if_neg (by omega), ← hz, h1, ← hpd, h2,
    hplain, hnonce]
  simp only
  rw [if_neg, hread, hcrypt]
  · simp only
    rw [h3, show (⟨nonce, (secretboxMacbytes + plain.length + padding al plain.length) % 2 ^ 32, sid⟩
      : SecretboxHeader) = hdr from hhdr.symm, h4, hwsize, envelope, ← hhdr, ← hbox]
    simp only [List.append_assoc]
  · simp only [SecretboxHeader.wiresize, secretboxBoxzerobytes, offsetofKeyid]
    omega

/-- What `encode` leaves in memory: the envelope, from 16 bytes and the header in front of the plaintext
to the end of the padding, and nothing else changed. -/
theorem encode_spec (hna : na.Lawful) (hpos : 0 < sid.length) (hle : sid.length ≤ 255) (hal : 0 < al)
    (hsecret : secretboxKeybytes ≤ secret.length) {mem : Bytes} {input : PaddedUcharSpan}
    (hwf : input.Wf mem) (hfront : sid.length + offsetofKeyid + secretboxMacbytes ≤ input.availFront)
    (hback : padding al input.size ≤ input.availBack)
    (hnonce : encodeNonce na secret (input.bytesOf mem) mode = .ok nonce)
    (hnlen : nonce.length = secretboxNoncebytes) :
    ∃ pre post, encode na ceFs123Secretbox sid secret mem input al mode
        = (.ok ⟨pre.length, secretboxMacbytes + input.size + padding al input.size
              + (sid.length + offsetofKeyid), input.bbData, input.bbSize⟩,
            pre ++ envelope na sid secret nonce al (input.bytesOf mem) ++ post) := by
  have hbackeq := hwf.availBack_eq
  have hspan := hwf
  obtain ⟨hf, hb, hbox, hsmall⟩ := hwf
  have hav : input.availFront = input.data - input.bbData := rfl
  have hplen : (input.bytesOf mem).length = input.size := by
    rw [PaddedUcharSpan.bytesOf, slice_length]
    omega
  obtain ⟨p0, hp0⟩ : ∃ p0, input.data = p0 + (sid.length + offsetofKeyid + secretboxMacbytes) :=
    ⟨input.data - (sid.length + offsetofKeyid + secretboxMacbytes), by omega⟩
  have hp0' : p0 + (sid.length + offsetofKeyid - secretboxBoxzerobytes)
      = input.data - secretboxZerobytes := by
    simp only [secretboxZerobytes, secretboxBoxzerobytes, secretboxMacbytes, offsetofKeyid] at hp0 ⊢
    omega
  have h32 : input.data - secretboxZerobytes + secretboxZerobytes = input.data := by
    simp only [secretboxZerobytes, secretboxMacbytes, offsetofKeyid] at hp0 ⊢
    omega
  -- Cut the memory at the header, 32 bytes before the plaintext, around it and after the padding.
  have hcut : mem = mem.take p0 ++ slice mem p0 (sid.length + offsetofKeyid - secretboxBoxzerobytes)
      ++ slice mem (input.data - secretboxZerobytes) secretboxZerobytes ++ input.bytesOf mem
      ++ slice mem (input.data + input.size) (padding al input.size)
      ++ mem.drop (input.data + input.size + padding al input.size) := by
    rw [take_append_slice mem hp0', take_append_slice mem h32, PaddedUcharSpan.bytesOf,
      take_append_slice mem rfl, take_append_slice mem rfl, List.take_append_drop]
  have hl0 : (mem.take p0).length = p0 := by
    rw [List.length_take]
    omega
  have hl1 : (slice mem p0 (sid.length + offsetofKeyid - secretboxBoxzerobytes)).length
      + secretboxBoxzerobytes = sid.length + offsetofKeyid := by
    rw [slice_length]
    simp only [secretboxBoxzerobytes, secretboxMacbytes, offsetofKeyid] at hp0 ⊢
    omega
  have hl2 : (slice mem (input.data - secretboxZerobytes) secretboxZerobytes).length
      = secretboxZerobytes := by
    rw [slice_length]
    omega
  have hl3 : (slice mem (input.data + input.size) (padding al input.size)).length
      = padding al (input.bytesOf mem).length := by
    rw [slice_length, hplen]
    omega
  have hdata : input.data = (mem.take p0
      ++ slice mem p0 (sid.length + offsetofKeyid - secretboxBoxzerobytes)
      ++ slice mem (input.data - secretboxZerobytes) secretboxZerobytes).length := by
    rw [List.length_append, List.length_append, hl0, hl2]
    simp only [secretboxZerobytes, secretboxBoxzerobytes, secretboxMacbytes] at hl1 hp0 ⊢
    omega
  have hregions := encodeSecretbox_regions hna hpos hle hal hsecret
    (mem.drop (input.data + input.size + padding al input.size)) hdata hplen.symm hl1 hl2 hl3
    hnonce hnlen hfront (by rw [hplen]; exact hback)
  rw [← hcut, hplen] at hregions
  refine ⟨mem.take p0, mem.drop (input.data + input.size + padding al input.size), ?_⟩
  unfold encode
  rw [if_neg (by decide), if_neg (by omega), if_neg (by decide), hregions]
  have h63 : secretboxMacbytes + (sid.length + offsetofKeyid) < 2 ^ 63 := by omega
  rw [hspan.subspan_eq_ok, hl0]
  · have : ((input.data : ℤ) + -toSsize (secretboxMacbytes + (sid.length + offsetofKeyid))).toNat
        = p0 := by
      rw [toSsize_eq h63]
      omega
    rw [this]
  · rw [toSsize_eq h63]
    omega
  · rw [toSsize_eq h63]
    push_cast
    omega

end Encode

/-! ## The round trip -/

/-- The record size: 16 plus the smallest multiple of the alignment that exceeds the plaintext. -/
def recordSize (al size : ℕ) : ℕ := secretboxMacbytes + al * (size / al + 1)

theorem recordSize_eq {al : ℕ} (hal : 0 < al) (size : ℕ) :
    recordSize al size = secretboxMacbytes + size + padding al size := by
  rw [recordSize, ← size_add_padding hal, Nat.add_assoc]

section Envelope

variable {na : Sodium} {sm : SecretManager} {sid secret nonce plain : Bytes} {al : ℕ}
  {message : PaddedUcharSpan} {pre post : Bytes}

theorem decode_envelope (hna : na.Lawful) (hpos : 0 < sid.length) (hle : sid.length ≤ 255)
    (hal : 0 < al) (hkey : sm.getSharedkey sid = .ok secret)
    (hlen : secretboxKeybytes ≤ secret.length) (hnonce : nonce.length = secretboxNoncebytes)
    (hrec : recordSize al plain.length < 2 ^ 32 - 16) (hdata : message.data = pre.length)
    (hsize : message.size = (envelope na sid secret nonce al plain).length) :
    ∃ dec mem', decode na ceFs123Secretbox (pre ++ envelope na sid secret nonce al plain ++ post)
        message sm = (.ok dec, mem') ∧ dec.bytesOf mem' = plain := by
  have hreclen := envelopeRecord_length hna hal hlen hnonce plain
  have hv := envelopeHeader_valid hpos hle hnonce al plain.length
  rw [recordSize_eq hal] at hrec
  refine decode_spec hna hv (padding_pos hal plain.length) rfl ?_ ?_ hkey hlen hdata ?_
  · rw [hreclen]
    exact Nat.mod_eq_of_lt (by omega)
  · rw [hreclen, secretboxBoxzerobytes]
    omega
  · rw [hsize, envelope, List.length_append, hv.wire_length]

/-- From 16 below `2^32` on, the envelope of a plaintext is refused: first because the decoder's length
wraps, then because the field for the record size has. -/
theorem decode_envelope_throws (hna : na.Lawful) (hpos : 0 < sid.length) (hle : sid.length ≤ 255)
    (hal : 0 < al) (hkey : sm.getSharedkey sid = .ok secret)
    (hlen : secretboxKeybytes ≤ secret.length) (hnonce : nonce.length = secretboxNoncebytes)
    (hrec : 2 ^ 32 - 16 ≤ recordSize al plain.length) (hdata : message.data = pre.length)
    (hsize : message.size = (envelope na sid secret nonce al plain).length) :
    Throws (decode na ceFs123Secretbox (pre ++ envelope na sid secret nonce al plain ++ post)
      message sm).1 := by
  have hreclen := envelopeRecord_length hna hal hlen hnonce plain
  have hv := envelopeHeader_valid hpos hle hnonce al plain.length
  have hsize' : message.size = (envelopeHeader sid nonce al plain.length).wiresize
      + (envelopeRecord na secret nonce al plain).length := by
    rw [hsize, envelope, List.length_append, hv.wire_length]
  rw [recordSize_eq hal] at hrec
  by_cases hfield : secretboxMacbytes + plain.length + padding al plain.length < 2 ^ 32
  · refine decode_large hv ?_ hkey hlen hdata hsize' ?_
    · rw [hreclen]
      exact Nat.mod_eq_of_lt hfield
    · rw [hreclen, secretboxBoxzerobytes]
      omega
  · refine decode_garbled hv ?_ hdata hsize'
    rw [hreclen]
    exact Nat.ne_of_lt (lt_of_lt_of_le (Nat.mod_lt _ (by decide)) (Nat.not_lt.mp hfield))

end Envelope

/-- Encoding the span and decoding the result gives its bytes back, and the encoded span has the size of
the record, the fixed part of the header and the secret id. -/
def RoundTrips (na : Sodium) (sm : SecretManager) (sid secret mem : Bytes) (input : PaddedUcharSpan)
    (al : ℕ) (mode : NonceMode) : Prop :=
  ∃ enc mem₁, encode na ceFs123Secretbox sid secret mem input al mode = (.ok enc, mem₁)
    ∧ enc.size = recordSize al input.size + 29 + sid.length
    ∧ ∃ dec mem₂, decode na ceFs123Secretbox mem₁ enc sm = (.ok dec, mem₂)
      ∧ dec.bytesOf mem₂ = input.bytesOf mem

/-- The nonce that `randombytes_buf` fills in has the size asked for. -/
def NonceMode.Sized : NonceMode → Prop
  | .derived => True
  | .random nonce => nonce.length = secretboxNoncebytes

/-- The size of secret that each nonce mode needs. -/
def NonceMode.minSecret : NonceMode → ℕ
  | .derived => secretboxKeybytes + generichashKeybytesMin
  | .random _ => secretboxKeybytes

/-- A secret that is long enough gives a nonce. -/
theorem encodeNonce_eq_ok {na : Sodium} (hna : na.Lawful) {secret : Bytes} (plain : Bytes)
    {mode : NonceMode} (hmode : mode.Sized) (hsecret : mode.minSecret ≤ secret.length) :
    ∃ nonce, encodeNonce na secret plain mode = .ok nonce ∧ nonce.length = secretboxNoncebytes := by
  cases mode with
  | derived =>
    simp only [NonceMode.minSecret] at hsecret
    have hk : ¬ secret.length - secretboxKeybytes < generichashKeybytesMin := by omega
    simp only [encodeNonce, if_neg hk]
    exact ⟨_, rfl, hna.generichash_length _ _ _⟩
  | random nonce => exact ⟨nonce, rfl, hmode⟩

/-- What `encode` has checked when it succeeds: the size of the id and of the secret. -/
theorem encode_checked {na : Sodium} {sid secret mem : Bytes} {input enc : PaddedUcharSpan} {al : ℕ}
    {mode : NonceMode} {mem' : Bytes}
    (h : encode na ceFs123Secretbox sid secret mem input al mode = (.ok enc, mem')) :
    0 < sid.length ∧ sid.length ≤ 255 ∧ mode.minSecret ≤ secret.length := by
  unfold encode at h
  rw [if_neg (by decide)] at h
  split at h
  · simp [throwE] at h
  · next hlen =>
    rw [if_neg (by decide)] at h
    have hmod := Nat.mod_lt sid.length (show 0 < 256 by decide)
    unfold encodeSecretbox SecretboxHeader.forKey at h
    dsimp only at h
    by_cases h0 : sid.length % 256 = 0
    · simp [h0, throwE] at h
    · by_cases hsid : sid.length % 256 = sid.length
      · rw [if_neg h0, if_neg (not_not.mpr hsid)] at h
        dsimp only at h
        refine ⟨by omega, by omega, ?_⟩
        cases mode with
        | random nonce =>
          simp only [NonceMode.minSecret]
          omega
        | derived =>
          -- The hash needs its share of the secret.
          by_contra hshort
          simp only [NonceMode.minSecret] at hshort
          have hk : secret.length - secretboxKeybytes < generichashKeybytesMin := by omega
          split_ifs at h
          · simp [throwE] at h
          · simp [throwE] at h
          · simp [encodeNonce, hk, throwE] at h
      · rw [if_neg h0, if_pos hsid] at h
        simp [throwE] at h

section RoundTrip

variable {na : Sodium} {sm : SecretManager} {sid secret mem : Bytes} {input : PaddedUcharSpan}
  {al : ℕ} {mode : NonceMode}

/-- The arguments of a round trip: a key id of 1 to 255 bytes that the secret manager knows, a secret of
the size that `encode` checks for, an alignment, room around the plaintext, and a record size that fits
its field. -/
structure CodecArgs (sm : SecretManager) (sid secret mem : Bytes) (input : PaddedUcharSpan) (al : ℕ)
    (mode : NonceMode) : Prop where
  sid_pos : 0 < sid.length
  sid_le : sid.length ≤ 255
  known : sm.getSharedkey sid = .ok secret
  secret_len : mode.minSecret ≤ secret.length
  al_pos : 0 < al
  wf : input.Wf mem
  front : sid.length + 29 + 16 ≤ input.availFront
  back : padding al input.size ≤ input.availBack
  recordsz : recordSize al input.size < 2 ^ 32
  sized : mode.Sized

/-- The message that `encode` returns, and what `decode` makes of it. -/
theorem CodecArgs.encode_ok (h : CodecArgs sm sid secret mem input al mode) (hna : na.Lawful) :
    ∃ enc mem₁, encode na ceFs123Secretbox sid secret mem input al mode = (.ok enc, mem₁)
      ∧ enc.size = recordSize al input.size + 29 + sid.length
      ∧ (recordSize al input.size + 16 < 2 ^ 32 → ∃ dec mem₂,
          decode na ceFs123Secretbox mem₁ enc sm = (.ok dec, mem₂)
            ∧ dec.bytesOf mem₂ = input.bytesOf mem)
      ∧ (2 ^ 32 ≤ recordSize al input.size + 16 →
          Throws (decode na ceFs123Secretbox mem₁ enc sm).1) := by
  have hsecret := h.secret_len
  have hks : secretboxKeybytes ≤ secret.length := by
    cases mode <;> simp only [NonceMode.minSecret] at hsecret <;> omega
  have hwf := h.wf
  have hplen : (input.bytesOf mem).length = input.size := by
    have := hwf.box
    have := hwf.back
    rw [PaddedUcharSpan.bytesOf, slice_length]
    omega
  obtain ⟨nonce, hnonce, hnlen⟩ := encodeNonce_eq_ok hna (input.bytesOf mem) h.sized hsecret
  obtain ⟨pre, post, henc⟩ := encode_spec hna h.sid_pos h.sid_le h.al_pos hks hwf h.front h.back hnonce
    hnlen
  have hsize : secretboxMacbytes + input.size + padding al input.size + (sid.length + offsetofKeyid)
      = (envelope na sid secret nonce al (input.bytesOf mem)).length := by
    rw [envelope_length hna h.al_pos hks hnlen, hplen]
  refine ⟨_, _, henc, ?_, ?_, ?_⟩
  · rw [recordSize_eq h.al_pos]
    simp only [offsetofKeyid]
    omega
  · intro hsmall
    refine decode_envelope hna h.sid_pos h.sid_le h.al_pos h.known hks hnlen ?_ rfl hsize
    rw [hplen]
    omega
  · intro hlarge
    refine decode_envelope_throws hna h.sid_pos h.sid_le h.al_pos h.known hks hnlen ?_ rfl hsize
    rw [hplen]
    omega

/-- A record size within 16 of `2^32` breaks the round trip. -/
theorem CodecArgs.not_roundTrips (h : CodecArgs sm sid secret mem input al mode) (hna : na.Lawful)
    (hlarge : 2 ^ 32 ≤ recordSize al input.size + 16) :
    ¬ RoundTrips na sm sid secret mem input al mode := by
  rintro ⟨enc, mem₁, henc, -, dec, mem₂, hdec, -⟩
  obtain ⟨enc', mem₁', henc', -, -, hthrow⟩ := h.encode_ok hna
  rw [henc, Prod.mk.injEq, Except.ok.injEq] at henc'
  obtain ⟨rfl, rfl⟩ := henc'
  obtain ⟨e, he⟩ := hthrow hlarge
  rw [hdec] at he
  simp at he

/-- The round trip holds exactly when the record size is at least 16 below `2^32`. -/
theorem roundTrips_iff (hna : na.Lawful) (h : CodecArgs sm sid secret mem input al mode) :
    RoundTrips na sm sid secret mem input al mode ↔ recordSize al input.size < 2 ^ 32 - 16 := by
  constructor
  · intro hrt
    by_contra hlarge
    exact h.not_roundTrips hna (by omega) hrt
  · intro hsmall
    obtain ⟨enc, mem₁, henc, hsize, hdec, -⟩ := h.encode_ok hna
    exact ⟨enc, mem₁, henc, hsize, hdec (by omega)⟩

end RoundTrip

/-- libsodium at the key `00 01 .. 1f`, the nonce `00 01 .. 17` and the padded message
`"hi" 02 00 00 00 00 00`. -/
def sodiumHi : Sodium := Sodium.ofTable
  [124, 182, 96, 175, 221, 158, 198, 70, 143, 87, 221, 109, 36, 51, 249, 52, 40, 253, 130, 205, 115,
    134, 197, 71, 26, 36, 216, 173, 42, 82, 91, 110, 94, 255, 56, 79, 199, 202, 162, 16]
  [209, 32, 95, 203, 118, 236, 156, 130, 235, 25, 253, 172, 187, 139, 72, 209] []

/-- A secret manager with one secret. -/
def oneSecret (sid secret : Bytes) : SecretManager where
  getSharedkey s :=
    if s = sid then .ok secret else throwE .runtimeError (bytes "no such secret")
  getEncodeSid := .ok sid

/-- The bytes `0, 1, .., n - 1`. -/
def upTo (n : ℕ) : Bytes := (List.range n).map UInt8.ofNat

private def hiMem : Bytes := zeros 46 ++ bytes "hi" ++ zeros 6

private theorem hi_args : CodecArgs (oneSecret (bytes "k") (upTo 32)) (bytes "k") (upTo 32) hiMem
    ⟨46, 2, 0, 54⟩ 8 (.random (upTo 24)) where
  sid_pos := by decide
  sid_le := by decide
  known := by simp [oneSecret]
  secret_len := by decide
  al_pos := by decide
  wf := ⟨by decide, by decide, by decide, by decide⟩
  front := by decide
  back := by decide
  recordsz := by decide
  sized := by simp [NonceMode.Sized, upTo, secretboxNoncebytes]

theorem roundTrips_iff_hi :
    RoundTrips sodiumHi (oneSecret (bytes "k") (upTo 32)) (bytes "k") (upTo 32) hiMem ⟨46, 2, 0, 54⟩ 8
      (.random (upTo 24)) :=
  (roundTrips_iff (Sodium.ofTable_lawful _ _ _) hi_args).mpr (by decide)

/-- A plaintext of `2^32 - 33` bytes and its room, in a block of `2^32 + 14` bytes. -/
private def hugeMem : Bytes := zeros (2 ^ 32 + 14)

private theorem huge_args : CodecArgs (oneSecret (bytes "k") (upTo 32)) (bytes "k") (upTo 32) hugeMem
    ⟨46, 2 ^ 32 - 33, 0, 2 ^ 32 + 14⟩ 1 (.random (upTo 24)) where
  sid_pos := by decide
  sid_le := by decide
  known := by simp [oneSecret]
  secret_len := by decide
  al_pos := by decide
  wf := by
    refine ⟨by decide, by decide, ?_, ?_⟩
    · rw [hugeMem, zeros_length]
      decide
    · rw [hugeMem, zeros_length]
      decide
  front := by decide
  back := by decide
  recordsz := by decide
  sized := by simp [NonceMode.Sized, upTo, secretboxNoncebytes]

/-- With a record size of `2^32 - 16` the decoder takes the message for a forgery. -/
theorem not_roundTrips_huge :
    CodecArgs (oneSecret (bytes "k") (upTo 32)) (bytes "k") (upTo 32) hugeMem
        ⟨46, 2 ^ 32 - 33, 0, 2 ^ 32 + 14⟩ 1 (.random (upTo 24))
      ∧ ¬ RoundTrips sodiumHi (oneSecret (bytes "k") (upTo 32)) (bytes "k") (upTo 32) hugeMem
        ⟨46, 2 ^ 32 - 33, 0, 2 ^ 32 + 14⟩ 1 (.random (upTo 24)) :=
  ⟨huge_args, huge_args.not_roundTrips (Sodium.ofTable_lawful _ _ _) (by decide)⟩

end Fs123
