import Fs123.Codec.Opened
import Fs123.Core.Base64

/-!
# What a refused message leaves behind

`content_codec::decode` works in place, and the last thing it can throw at, the pad byte, comes after the
decryption. `decode_authentic` and `decode_not_authentic` say what `decode` returns and leaves in memory
for a record that authenticates and for every other message. From the two follow when a throw leaves the
message as it was (`decode_strong_iff`) and when every index that the parsers read lies inside their input
(`parsing_inBounds_iff`).
-/

namespace Fs123

open Cxx

/-! ## The pad byte -/

/-- The byte that the backward scan of a record stops at: the last byte of `m` that is not zero, else the
first byte at the start of the record, which is a byte of `post` when the record is empty. -/
def padByte (m post : Bytes) : Option UInt8 := (m.reverse.find? (· ≠ 0)).or (m ++ post).head?

/-- The scan stops inside the record or at its end, at the byte that `padByte` names. -/
theorem scanPad_padByte (a m post : Bytes) :
    ∃ j ≤ m.length, scanPad (a ++ m ++ post) a.length m.length = .ok (a.length + j)
      ∧ (a ++ m ++ post)[a.length + j]? = padByte m post := by
  induction m using List.reverseRecOn generalizing post with
  | nil => exact ⟨0, le_refl 0, rfl, by simp [padByte, List.head?_eq_getElem?, List.getElem?_append_right]⟩
  | append_singleton m x ih =>
    have hsplit : a ++ (m ++ [x]) ++ post = a ++ m ++ x :: post := by simp
    have hget : (a ++ m ++ x :: post)[a.length + m.length]? = some x :=
      getElem?_append_cons _ _ _ (by rw [List.length_append])
    rw [hsplit, List.length_append, List.length_singleton, scanPad, hget]
    dsimp only
    by_cases hx : x = 0
    · -- A zero is skipped, and belongs to what follows the record from then on.
      obtain ⟨j, hj, hscan, hbyte⟩ := ih (x :: post)
      refine ⟨j, by omega, by rw [if_pos hx, hscan], hbyte.trans ?_⟩
      simp [padByte, hx]
    · refine ⟨m.length, by omega, by rw [if_neg hx], hget.trans ?_⟩
      simp [padByte, hx]

section Strip

variable {a m post : Bytes} {message : PaddedUcharSpan}

theorem PaddedUcharSpan.ofSpan_ne_oob (bbData bbSize offset count : ℕ) :
    ofSpan bbData bbSize offset count ≠ .error .oob := by
  unfold ofSpan
  split_ifs <;> simp [throwE]

/-- The byte at which the scan ends is read outside the record exactly when there is no byte. -/
theorem stripPad_oob_iff :
    stripPad (a ++ m ++ post) message a.length m.length = .error .oob ↔ padByte m post = none := by
  obtain ⟨j, -, hscan, hbyte⟩ := scanPad_padByte a m post
  rw [stripPad, hscan]
  simp only [bind, Except.bind, hbyte]
  cases padByte m post with
  | none => simp
  | some b =>
    by_cases hb : b = 2
    · simp [hb, PaddedUcharSpan.ofSpan_ne_oob]
    · simp [hb, throwE]

theorem stripPad_throws {b : UInt8} (h : padByte m post = some b) (hb : b ≠ 2) :
    Throws (stripPad (a ++ m ++ post) message a.length m.length) := by
  obtain ⟨j, -, hscan, hbyte⟩ := scanPad_padByte a m post
  rw [h] at hbyte
  rw [stripPad, hscan]
  simp only [bind, Except.bind, hbyte, if_pos hb, throws_throwE]

theorem stripPad_ok (h : padByte m post = some 2) (hge : message.data ≤ a.length)
    (hfit : a.length + m.length ≤ message.data + message.size) (hsize : message.size < npos) :
    ∃ dec, stripPad (a ++ m ++ post) message a.length m.length = .ok dec := by
  obtain ⟨j, hj, hscan, hbyte⟩ := scanPad_padByte a m post
  have hnpos : npos + 1 = sizeMod := by decide
  rw [h] at hbyte
  rw [stripPad, hscan]
  simp only [bind, Except.bind, hbyte, ne_eq, not_true_eq_false, if_false, Nat.add_sub_cancel_left]
  unfold PaddedUcharSpan.ofSpan
  rw [if_neg (by omega), if_neg]
  · exact ⟨_, rfl⟩
  · rw [addW_eq (by omega)]
    omega

end Strip

/-! ## Authentic records -/

/-- A whole message: a header, a record of the size that the header gives, and the record authenticates
under the secret of the header's id, as the box of `m`. -/
def Authentic (na : Sodium) (sm : SecretManager) (env m : Bytes) : Prop :=
  ∃ (hdr : SecretboxHeader) (ct key : Bytes), hdr.Valid ∧ env = hdr.wire ++ ct ∧ hdr.recordsz = ct.length
    ∧ sm.getSharedkey hdr.keyid = .ok key ∧ secretboxKeybytes ≤ key.length
    ∧ ct.length + secretboxBoxzerobytes < 2 ^ 32
    ∧ na.secretboxOpen (key.take secretboxKeybytes) hdr.nonce ct = some m

/-- The constructor of a header reads past its input when that ends right before `idlen`. -/
theorem SecretboxHeader.ofWire_oob_iff {env : Bytes} :
    ofWire env = .error .oob ↔ env.length = offsetofIdlen := by
  unfold ofWire
  split_ifs with hshort
  · simp only [throwE, Except.error.injEq, reduceCtorEq, false_iff]
    omega
  · split
    · next hnone =>
      rw [List.getElem?_eq_none_iff] at hnone
      simp only [true_iff]
      omega
    · next hsome =>
      have := (List.getElem?_eq_some_iff.mp hsome).1
      split_ifs <;> simp only [throwE, Except.error.injEq, reduceCtorEq, false_iff] <;> omega

theorem SecretboxHeader.Valid.boxzerobytes_le {hdr : SecretboxHeader} (hv : hdr.Valid) :
    secretboxBoxzerobytes ≤ hdr.wiresize := by
  have := hv.keyid_pos
  simp only [wiresize, offsetofKeyid, secretboxBoxzerobytes]
  omega

/-- The header is cut 16 bytes before its end, where `crypto_secretbox_open` reads and writes from. -/
theorem SecretboxHeader.Valid.wire_cut {hdr : SecretboxHeader} (hv : hdr.Valid) :
    ∃ w t, hdr.wire = w ++ t ∧ t.length = secretboxBoxzerobytes
      ∧ w.length = hdr.wiresize - secretboxBoxzerobytes := by
  have hws := hv.boxzerobytes_le
  refine ⟨hdr.wire.take (hdr.wiresize - secretboxBoxzerobytes),
    hdr.wire.drop (hdr.wiresize - secretboxBoxzerobytes), (List.take_append_drop _ _).symm, ?_, ?_⟩
  · rw [List.length_drop, hv.wire_length]
    omega
  · rw [List.length_take, hv.wire_length]
    omega

section Decode

variable {na : Sodium} {sm : SecretManager} {message : PaddedUcharSpan} {pre env post m : Bytes}

/-- What `crypto_secretbox_open` is given: the last 16 bytes of the header and the record. -/
theorem slice_record {hdr : SecretboxHeader} {w t ct : Bytes} (hv : hdr.Valid) (hwt : hdr.wire = w ++ t)
    (ht : t.length = secretboxBoxzerobytes) (hrec : hdr.recordsz = ct.length)
    (hsmall : ct.length + secretboxBoxzerobytes < 2 ^ 32) (hdata : message.data = pre.length) :
    slice (pre ++ (hdr.wire ++ ct) ++ post) (message.data + hdr.wiresize - secretboxBoxzerobytes)
      ((hdr.recordsz + secretboxBoxzerobytes) % 2 ^ 32) = t ++ ct := by
  have hlen := congrArg List.length hwt
  rw [hv.wire_length, List.length_append, ht] at hlen
  rw [show pre ++ (hdr.wire ++ ct) ++ post = (pre ++ w) ++ (t ++ ct) ++ post from by simp [hwt]]
  refine slice_append_mid _ _ _ ?_ ?_
  · rw [List.length_append, hlen, hdata]
    omega
  · rw [hrec, Nat.mod_eq_of_lt hsmall, List.length_append, ht, Nat.add_comm]

/-- An authentic record is decrypted in place: 32 zeros and the plaintext replace the last 16 bytes of the
header and the record. What is returned is the outcome of the search for the pad byte. -/
theorem decode_authentic (hlen : na.OpenLength) (h : Authentic na sm env m)
    (hdata : message.data = pre.length) (hsize : message.size = env.length) :
    ∃ w t, env = w ++ t ∧ t.length = secretboxZerobytes + m.length
      ∧ decode na ceFs123Secretbox (pre ++ env ++ post) message sm
        = (stripPad (pre ++ w ++ zeros secretboxZerobytes ++ m ++ post) message
            (pre ++ w ++ zeros secretboxZerobytes).length m.length,
          pre ++ w ++ zeros secretboxZerobytes ++ m ++ post) := by
  obtain ⟨hdr, ct, key, hv, rfl, hrec, hkey, hklen, hsmall, hopen⟩ := h
  have hctlen := hlen _ _ _ _ hopen
  have hws := hv.boxzerobytes_le
  obtain ⟨w, t, hwt, ht, hwlen⟩ := hv.wire_cut
  have hoff : message.data + hdr.wiresize - secretboxBoxzerobytes = (pre ++ w).length := by
    rw [List.length_append, hwlen, hdata]
    omega
  have hmem : pre ++ (hdr.wire ++ ct) ++ post = (pre ++ w) ++ (t ++ ct) ++ post := by
    rw [hwt]
    simp only [List.append_assoc]
  have hbox : na.cryptoSecretboxOpen (t ++ ct) hdr.nonce key = some (zeros secretboxZerobytes ++ m) := by
    rw [Sodium.cryptoSecretboxOpen, if_neg, List.drop_left' ht, hopen]
    · rfl
    · simp only [List.length_append, ht, hctlen, secretboxZerobytes, secretboxBoxzerobytes, secretboxMacbytes]
      omega
  have htct : (t ++ ct).length = secretboxZerobytes + m.length := by
    simp only [List.length_append, ht, hctlen, secretboxZerobytes, secretboxBoxzerobytes, secretboxMacbytes]
    omega
  have hwrite : writeAt (pre ++ (hdr.wire ++ ct) ++ post)
      (message.data + hdr.wiresize - secretboxBoxzerobytes) (zeros secretboxZerobytes ++ m)
      = pre ++ w ++ zeros secretboxZerobytes ++ m ++ post := by
    rw [hmem, writeAt_append_mid _ _ _ _ hoff]
    · simp only [List.append_assoc]
    · rw [htct, List.length_append, zeros_length]
  have hstart : message.data + hdr.wiresize - secretboxBoxzerobytes + secretboxZerobytes
      = (pre ++ w ++ zeros secretboxZerobytes).length := by
    simp only [hoff, List.length_append, zeros_length]
  have hleft : message.data + hdr.wiresize + hdr.recordsz
      - (pre ++ w ++ zeros secretboxZerobytes).length = m.length := by
    rw [← hstart, hrec, hctlen]
    simp only [secretboxZerobytes, secretboxBoxzerobytes, secretboxMacbytes] at hws ⊢
    omega
  refine ⟨w, t ++ ct, by rw [hwt, List.append_assoc], htct, ?_⟩
  unfold decode
  rw [if_neg (by decide), if_neg (by decide), if_pos rfl, decodeSecretbox_eq hv hrec hkey hklen hdata
    (by rw [hsize, List.length_append, hv.wire_length]), openRecord]
  simp only [slice_record hv hwt ht hrec hsmall hdata, hbox, hwrite, hstart, hleft]

/-- Every other message is refused before anything is written. -/
theorem decode_not_authentic (h : ∀ m, ¬ Authentic na sm env m) (hdata : message.data = pre.length)
    (hsize : message.size = env.length) :
    ∃ f, decode na ceFs123Secretbox (pre ++ env ++ post) message sm = (.error f, pre ++ env ++ post)
      ∧ (f = .oob → env.length = offsetofIdlen ∨ ∃ keyid, sm.getSharedkey keyid = .error .oob) := by
  have hbytes : message.bytesOf (pre ++ env ++ post) = env := by
    rw [PaddedUcharSpan.bytesOf]
    exact slice_append_mid _ _ _ hdata hsize
  unfold decode
  rw [if_neg (by decide), if_neg (by decide), if_pos rfl]
  unfold decodeSecretbox
  rw [hbytes]
  split
  · next f hf => exact ⟨f, rfl, fun hoob => Or.inl (SecretboxHeader.ofWire_oob_iff.mp (hoob ▸ hf))⟩
  · next hdr hhdr =>
    obtain ⟨hv, ct, rfl⟩ := SecretboxHeader.ofWire_eq_ok hhdr
    split
    · exact ⟨_, rfl, fun hoob => by simp at hoob⟩
    · next hrec =>
      rw [not_not, hsize, List.length_append, hv.wire_length, Nat.add_sub_cancel_left] at hrec
      split
      · next f hf => exact ⟨f, rfl, fun hoob => Or.inr ⟨_, hoob ▸ hf⟩⟩
      · next key hkey =>
        split
        · exact ⟨_, rfl, fun hoob => by simp at hoob⟩
        · next hklen =>
          -- Only the authentication is left to fail.
          have hopen : na.cryptoSecretboxOpen (slice (pre ++ (hdr.wire ++ ct) ++ post)
              (message.data + hdr.wiresize - secretboxBoxzerobytes)
              ((hdr.recordsz + secretboxBoxzerobytes) % 2 ^ 32)) hdr.nonce key = none := by
            obtain ⟨w, t, hwt, ht, -⟩ := hv.wire_cut
            rw [Sodium.cryptoSecretboxOpen]
            split
            · rfl
            · next hlong =>
              have hsmall : ct.length + secretboxBoxzerobytes < 2 ^ 32 := by
                have hlt := hv.recordsz
                rw [slice_length, hrec] at hlong
                simp only [secretboxBoxzerobytes, secretboxZerobytes] at hlong ⊢
                omega
              rw [slice_record hv hwt ht hrec hsmall hdata, List.drop_left' ht, Option.map_eq_none_iff,
                Option.eq_none_iff_forall_ne_some]
              exact fun m hm => h m ⟨hdr, ct, key, hv, rfl, hrec, hkey, not_lt.mp hklen, hsmall, hm⟩
          rw [openRecord]
          simp only [hopen]
          exact ⟨_, rfl, fun hoob => by simp at hoob⟩

end Decode

/-- The record, the key and what they open to are determined by the message. -/
theorem Authentic.unique {na : Sodium} {sm : SecretManager} {env m m' : Bytes} (h : Authentic na sm env m)
    (h' : Authentic na sm env m') : m = m' := by
  obtain ⟨hdr, ct, key, hv, rfl, -, hkey, -, -, hopen⟩ := h
  obtain ⟨hdr', ct', key', hv', henv, -, hkey', -, -, hopen'⟩ := h'
  have hhdr := hv'.ofWire_wire ct'
  rw [← henv, hv.ofWire_wire ct, Except.ok.injEq] at hhdr
  subst hhdr
  rw [hkey, Except.ok.injEq] at hkey'
  rw [List.append_right_inj] at henv
  rw [← hkey', ← henv, hopen, Option.some.injEq] at hopen'
  exact hopen'

/-! ## Strong exception safety -/

section StrongSafety

variable {na : Sodium} {sm : SecretManager} {ce : ℤ} {mem : Bytes} {message : PaddedUcharSpan}

/-- Whenever `decode` throws, the message is what it was. -/
def DecodeStrong (na : Sodium) (ce : ℤ) (mem : Bytes) (message : PaddedUcharSpan) (sm : SecretManager) :
    Prop :=
  Throws (decode na ce mem message sm).1 →
    message.bytesOf (decode na ce mem message sm).2 = message.bytesOf mem

/-- The memory around a span. -/
theorem PaddedUcharSpan.Wf.split (h : message.Wf mem) :
    mem.take message.data ++ message.bytesOf mem ++ mem.drop (message.data + message.size) = mem
      ∧ (mem.take message.data).length = message.data ∧ (message.bytesOf mem).length = message.size := by
  have hback := h.back
  have hbox := h.box
  refine ⟨?_, ?_, ?_⟩
  · rw [PaddedUcharSpan.bytesOf, take_append_slice mem rfl, List.take_append_drop]
  · rw [List.length_take]
    omega
  · rw [PaddedUcharSpan.bytesOf, slice_length]
    omega

/-- Encodings other than the secretbox are accepted or refused without a write. -/
theorem decode_other (hce : ce ≠ ceFs123Secretbox) : (decode na ce mem message sm).2 = mem := by
  unfold decode
  split_ifs
  · rfl
  · rfl
  · rfl

/-- `decode` keeps the message whenever it throws, but for an authentic record that does not end in a pad
byte: that one is decrypted first, and is unchanged only if its plaintext happens to be its encryption. -/
theorem decode_strong_iff (hlen : na.OpenLength) (hwf : message.Wf mem) :
    DecodeStrong na ce mem message sm ↔ (ce = ceFs123Secretbox → ∀ m,
      Authentic na sm (message.bytesOf mem) m →
        (∀ b ∈ padByte m (mem.drop (message.data + message.size)), b = 2)
          ∨ zeros secretboxZerobytes ++ m <:+ message.bytesOf mem) := by
  by_cases hce : ce = ceFs123Secretbox
  · subst hce
    obtain ⟨hsplit, hpre, henv⟩ := hwf.split
    generalize hE : message.bytesOf mem = env at hsplit henv ⊢
    generalize mem.take message.data = pre at hsplit hpre
    generalize mem.drop (message.data + message.size) = post at hsplit ⊢
    subst hsplit
    rw [DecodeStrong, hE]
    by_cases hauth : ∃ m, Authentic na sm env m
    · obtain ⟨m, hm⟩ := hauth
      obtain ⟨w, t, rfl, htlen, hdec⟩ := @decode_authentic na sm message pre env post m hlen hm
        hpre.symm henv.symm
      rw [hdec]
      have htail : (zeros secretboxZerobytes ++ m).length = t.length := by
        rw [htlen, List.length_append, zeros_length]
      have hbytes : message.bytesOf (pre ++ w ++ zeros secretboxZerobytes ++ m ++ post)
          = w ++ (zeros secretboxZerobytes ++ m) := by
        rw [show pre ++ w ++ zeros secretboxZerobytes ++ m ++ post
          = pre ++ (w ++ (zeros secretboxZerobytes ++ m)) ++ post from by simp only [List.append_assoc]]
        refine slice_append_mid _ _ _ hpre.symm ?_
        rw [← henv, List.length_append, List.length_append, htail]
      rw [hbytes]
      constructor
      · intro hstrong _ m' hm'
        rw [← hm.unique hm', or_iff_not_imp_left]
        intro hpad
        push Not at hpad
        obtain ⟨b, hb, hb2⟩ := hpad
        exact ⟨w, hstrong (stripPad_throws hb hb2)⟩
      · intro hcond hthrow
        rcases hcond rfl m hm with hpad | ⟨w', hw'⟩
        · -- The pad byte is there, or nothing is: no exception.
          exfalso
          obtain ⟨e, he⟩ := hthrow
          cases hb : padByte m post with
          | none =>
            rw [stripPad_oob_iff.mpr hb] at he
            simp at he
          | some b =>
            rw [hb] at hpad
            obtain rfl : b = 2 := hpad b rfl
            obtain ⟨dec, hok⟩ := @stripPad_ok (pre ++ w ++ zeros secretboxZerobytes) m post message hb
              (by simp only [List.length_append]; omega)
              (by simp only [List.length_append, zeros_length] at henv ⊢; omega)
              (by have := hwf.box; have := hwf.back; have := hwf.small; simp only [npos, sizeMod]; omega)
            rw [hok] at he
            simp at he
        · rw [(List.append_inj' hw' htail).2]
    · obtain ⟨f, hf, -⟩ := @decode_not_authentic na sm message pre env post (not_exists.mp hauth)
        hpre.symm henv.symm
      rw [hf]
      exact ⟨fun _ _ m hm => absurd ⟨m, hm⟩ hauth, fun _ _ => hE⟩
  · simp only [DecodeStrong, decode_other hce, implies_true, hce, false_implies]

end StrongSafety

/-- libsodium at the key `00 01 .. 1f` and the nonce `00 01 .. 17`, for the message `"hi"` without padding. -/
def sodiumUnpadded : Sodium := Sodium.ofTable
  [124, 182, 96, 175, 221, 158, 198, 70, 143, 87, 221, 109, 36, 51, 249, 52, 40, 253, 130, 205, 115,
    134, 197, 71, 26, 36, 216, 173, 42, 82, 91, 110, 94, 255]
  [45, 45, 82, 109, 66, 9, 156, 181, 98, 174, 96, 163, 194, 73, 7, 178] []

/-- The box of the unpadded `"hi"` under the key id `"k"`. -/
def unpaddedEnv : Bytes := (⟨upTo 24, 18, bytes "k"⟩ : SecretboxHeader).wire
  ++ [45, 45, 82, 109, 66, 9, 156, 181, 98, 174, 96, 163, 194, 73, 7, 178, 54, 150]

private theorem unpaddedEnv_wf : (⟨0, 48, 0, 48⟩ : PaddedUcharSpan).Wf unpaddedEnv :=
  ⟨by decide, by decide, by decide, by decide⟩

theorem decode_strong_iff_unpadded :
    DecodeStrong sodiumUnpadded ceFs123Secretbox unpaddedEnv ⟨0, 48, 0, 48⟩
        (oneSecret (bytes "k") (upTo 32)) ↔
      (ceFs123Secretbox = ceFs123Secretbox → ∀ m,
        Authentic sodiumUnpadded (oneSecret (bytes "k") (upTo 32))
            ((⟨0, 48, 0, 48⟩ : PaddedUcharSpan).bytesOf unpaddedEnv) m →
          (∀ b ∈ padByte m (unpaddedEnv.drop (0 + 48)), b = 2)
            ∨ zeros secretboxZerobytes ++ m <:+ (⟨0, 48, 0, 48⟩ : PaddedUcharSpan).bytesOf unpaddedEnv) :=
  decode_strong_iff (Sodium.ofTable_openLength _ _ _) unpaddedEnv_wf

/-- The box of the unpadded `"hi"` is refused, but the message holds the plaintext by then. -/
theorem decode_unpadded_not_strong :
    ¬ DecodeStrong sodiumUnpadded ceFs123Secretbox unpaddedEnv ⟨0, 48, 0, 48⟩
      (oneSecret (bytes "k") (upTo 32)) := by
  intro h
  have hthrow : (decode sodiumUnpadded ceFs123Secretbox unpaddedEnv ⟨0, 48, 0, 48⟩
      (oneSecret (bytes "k") (upTo 32))).1
      = throwE .runtimeError (bytes "mal-formed or missing pad-bytes at end of message") := by
    decide +kernel
  have hkept := h ⟨_, hthrow⟩
  revert hkept
  decide +kernel

/-! ## Reads in bounds -/

/-- Every index that the parsers of an envelope and of a base64 path read lies inside its array, when the
message fills its array: the constructor of the header and the copy it makes, the record that is handed to
`crypto_secretbox_open`, the scan for the pad byte, and the input and the table of the base64 decoder. -/
structure ParsesInBounds (na : Sodium) (sm : SecretManager) (ce : ℤ) (env path : Bytes) : Prop where
  header : SecretboxHeader.ofWire env ≠ .error .oob
  record : ∀ hdr, SecretboxHeader.ofWire env = .ok hdr → hdr.wiresize ≤ env.length
    ∧ secretboxBoxzerobytes ≤ hdr.wiresize
    ∧ (hdr.recordsz = env.length - hdr.wiresize →
      hdr.wiresize - secretboxBoxzerobytes + (hdr.recordsz + secretboxBoxzerobytes) % 2 ^ 32 ≤ env.length)
  pad : (decode na ce env ⟨0, env.length, 0, env.length⟩ sm).1 ≠ .error .oob
  base64 : base64Decode path ≠ .error .oob

section InBounds

variable {na : Sodium} {sm : SecretManager} {ce : ℤ} {env path : Bytes}

/-- The record that the decryption is given lies inside the message. -/
theorem record_inBounds {hdr : SecretboxHeader} (h : SecretboxHeader.ofWire env = .ok hdr) :
    hdr.wiresize ≤ env.length ∧ secretboxBoxzerobytes ≤ hdr.wiresize
      ∧ (hdr.recordsz = env.length - hdr.wiresize →
        hdr.wiresize - secretboxBoxzerobytes + (hdr.recordsz + secretboxBoxzerobytes) % 2 ^ 32
          ≤ env.length) := by
  obtain ⟨hv, ct, rfl⟩ := SecretboxHeader.ofWire_eq_ok h
  have hws := hv.boxzerobytes_le
  have hmod := Nat.mod_le (hdr.recordsz + secretboxBoxzerobytes) (2 ^ 32)
  rw [List.length_append, hv.wire_length]
  refine ⟨by omega, hws, fun hrec => by omega⟩

theorem padByte_nil_eq_none {m : Bytes} : padByte m [] = none ↔ m = [] := by
  cases m with
  | nil => simp [padByte]
  | cons b m => simp [padByte]

/-- `decode` reads past its message when that ends before `idlen`, and when its record is the box of the
empty text. -/
theorem decode_oob_iff (hlen : na.OpenLength) (hsm : ∀ keyid, sm.getSharedkey keyid ≠ .error .oob) :
    (decode na ce env ⟨0, env.length, 0, env.length⟩ sm).1 = .error .oob ↔
      ce = ceFs123Secretbox ∧ (env.length = offsetofIdlen ∨ Authentic na sm env []) := by
  by_cases hce : ce = ceFs123Secretbox
  · subst hce
    by_cases hauth : ∃ m, Authentic na sm env m
    · obtain ⟨m, hm⟩ := hauth
      have hlong : env.length ≠ offsetofIdlen := by
        obtain ⟨hdr, ct, -, hv, rfl, -⟩ := hm
        rw [ne_eq, ← SecretboxHeader.ofWire_oob_iff, hv.ofWire_wire]
        simp
      obtain ⟨w, t, -, -, hdec⟩ := @decode_authentic na sm ⟨0, env.length, 0, env.length⟩ [] env [] m hlen hm
        rfl rfl
      rw [List.nil_append, List.append_nil env] at hdec
      rw [hdec, stripPad_oob_iff, padByte_nil_eq_none]
      exact ⟨fun hnil => ⟨rfl, Or.inr (hnil ▸ hm)⟩, fun h => hm.unique (h.2.resolve_left hlong)⟩
    · obtain ⟨f, hdec, hoob⟩ := @decode_not_authentic na sm ⟨0, env.length, 0, env.length⟩ [] env []
        (not_exists.mp hauth) rfl rfl
      rw [List.nil_append, List.append_nil env] at hdec
      constructor
      · intro h
        rw [hdec, Except.error.injEq] at h
        exact ⟨rfl, Or.inl ((hoob h).resolve_right fun ⟨keyid, hk⟩ => hsm keyid hk)⟩
      · rintro ⟨-, hshort | hempty⟩
        · have hbytes : (⟨0, env.length, 0, env.length⟩ : PaddedUcharSpan).bytesOf env = env := by
            rw [PaddedUcharSpan.bytesOf, slice_zero, List.take_length]
          unfold decode decodeSecretbox
          rw [if_neg (by decide), if_neg (by decide), if_pos rfl, hbytes,
            SecretboxHeader.ofWire_oob_iff.mpr hshort]
        · exact absurd ⟨[], hempty⟩ hauth
  · unfold decode
    split_ifs <;> simp [throwE, hce]

/-- The parsers stay inside their arrays but for three inputs: a message that ends before `idlen`, an
authentic record of the empty text, and a base64 path that is empty or has a byte that is not ASCII before
another character outside the alphabet. -/
theorem parsesInBounds_iff (hlen : na.OpenLength) (hsm : ∀ keyid, sm.getSharedkey keyid ≠ .error .oob) :
    ParsesInBounds na sm ce env path ↔ env.length ≠ offsetofIdlen
      ∧ ¬ (ce = ceFs123Secretbox ∧ Authentic na sm env [])
      ∧ ¬ (path.length % 4 = 0 ∧ (path = [] ∨ HighByteFirst path)) := by
  rw [← base64Decode_oob_iff]
  constructor
  · rintro ⟨hheader, -, hpad, hbase64⟩
    rw [ne_eq, SecretboxHeader.ofWire_oob_iff] at hheader
    rw [ne_eq, decode_oob_iff hlen hsm] at hpad
    exact ⟨hheader, fun h => hpad ⟨h.1, Or.inr h.2⟩, hbase64⟩
  · rintro ⟨hshort, hempty, hbase64⟩
    refine ⟨fun h => hshort (SecretboxHeader.ofWire_oob_iff.mp h), fun hdr => record_inBounds, fun h => ?_, hbase64⟩
    obtain ⟨hce, hbad⟩ := (decode_oob_iff hlen hsm).mp h
    exact hbad.elim hshort fun hauth => hempty ⟨hce, hauth⟩

end InBounds

private theorem oneSecret_ne_oob (sid secret keyid : Bytes) :
    (oneSecret sid secret).getSharedkey keyid ≠ .error .oob := by
  simp only [oneSecret]
  split_ifs <;> simp [throwE]

theorem parsesInBounds_iff_short :
    ParsesInBounds sodiumHi (oneSecret (bytes "k") (upTo 32)) ceIdent (zeros 27) (bytes "AAA") :=
  (parsesInBounds_iff (Sodium.ofTable_openLength _ _ _) (oneSecret_ne_oob _ _)).mpr
    ⟨by decide, fun h => absurd h.1 (by decide), fun h => absurd h.1 (by decide)⟩

/-- libsodium at the key `00 01 .. 1f` and the nonce `00 01 .. 17`, for the empty message. -/
def sodiumEmpty : Sodium := Sodium.ofTable
  [124, 182, 96, 175, 221, 158, 198, 70, 143, 87, 221, 109, 36, 51, 249, 52, 40, 253, 130, 205, 115,
    134, 197, 71, 26, 36, 216, 173, 42, 82, 91, 110]
  [40, 253, 130, 205, 115, 134, 197, 71, 26, 36, 216, 173, 42, 82, 91, 110] []

/-- The box of the empty text under the key id `"k"`. -/
def emptyEnv : Bytes := (⟨upTo 24, 16, bytes "k"⟩ : SecretboxHeader).wire
  ++ [40, 253, 130, 205, 115, 134, 197, 71, 26, 36, 216, 173, 42, 82, 91, 110]

/-- A message of 28 bytes, the box of the empty text, the path `/e/`, and a path that begins with the byte
`0x80`. -/
theorem not_parsesInBounds :
    ¬ ParsesInBounds sodiumHi (oneSecret (bytes "k") (upTo 32)) ceFs123Secretbox (zeros 28) (bytes "AAAA")
      ∧ ¬ ParsesInBounds sodiumEmpty (oneSecret (bytes "k") (upTo 32)) ceFs123Secretbox emptyEnv
        (bytes "AAAA")
      ∧ ¬ ParsesInBounds sodiumHi (oneSecret (bytes "k") (upTo 32)) ceFs123Secretbox (zeros 27) []
      ∧ ¬ ParsesInBounds sodiumHi (oneSecret (bytes "k") (upTo 32)) ceFs123Secretbox (zeros 27)
        (128 :: bytes "AAA") := by
  refine ⟨fun h => h.header rfl, fun h => h.pad ?_, fun h => h.base64 rfl, fun h => h.base64 ?_⟩
  · decide +kernel
  · decide +kernel

end Fs123
