import Fs123.Codec.RoundTrip

/-!
# What `decode` accepts

The converse of the round trip: whatever `decode` returns was sealed. An envelope that it takes apart
consists of a header and a record, the record passes the authentication under the secret of the header's
id, and what is returned is the opened record without its padding (`decode_opened`).
-/

namespace Fs123

open Cxx

/-- The documented length of an opened box. -/
def Sodium.OpenLength (na : Sodium) : Prop :=
  ∀ key nonce c m : Bytes, na.secretboxOpen key nonce c = some m → c.length = secretboxMacbytes + m.length

theorem Sodium.ofStream_openLength (stream : Bytes → Bytes → ℕ → UInt8) (auth : Bytes → Bytes → Bytes)
    (hash : ℕ → Bytes → Bytes → Bytes) : (Sodium.ofStream stream auth hash).OpenLength := by
  intro key nonce c m h
  simp only [ofStream] at h
  split at h
  · next hmac =>
    have hlen := congrArg List.length hmac
    rw [Option.some.injEq] at h
    rw [← h]
    simp only [List.length_take, List.length_append, zeros_length, List.length_mapIdx, List.length_drop,
      secretboxMacbytes] at hlen ⊢
    omega
  · simp at h

theorem Sodium.ofTable_openLength (stream mac hash : Bytes) : (Sodium.ofTable stream mac hash).OpenLength :=
  ofStream_openLength _ _ _

/-- An envelope whose record is authentic under the secret of its id, and what the record holds. -/
def Opened (na : Sodium) (sm : SecretManager) (env plain : Bytes) : Prop :=
  ∃ (hdr : SecretboxHeader) (ct key : Bytes) (n : ℕ), hdr.Valid ∧ env = hdr.wire ++ ct
    ∧ hdr.recordsz = ct.length ∧ sm.getSharedkey hdr.keyid = .ok key ∧ secretboxKeybytes ≤ key.length
    ∧ na.secretboxOpen (key.take secretboxKeybytes) hdr.nonce ct = some (plain ++ 2 :: zeros n)

/-! ## The header -/

theorem be32_ofBe32 {b : Bytes} (h : b.length = 4) : be32 (ofBe32 b) = b ∧ ofBe32 b < 2 ^ 32 := by
  obtain ⟨w, x, y, z, rfl⟩ : ∃ w x y z, b = [w, x, y, z] := by
    match b, h with
    | [w, x, y, z], _ => exact ⟨w, x, y, z, rfl⟩
  have hw := UInt8.toNat_lt w
  have hx := UInt8.toNat_lt x
  have hy := UInt8.toNat_lt y
  have hz := UInt8.toNat_lt z
  simp only [ofBe32, be32, List.foldl_cons, List.foldl_nil]
  refine ⟨?_, by omega⟩
  simp only [List.cons.injEq, and_true, ← UInt8.toNat_inj, UInt8.toNat_ofNat']
  omega

/-- A header that the decryptor's constructor accepts is what stands at the front of its input. -/
theorem SecretboxHeader.ofWire_eq_ok {env : Bytes} {hdr : SecretboxHeader} (h : ofWire env = .ok hdr) :
    hdr.Valid ∧ ∃ ct, env = hdr.wire ++ ct := by
  unfold ofWire at h
  split_ifs at h with hlen
  · simp at h
  · split at h
    · simp at h
    · next idlen hid =>
      split_ifs at h with h0 hshort
      · simp at h
      · simp at h
      · rw [Except.ok.injEq] at h
        obtain ⟨hlt, hget⟩ := List.getElem?_eq_some_iff.mp hid
        have hidle : idlen.toNat < 256 := UInt8.toNat_lt idlen
        have hidpos : 0 < idlen.toNat := by
          rw [Nat.pos_iff_ne_zero]
          exact fun hz => h0 (UInt8.toNat_inj.mp hz)
        simp only [offsetofKeyid, offsetofIdlen, not_lt] at hshort hlen hlt hget
        obtain ⟨hbe, hbelt⟩ := be32_ofBe32 (b := slice env secretboxNoncebytes 4)
          (by rw [slice_length, secretboxNoncebytes]; omega)
        have hkeylen : (slice env offsetofKeyid idlen.toNat).length = idlen.toNat := by
          rw [slice_length, offsetofKeyid]
          omega
        have hnoncelen : (slice env 0 secretboxNoncebytes).length = secretboxNoncebytes := by
          rw [slice_length, secretboxNoncebytes]
          omega
        subst h
        refine ⟨⟨hnoncelen, hbelt, by rw [hkeylen]; exact hidpos, by rw [hkeylen]; omega⟩,
          env.drop (29 + idlen.toNat), ?_⟩
        have hone : slice env 28 1 = [idlen] := by
          rw [slice, List.drop_eq_getElem_cons hlt, List.take_succ_cons, List.take_zero, hget]
        simp only [wire, hbe, hkeylen, UInt8.ofNat_toNat, ← hone]
        rw [slice_zero, secretboxNoncebytes, offsetofKeyid,
          take_append_slice env (show 24 + 4 = 28 from rfl), take_append_slice env (show 28 + 1 = 29 from rfl),
          take_append_slice env rfl, List.take_append_drop]

/-! ## The padding -/

/-- The scan stops inside the record, and everything behind that place is zero. -/
theorem scanPad_eq_ok {mem : Bytes} {start n p : ℕ} (h : scanPad mem start n = .ok p) :
    ∃ j, p = start + j ∧ j ≤ n ∧ ∀ i, j < i → i < n → mem[start + i]? = some 0 := by
  induction n with
  | zero =>
    rw [scanPad, Except.ok.injEq] at h
    exact ⟨0, h.symm, le_refl 0, fun i _ hi => absurd hi (Nat.not_lt_zero i)⟩
  | succ n ih =>
    rw [scanPad] at h
    split at h
    · simp at h
    · next b hb =>
      split at h
      · next hb0 =>
        obtain ⟨j, hj, hle, hz⟩ := ih h
        refine ⟨j, hj, by omega, fun i hji hi => ?_⟩
        rcases Nat.lt_succ_iff_lt_or_eq.mp hi with hi | rfl
        · exact hz i hji hi
        · rw [hb, hb0]
      · rw [Except.ok.injEq] at h
        exact ⟨n, h.symm, by omega, fun i hni hi => by omega⟩

/-- The span that is left is a record without its padding. -/
theorem stripPad_eq_ok {a m : Bytes} {message dec : PaddedUcharSpan} (hdata : message.data = 0)
    (hm : m.length < npos) (h : stripPad (a ++ m) message a.length m.length = .ok dec) :
    ∃ n, m = dec.bytesOf (a ++ m) ++ 2 :: zeros n := by
  unfold stripPad at h
  obtain ⟨p, hscan, h⟩ := bind_eq_ok_iff.mp h
  obtain ⟨j, rfl, hj, hz⟩ := scanPad_eq_ok hscan
  have hget : ∀ i, (a ++ m)[a.length + i]? = m[i]? := by
    intro i
    rw [List.getElem?_append_right (by omega), Nat.add_sub_cancel_left]
  rw [hget] at h
  split at h
  · simp at h
  · next b hb =>
    split_ifs at h with hb2
    · simp at h
    · rw [not_not] at hb2
      obtain ⟨hjlt, hmj⟩ := List.getElem?_eq_some_iff.mp hb
      rw [hdata, Nat.sub_zero, Nat.add_sub_cancel_left] at h
      have hdec : dec.data = a.length ∧ dec.size = j := by
        unfold PaddedUcharSpan.ofSpan at h
        split_ifs at h with h1 h2 h3
        · simp at h
        · simp at h
        · exact absurd h3 (by rw [dynamicExtent]; omega)
        · rw [← Except.ok.inj h]
          exact ⟨Nat.zero_add _, rfl⟩
      refine ⟨m.length - (j + 1), ?_⟩
      have hbytes : dec.bytesOf (a ++ m) = m.take j := by
        rw [PaddedUcharSpan.bytesOf, slice, hdec.1, hdec.2, List.drop_left]
      have hzeros : m.drop (j + 1) = zeros (m.length - (j + 1)) := by
        apply List.ext_getElem?
        intro i
        rw [List.getElem?_drop, zeros, List.getElem?_replicate]
        split
        · next hi => rw [← hget]; exact hz _ (by omega) (by omega)
        · next hi => exact List.getElem?_eq_none (by omega)
      rw [hbytes, ← hzeros, ← hb2, ← hmj, ← List.drop_eq_getElem_cons hjlt, List.take_append_drop]

/-! ## The whole -/

/-- What `openRecord` returns for an envelope is what its record holds, and the record is authentic. -/
theorem openRecord_opened {na : Sodium} {hdr : SecretboxHeader} {ct key mem : Bytes} {dec : PaddedUcharSpan}
    {size : ℕ} (hlen : na.OpenLength) (hv : hdr.Valid) (hrec : hdr.recordsz = ct.length)
    (h : openRecord na (hdr.wire ++ ct) ⟨0, size, 0, size⟩ hdr key = (.ok dec, mem)) :
    ∃ n, na.secretboxOpen (key.take secretboxKeybytes) hdr.nonce ct
      = some (dec.bytesOf mem ++ 2 :: zeros n) := by
  have hrecsz := hv.recordsz
  have hws : secretboxBoxzerobytes ≤ hdr.wiresize := by
    simp only [SecretboxHeader.wiresize, offsetofKeyid, secretboxBoxzerobytes]
    omega
  -- The header is cut 16 bytes before its end, where the call reads and writes from.
  obtain ⟨w, t, hwt, ht⟩ : ∃ w t, hdr.wire = w ++ t ∧ t.length = secretboxBoxzerobytes :=
    ⟨hdr.wire.take (hdr.wiresize - secretboxBoxzerobytes),
      hdr.wire.drop (hdr.wiresize - secretboxBoxzerobytes), (List.take_append_drop _ _).symm, by
        rw [List.length_drop, hv.wire_length]
        omega⟩
  have hwlen : w.length = hdr.wiresize - secretboxBoxzerobytes := by
    have := congrArg List.length hwt
    rw [hv.wire_length, List.length_append, ht] at this
    omega
  have hmem : hdr.wire ++ ct = w ++ (t ++ ct) ++ [] := by
    rw [hwt, List.append_nil, List.append_assoc]
  unfold openRecord at h
  simp only [Nat.zero_add, hrec, ← hwlen] at h
  split at h
  · simp at h
  · next m' hopen =>
    rw [Prod.mk.injEq] at h
    obtain ⟨hstrip, rfl⟩ := h
    unfold Sodium.cryptoSecretboxOpen at hopen
    split at hopen
    · simp at hopen
    · next hlong =>
      -- A wrapped length would be too short, so the whole record is read.
      have hread : slice (hdr.wire ++ ct) w.length ((ct.length + secretboxBoxzerobytes) % 2 ^ 32) = t ++ ct := by
        rw [slice_length] at hlong
        rw [hmem]
        refine slice_append_mid _ _ _ rfl ?_
        rw [List.length_append, ht]
        simp only [secretboxBoxzerobytes, secretboxZerobytes] at hlong ⊢
        omega
      rw [hread, List.drop_left' ht, Option.map_eq_some_iff] at hopen
      obtain ⟨m, hm, rfl⟩ := hopen
      have hctlen := hlen _ _ _ _ hm
      have hwrite : writeAt (hdr.wire ++ ct) w.length (zeros secretboxZerobytes ++ m)
          = w ++ zeros secretboxZerobytes ++ m := by
        rw [hmem, writeAt_append_mid _ _ _ _ rfl]
        · rw [List.append_nil, List.append_assoc]
        · simp only [List.length_append, zeros_length, ht, hctlen, secretboxZerobytes,
            secretboxBoxzerobytes, secretboxMacbytes]
          omega
      have hstart : w.length + secretboxZerobytes = (w ++ zeros secretboxZerobytes).length := by
        rw [List.length_append, zeros_length]
      have hleft : hdr.wiresize + ct.length - (w.length + secretboxZerobytes) = m.length := by
        rw [hctlen, hwlen]
        simp only [secretboxZerobytes, secretboxBoxzerobytes, secretboxMacbytes] at hws ⊢
        omega
      rw [hwrite, hleft, hstart] at hstrip
      obtain ⟨n, hn⟩ := stripPad_eq_ok rfl (by simp only [npos, sizeMod]; omega) hstrip
      refine ⟨n, ?_⟩
      rw [hwrite, ← hn]
      exact hm

/-- What `decode` returns for a whole envelope is what the envelope's record holds, and the record is
authentic. -/
theorem decode_opened {na : Sodium} {sm : SecretManager} {env mem : Bytes} {dec : PaddedUcharSpan}
    (hlen : na.OpenLength)
    (h : decode na ceFs123Secretbox env ⟨0, env.length, 0, env.length⟩ sm = (.ok dec, mem)) :
    Opened na sm env (dec.bytesOf mem) := by
  unfold decode at h
  rw [if_neg (by decide), if_neg (by decide), if_pos rfl] at h
  have hbytes : (⟨0, env.length, 0, env.length⟩ : PaddedUcharSpan).bytesOf env = env := by
    rw [PaddedUcharSpan.bytesOf, slice_zero, List.take_length]
  unfold decodeSecretbox at h
  rw [hbytes] at h
  split at h
  · simp at h
  · next hdr hhdr =>
    obtain ⟨hv, ct, henv⟩ := SecretboxHeader.ofWire_eq_ok hhdr
    have henvlen : env.length = hdr.wiresize + ct.length := by
      rw [henv, List.length_append, hv.wire_length]
    split at h
    · simp at h
    · next hrec =>
      split at h
      · simp at h
      · next key hkey =>
        split at h
        · simp at h
        · next hklen =>
          have hrec' : hdr.recordsz = ct.length := by
            have := not_not.mp hrec
            dsimp only at this
            omega
          rw [henv] at h
          obtain ⟨n, hn⟩ := openRecord_opened hlen hv hrec' h
          exact ⟨hdr, ct, key, n, hv, henv, hrec', hkey, not_lt.mp hklen, hn⟩

end Fs123
