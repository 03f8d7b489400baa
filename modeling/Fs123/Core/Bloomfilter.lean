import Fs123.Core.Bits

/-!
# Bloom filters

The model of `core123/bloomfilter.hpp`. A string is in the filter when the bits of its hashes are set (`Holds`); no
operation unsets one. A filter is loaded field by field from a stream, and only the bits are changed before the end:
they come from `Bits.getBits`, which changes them last.
-/

namespace Fs123

open Cxx

/-! ## The filter -/

/-- `bloomfilter`. -/
structure Bloomfilter where
  bits : Bits
  nhashes : ℕ
  nentries : ℕ
  deriving Repr, DecidableEq

/-- What `bloom_estimate_bits` and `bloom_estimate_hashes` return for a filter with values. The number of hashes is the
rounded number of bits for each value times `log(2)`. -/
structure BloomEstimate where
  nbits : ℕ
  nhashes : ℕ
  nbits_lt : nbits < 2 ^ 64
  nhashes_lt : nhashes < 2 ^ 32
  nbits_pos : 0 < nhashes → 0 < nbits

/-- The index of a hash: `h.first % bits_.sizebits()`. There is no remainder by zero. -/
def Bits.hashIndex (b : Bits) (h : UInt64) : Res ℕ := if b.szbits = 0 then .error .oob else .ok (h.toNat % b.szbits)

namespace Bloomfilter

/-- `init(nvals, fprob, maxbits)`. The end of the text, with `nvals` and `fprob`, is left out. -/
def init (e : BloomEstimate) (maxbits : ℕ) : Res Bloomfilter :=
  if maxbits ≠ 0 ∧ maxbits < e.nbits then
    throwE .runtimeError (bytes "bloomfilter estimated bits " ++ decimal e.nbits ++ bytes " > maxbits " ++ decimal maxbits)
  else .ok ⟨Bits.init e.nbits, e.nhashes, 0⟩

/-- The loop of `add`; `n` is an `unsigned`. `none` is out of fuel. -/
def addLoop (nhashes : ℕ) : ℕ → ℕ → UInt64 → UInt64 → Bits → Bool → Option (Res (Bits × Bool))
  | 0, _, _, _, _, _ => none
  | fuel + 1, n, first, second, b, ret =>
    if n < nhashes then
      match b.hashIndex first >>= b.set with
      | .error e => some (.error e)
      | .ok (b, old) => addLoop nhashes fuel ((n + 1) % 2 ^ 32) (first + second) second b (ret && old)
    else some (.ok (b, ret))

/-- `add(data, len)`. -/
def add (b : Bloomfilter) (fuel : ℕ) (data : Bytes) : Option (Res (Bloomfilter × Bool)) :=
  let h := threeroe data 0 0
  (addLoop b.nhashes fuel 0 h.1 h.2 b.bits true).map fun r =>
    r.map fun r => ({ b with bits := r.1, nentries := addW b.nentries 1 }, r.2)

/-- The loop of `check`. -/
def checkLoop (nhashes : ℕ) (b : Bits) : ℕ → ℕ → UInt64 → UInt64 → Option (Res Bool)
  | 0, _, _, _ => none
  | fuel + 1, n, first, second =>
    if n < nhashes then
      match b.hashIndex first >>= b.get with
      | .error e => some (.error e)
      | .ok false => some (.ok false)
      | .ok true => checkLoop nhashes b fuel ((n + 1) % 2 ^ 32) (first + second) second
    else some (.ok true)

/-- `check(data, len)`. -/
def check (b : Bloomfilter) (fuel : ℕ) (data : Bytes) : Option (Res Bool) :=
  let h := threeroe data 0 0
  checkLoop b.nhashes b.bits fuel 0 h.1 h.2

/-- Calls of `add` one after the other. -/
def addAll (fuel : ℕ) : Bloomfilter → List Bytes → Option (Res Bloomfilter)
  | b, [] => some (.ok b)
  | b, data :: more =>
    match b.add fuel data with
    | none => none
    | some (.error e) => some (.error e)
    | some (.ok (b, _)) => addAll fuel b more

/-! ### Streams -/

/-- `magic_`. -/
def magic : Bytes := bytes "desres_bloom"

/-- `out << b`: the text that is written. -/
def put (b : Bloomfilter) : Bytes :=
  magic ++ [ch ' '] ++ decimal b.nhashes ++ [ch ' '] ++ decimal b.nentries ++ [ch ' '] ++ b.bits.put

/-- What `inp >> b` reads in front of the bits. -/
def header (inp : IStream) : Res (ℕ × ℕ × IStream) := do
  let _ ← Bits.require inp.good (bytes "error on input stream reading bloom filter data")
  let (s, inp) := inp.getString
  let inp := inp.ws
  let _ ← Bits.require inp.good (bytes "error on input stream reading bloom filter magic")
  let _ ← Bits.require (s = magic) (bytes "error on input stream did not get bloom filter magic, got " ++ s)
  let (nh, inp) := inp.getUnsigned 64
  let (ne, inp) := inp.ws.getUnsigned 64
  let inp := inp.ws
  let _ ← Bits.require inp.good (bytes "error on input stream reading bloom filter nhashes")
  .ok (nh.getD 0, ne.getD 0, inp)

/-- `inp >> b`: `b` afterwards, and the result with the stream. -/
def getBloom (inp : IStream) (b : Bloomfilter) : Bloomfilter × Res IStream :=
  match header inp with
  | .error e => (b, .error e)
  | .ok (nh, ne, inp) =>
    match Bits.getBits inp b.bits with
    | (bits, .error e) => ({ b with bits }, .error e)
    | (bits, .ok inp) =>
      if inp.good then (⟨bits, nh, ne⟩, .ok inp)
      else ({ b with bits }, throwE .runtimeError (bytes "error on input stream reading bloom filter bits"))

/-! ## Adding and checking -/

/-- The bits of the first `n` hashes of a string are set. -/
def Present (b : Bits) : ℕ → UInt64 → UInt64 → Prop
  | 0, _, _ => True
  | n + 1, first, second => b.bit (first.toNat % b.szbits) = true ∧ Present b n (first + second) second

/-- Every index of a hash is one of the array. -/
structure Usable (b : Bits) : Prop where
  pos : 0 < b.szbits
  small : b.szbits ≤ 2 ^ 63
  words : b.szbits ≤ 64 * b.words.length

/-- No bit has been unset, and the array is as large as before. -/
structure Grows (b b' : Bits) : Prop where
  szbits : b'.szbits = b.szbits
  length : b'.words.length = b.words.length
  bit : ∀ j, b.Inside j → b.bit j = true → b'.bit j = true

section Loops

variable {b b' b'' : Bits} {nhashes : ℕ}

theorem Usable.inside (h : Usable b) (first : UInt64) : b.Inside (first.toNat % b.szbits) := by
  have hlt := Nat.mod_lt first.toNat h.pos
  have hsmall := h.small
  have hwords := h.words
  exact ⟨by omega, by omega⟩

theorem Usable.hashIndex_eq (h : Usable b) (first : UInt64) :
    b.hashIndex first = .ok (first.toNat % b.szbits) := if_neg h.pos.ne'

theorem Grows.refl (b : Bits) : Grows b b := ⟨rfl, rfl, fun _ _ hbit => hbit⟩

theorem Grows.inside (h : Grows b b') {j : ℕ} (hj : b.Inside j) : b'.Inside j :=
  ⟨hj.small, h.length ▸ hj.word⟩

theorem Grows.trans (h : Grows b b') (h' : Grows b' b'') : Grows b b'' :=
  ⟨h'.szbits.trans h.szbits, h'.length.trans h.length, fun j hj hbit => h'.bit j (h.inside hj) (h.bit j hj hbit)⟩

theorem Grows.usable (h : Grows b b') (hb : Usable b) : Usable b' := by
  obtain ⟨hpos, hsmall, hwords⟩ := hb
  exact ⟨h.szbits ▸ hpos, h.szbits ▸ hsmall, by rw [h.szbits, h.length]; exact hwords⟩

theorem grows_setBit (b : Bits) (i : ℕ) : Grows b (b.setBit i) :=
  ⟨rfl, Bits.setBit_length b i, fun _ hj hbit => Bits.bit_setBit hj hbit⟩

theorem Grows.present (h : Grows b b') (hb : Usable b) {n : ℕ} {first second : UInt64}
    (hp : Present b n first second) : Present b' n first second := by
  induction n generalizing first with
  | zero => trivial
  | succ n ih =>
    obtain ⟨hbit, hrest⟩ := hp
    refine ⟨?_, ih hrest⟩
    rw [h.szbits]
    exact h.bit _ (hb.inside first) hbit

/-- The loop of `add` sets the bits of the hashes that are left. -/
theorem addLoop_eq {m n fuel : ℕ} (hb : 0 < m → Usable b) (hn : n + m = nhashes) (hlt : nhashes < 2 ^ 32)
    (hfuel : m < fuel) (first second : UInt64) (ret : Bool) :
    ∃ b' r, addLoop nhashes fuel n first second b ret = some (.ok (b', r)) ∧ Grows b b'
      ∧ Present b' m first second := by
  induction m generalizing n fuel first b ret with
  | zero =>
    obtain ⟨fuel, rfl⟩ : ∃ k, fuel = k + 1 := ⟨fuel - 1, by omega⟩
    refine ⟨b, ret, ?_, Grows.refl b, trivial⟩
    rw [addLoop, if_neg (by omega)]
  | succ m ih =>
    obtain ⟨fuel, rfl⟩ : ∃ k, fuel = k + 1 := ⟨fuel - 1, by omega⟩
    have hu := hb (Nat.succ_pos m)
    have hset : b.hashIndex first >>= b.set
        = .ok (b.setBit (first.toNat % b.szbits), b.bit (first.toNat % b.szbits)) :=
      bind_eq_ok_iff.mpr ⟨_, hu.hashIndex_eq first, (hu.inside first).set_eq⟩
    have hgrow := grows_setBit b (first.toNat % b.szbits)
    have hu' := hgrow.usable hu
    have hmod : (n + 1) % 2 ^ 32 = n + 1 := Nat.mod_eq_of_lt (by omega)
    have hn' : n + 1 + m = nhashes := by omega
    have hfuel' : m < fuel := by omega
    obtain ⟨b', r, hloop, hgrow', hpresent⟩ := ih (fun _ => hu') hn' hfuel' (first + second)
      (ret && b.bit (first.toNat % b.szbits))
    refine ⟨b', r, ?_, hgrow.trans hgrow', ?_, hpresent⟩
    · rw [addLoop, if_pos (by omega), hset]
      dsimp only
      rw [hmod, hloop]
    · have hbit := Bits.bit_setBit_self (hu.inside first)
      rw [hgrow'.szbits, Bits.setBit_szbits]
      exact hgrow'.bit _ (hgrow.inside (hu.inside first)) hbit

theorem checkLoop_eq {m n fuel : ℕ} (hb : 0 < m → Usable b) (hn : n + m = nhashes) (hlt : nhashes < 2 ^ 32)
    (hfuel : m < fuel) {first second : UInt64} (hp : Present b m first second) :
    checkLoop nhashes b fuel n first second = some (.ok true) := by
  induction m generalizing n fuel first with
  | zero =>
    obtain ⟨fuel, rfl⟩ : ∃ k, fuel = k + 1 := ⟨fuel - 1, by omega⟩
    rw [checkLoop, if_neg (by omega)]
  | succ m ih =>
    obtain ⟨fuel, rfl⟩ : ∃ k, fuel = k + 1 := ⟨fuel - 1, by omega⟩
    have hu := hb (Nat.succ_pos m)
    obtain ⟨hbit, hrest⟩ := hp
    have hget : b.hashIndex first >>= b.get = .ok true := by
      rw [← hbit]
      exact bind_eq_ok_iff.mpr ⟨_, hu.hashIndex_eq first, (hu.inside first).get_eq⟩
    have hmod : (n + 1) % 2 ^ 32 = n + 1 := Nat.mod_eq_of_lt (by omega)
    rw [checkLoop, if_pos (by omega), hget]
    dsimp only
    rw [hmod]
    exact ih (fun _ => hu) (by omega) (by omega) hrest

end Loops

/-! ## Filters that are in use -/

/-- A filter as `init`, `add` and the reading of a written image leave it. -/
structure Ready (b : Bloomfilter) : Prop where
  szbits_lt : b.bits.szbits < 2 ^ 64
  words : b.bits.words.length = Bits.bits2words b.bits.szbits
  nhashes_lt : b.nhashes < 2 ^ 32
  nentries_lt : b.nentries < 2 ^ 64
  usable : 0 < b.nhashes → Usable b.bits

/-- The string has been added. -/
def Holds (b : Bloomfilter) (data : Bytes) : Prop :=
  Present b.bits b.nhashes (threeroe data 0 0).1 (threeroe data 0 0).2

section Filters

variable {b b' : Bloomfilter} {data : Bytes} {fuel : ℕ}

theorem init_ready {e : BloomEstimate} {maxbits : ℕ} (hsmall : e.nbits ≤ 2 ^ 63) (h : init e maxbits = .ok b) :
    b.Ready ∧ b.nhashes = e.nhashes := by
  have hmod : (2 : ℕ) ^ 63 + 63 < sizeMod := by decide
  unfold init at h
  split at h
  · exact absurd h (throwE_ne_ok _ _ _)
  cases h
  have hwords : (Bits.init e.nbits).words.length = Bits.bits2words e.nbits := List.length_replicate
  refine ⟨⟨e.nbits_lt, hwords, e.nhashes_lt, by norm_num, fun hpos => ⟨e.nbits_pos hpos, hsmall, ?_⟩⟩, rfl⟩
  rw [hwords, Bits.bits2words_eq (by omega)]
  change e.nbits ≤ 64 * ((e.nbits + 63) / 64)
  omega

theorem add_eq (hb : b.Ready) (hfuel : b.nhashes < fuel) (data : Bytes) :
    ∃ b' r, b.add fuel data = some (.ok (b', r)) ∧ b'.Ready ∧ b'.nhashes = b.nhashes ∧ Grows b.bits b'.bits
      ∧ b'.Holds data := by
  obtain ⟨bits, r, hloop, hgrow, hpresent⟩ := addLoop_eq hb.usable (Nat.zero_add b.nhashes) hb.nhashes_lt hfuel
    (threeroe data 0 0).1 (threeroe data 0 0).2 true
  refine ⟨{ b with bits, nentries := addW b.nentries 1 }, r, ?_, ⟨?_, ?_, hb.nhashes_lt, addW_lt _ _, ?_⟩, rfl, hgrow,
    hpresent⟩
  · simp only [add, hloop]
    rfl
  · exact hgrow.szbits ▸ hb.szbits_lt
  · rw [hgrow.length, hgrow.szbits]
    exact hb.words
  · exact fun hpos => hgrow.usable (hb.usable hpos)

/-- What has been added stays. -/
theorem Holds.grows (h : b.Holds data) (hb : b.Ready) (hgrow : Grows b.bits b'.bits) (hn : b'.nhashes = b.nhashes) :
    b'.Holds data := by
  unfold Holds at h ⊢
  rw [hn]
  by_cases hpos : 0 < b.nhashes
  · exact hgrow.present (hb.usable hpos) h
  · obtain hzero : b.nhashes = 0 := by omega
    rw [hzero]
    trivial

theorem addAll_eq (hb : b.Ready) (hfuel : b.nhashes < fuel) (ss : List Bytes) :
    ∃ b', addAll fuel b ss = some (.ok b') ∧ b'.Ready ∧ b'.nhashes = b.nhashes ∧ Grows b.bits b'.bits
      ∧ ∀ s ∈ ss, b'.Holds s := by
  induction ss generalizing b with
  | nil => exact ⟨b, rfl, hb, rfl, Grows.refl _, by simp⟩
  | cons s ss ih =>
    obtain ⟨b₁, r, hadd, hb₁, hn₁, hgrow₁, hholds₁⟩ := add_eq hb hfuel s
    obtain ⟨b₂, hall, hb₂, hn₂, hgrow₂, hholds₂⟩ := ih hb₁ (hn₁ ▸ hfuel)
    refine ⟨b₂, ?_, hb₂, hn₂.trans hn₁, hgrow₁.trans hgrow₂, ?_⟩
    · rw [addAll, hadd]
      exact hall
    · intro s' hs'
      rcases List.mem_cons.mp hs' with rfl | hs'
      · exact hholds₁.grows hb₁ hgrow₂ hn₂
      · exact hholds₂ s' hs'

theorem check_eq (hb : b.Ready) (hfuel : b.nhashes < fuel) (h : b.Holds data) :
    b.check fuel data = some (.ok true) :=
  checkLoop_eq hb.usable (Nat.zero_add _) hb.nhashes_lt hfuel h

/-! ## Images -/

/-- The number of hashes and the number of bits in an image. -/
def imageFields (inp : IStream) : ℕ × ℕ :=
  let inp := inp.getString.2.ws
  let (nh, inp) := inp.getUnsigned 64
  (nh.getD 0, Bits.sizeField (inp.ws.getUnsigned 64).2.ws)

/-- The bit array has enough words, and every index that `add` and `check` compute is one of it. -/
structure Sound (b : Bloomfilter) : Prop where
  words : (b.bits.szbits + 63) / 64 ≤ b.bits.words.length
  index : 0 < b.nhashes → ∀ h, InBounds (b.bits.hashIndex h >>= b.bits.getidx)

/-- The number of words does not wrap round, and the hashes have an index that is no negative number for `std::ldiv`. -/
structure ImageFits (nhashes szbits : ℕ) : Prop where
  words : szbits + 63 < 2 ^ 64
  index : 0 < nhashes → 0 < szbits ∧ szbits ≤ 2 ^ 63

theorem header_inBounds (inp : IStream) : InBounds (header inp) := by
  have hreq := Bits.require_inBounds
  exact (hreq _ _).bind fun _ _ => (hreq _ _).bind fun _ _ => (hreq _ _).bind fun _ _ => (hreq _ _).bind fun _ _ =>
    InBounds.ok _

theorem header_inv {inp inp' : IStream} {nh ne : ℕ} (h : header inp = .ok (nh, ne, inp')) :
    nh = (imageFields inp).1 ∧ Bits.sizeField inp' = (imageFields inp).2 := by
  unfold header at h
  obtain ⟨_, -, h⟩ := bind_eq_ok_iff.mp h
  obtain ⟨_, -, h⟩ := bind_eq_ok_iff.mp h
  obtain ⟨_, -, h⟩ := bind_eq_ok_iff.mp h
  obtain ⟨_, -, h⟩ := bind_eq_ok_iff.mp h
  cases h
  exact ⟨rfl, rfl⟩

theorem header_put (hnh : b.nhashes < 2 ^ 64) (hne : b.nentries < 2 ^ 64) (rest : Bytes) :
    header (.of (b.put ++ rest)) = .ok (b.nhashes, b.nentries, .of (b.bits.put ++ rest)) := by
  -- The text as the stream comes to it.
  obtain ⟨T₃, hT₃⟩ : ∃ T, T = b.bits.put ++ rest := ⟨_, rfl⟩
  obtain ⟨T₂, hT₂⟩ : ∃ T, T = decimal b.nentries ++ ch ' ' :: T₃ := ⟨_, rfl⟩
  obtain ⟨T₁, hT₁⟩ : ∃ T, T = decimal b.nhashes ++ ch ' ' :: T₂ := ⟨_, rfl⟩
  have htext : b.put ++ rest = magic ++ ch ' ' :: T₁ := by
    rw [hT₁, hT₂, hT₃, put]
    simp only [List.append_assoc, List.cons_append, List.nil_append]
  have hword : (IStream.of (b.put ++ rest)).getString = (magic, .of (ch ' ' :: T₁)) := by
    rw [htext]
    exact IStream.getString_append (by decide) (by decide +kernel) (by decide)
  have hws₁ : (IStream.of (ch ' ' :: T₁)).ws = .of T₁ := by
    rw [hT₁]
    exact IStream.ws_decimal _ _
  have hnh' : (IStream.of T₁).getUnsigned 64 = (some b.nhashes, .of (ch ' ' :: T₂)) := by
    rw [hT₁]
    exact IStream.getUnsigned_decimal hnh (by decide)
  have hws₂ : (IStream.of (ch ' ' :: T₂)).ws = .of T₂ := by
    rw [hT₂]
    exact IStream.ws_decimal _ _
  have hne' : (IStream.of T₂).getUnsigned 64 = (some b.nentries, .of (ch ' ' :: T₃)) := by
    rw [hT₂]
    exact IStream.getUnsigned_decimal hne (by decide)
  have hws₃ : (IStream.of (ch ' ' :: T₃)).ws = .of T₃ := by
    rw [hT₃, Bits.put, List.append_assoc, List.append_assoc, List.append_assoc, List.append_assoc]
    exact IStream.ws_decimal _ _
  have hreq : ∀ {c : Bool} {what : Bytes}, c = true → Bits.require c what = .ok () :=
    fun h => Bits.require_eq_ok_iff.mpr h
  unfold header
  refine bind_eq_ok_iff.mpr ⟨(), hreq rfl, ?_⟩
  simp only [hword, hws₁]
  refine bind_eq_ok_iff.mpr ⟨(), hreq rfl, ?_⟩
  refine bind_eq_ok_iff.mpr ⟨(), hreq (decide_eq_true trivial), ?_⟩
  simp only [hnh', hws₂, hne', hws₃]
  refine bind_eq_ok_iff.mpr ⟨(), hreq rfl, ?_⟩
  rw [hT₃]
  rfl

/-- What is written is read back into any filter, whatever stands behind it. -/
theorem getBloom_put (hnh : b.nhashes < 2 ^ 64) (hne : b.nentries < 2 ^ 64) (hsz : b.bits.szbits < 2 ^ 64)
    (hwords : b.bits.words.length = Bits.bits2words b.bits.szbits) (t : Bloomfilter) (rest : Bytes) :
    getBloom (.of (b.put ++ rest)) t = (b, .ok (.of rest)) := by
  have hbits : Bits.getBits (.of (b.bits.put ++ rest)) t.bits = (b.bits, .ok (.of rest)) := by
    rw [Bits.getBits, Bits.parse_put hsz hwords]
  rw [getBloom, header_put hnh hne]
  dsimp only
  rw [hbits]
  rfl

/-- What reading an image does: nothing, or the filter is as the fields of the image say. -/
theorem getBloom_cases (inp : IStream) (t : Bloomfilter) :
    (getBloom inp t).1 = t ∧ Throws (getBloom inp t).2
      ∨ ∃ inp', (getBloom inp t).2 = .ok inp' ∧ (getBloom inp t).1.nhashes = (imageFields inp).1
        ∧ (getBloom inp t).1.bits.szbits = (imageFields inp).2
        ∧ (getBloom inp t).1.bits.words.length = Bits.bits2words (imageFields inp).2 := by
  have hheader := header_inBounds inp
  unfold getBloom
  cases h : header inp with
  | error e =>
    rw [h] at hheader
    exact .inl ⟨rfl, hheader.throws_error⟩
  | ok r =>
    obtain ⟨nh, ne, inp₁⟩ := r
    obtain ⟨hnh, hsize⟩ := header_inv h
    have hparse := Bits.parse_inBounds inp₁
    dsimp only [Bits.getBits]
    cases h₁ : Bits.parse inp₁ with
    | error e =>
      rw [h₁] at hparse
      exact .inl ⟨rfl, hparse.throws_error⟩
    | ok r =>
      obtain ⟨bits, inp₂⟩ := r
      obtain ⟨hszbits, hwords, hgood⟩ := Bits.parse_inv h₁
      dsimp only
      rw [if_pos hgood]
      exact .inr ⟨inp₂, rfl, hnh, hszbits.trans hsize, hwords.trans (congrArg _ hsize)⟩

/-- The sizes of an image decide whether the filter is sound. -/
theorem sound_iff (hlt : b.bits.szbits < 2 ^ 64) (hwords : b.bits.words.length = Bits.bits2words b.bits.szbits) :
    Sound b ↔ ImageFits b.nhashes b.bits.szbits := by
  have hmod : sizeMod = 2 ^ 64 := rfl
  have hlarge : (2 : ℕ) ^ 63 + 63 < 2 ^ 64 := by norm_num
  constructor
  · intro hsound
    refine ⟨?_, fun hpos => ?_⟩
    · by_contra hwrap
      have hzero := Bits.bits2words_eq_zero (by omega) hlt
      have hle := hsound.words
      omega
    · have hne : b.bits.szbits ≠ 0 := by
        intro hzero
        apply hsound.index hpos 0
        rw [Bits.hashIndex, if_pos hzero]
        rfl
      refine ⟨Nat.pos_of_ne_zero hne, ?_⟩
      by_contra hgt
      -- The hash `2 ^ 63` is its own index, which is a negative number for `std::ldiv`.
      have hhash : (9223372036854775808 : UInt64).toNat = 2 ^ 63 := rfl
      have hnegative : toSsize (2 ^ 63) < 0 := by decide
      apply hsound.index hpos 9223372036854775808
      rw [Bits.hashIndex, if_neg hne, hhash, Nat.mod_eq_of_lt (by omega)]
      change b.bits.getidx (2 ^ 63) = _
      rw [Bits.getidx, if_pos hnegative]
  · intro hfits
    have hwords' := Bits.bits2words_eq (hmod ▸ hfits.words)
    refine ⟨by omega, fun hpos h => ?_⟩
    obtain ⟨hszpos, hsmall⟩ := hfits.index hpos
    have hu : Usable b.bits := ⟨hszpos, hsmall, by omega⟩
    rw [bind_eq_ok_iff.mpr ⟨_, hu.hashIndex_eq h, (hu.inside h).getidx_eq⟩]
    exact InBounds.ok _

end Filters

/-- What has been added to an initialised filter is found in it and in every filter that reads its image. Reading an
image throws and changes nothing, or it gives a filter that is sound if and only if the sizes in the image fit. -/
theorem bloomfilter_holds_and_loads (inp : IStream) (t : Bloomfilter) :
    (∀ (e : BloomEstimate) maxbits b, init e maxbits = .ok b → e.nbits ≤ 2 ^ 63 → ∀ (ss : List Bytes) fuel,
      e.nhashes < fuel → ∃ b', addAll fuel b ss = some (.ok b') ∧ ∀ s ∈ ss, b'.check fuel s = some (.ok true)
        ∧ ∀ t rest, (getBloom (.of (b'.put ++ rest)) t).2 = .ok (.of rest)
          ∧ (getBloom (.of (b'.put ++ rest)) t).1.check fuel s = some (.ok true))
      ∧ ((getBloom inp t).1 = t ∧ Throws (getBloom inp t).2
        ∨ (∃ inp', (getBloom inp t).2 = .ok inp')
          ∧ (Sound (getBloom inp t).1 ↔ ImageFits (imageFields inp).1 (imageFields inp).2)) := by
  constructor
  · intro e maxbits b hinit hsmall ss fuel hfuel
    obtain ⟨hb, hn⟩ := init_ready hsmall hinit
    obtain ⟨b', hall, hb', hn', -, hholds⟩ := addAll_eq hb (hn ▸ hfuel) ss
    refine ⟨b', hall, fun s hs => ?_⟩
    have hcheck := check_eq hb' (by rw [hn', hn]; exact hfuel) (hholds s hs)
    refine ⟨hcheck, fun t rest => ?_⟩
    have hnh' : b'.nhashes < 2 ^ 64 := hb'.nhashes_lt.trans (by norm_num)
    rw [getBloom_put hnh' hb'.nentries_lt hb'.szbits_lt hb'.words t rest]
    exact ⟨rfl, hcheck⟩
  · rcases getBloom_cases inp t with hthrows | ⟨inp', hok, hnh, hszbits, hwords⟩
    · exact .inl hthrows
    · refine .inr ⟨⟨inp', hok⟩, ?_⟩
      rw [← hnh, ← hszbits]
      refine sound_iff ?_ (hszbits ▸ hwords)
      rw [hszbits]
      exact IStream.getUnsigned_lt 64 _

/-- An image with 2^64 - 1 bits and no word. -/
def wrappedImage : Bytes := (⟨⟨2 ^ 64 - 1, []⟩, 1, 1⟩ : Bloomfilter).put

theorem not_sound_wrappedImage : (getBloom (.of wrappedImage) ⟨⟨0, []⟩, 0, 0⟩).2 = .ok (.of [])
    ∧ (getBloom (.of wrappedImage) ⟨⟨0, []⟩, 0, 0⟩).1.bits.words = []
    ∧ (getBloom (.of wrappedImage) ⟨⟨0, []⟩, 0, 0⟩).1.bits.szbits = 2 ^ 64 - 1
    ∧ ¬ Sound (getBloom (.of wrappedImage) ⟨⟨0, []⟩, 0, 0⟩).1 := by
  have hwords : ([] : List UInt64).length = Bits.bits2words (2 ^ 64 - 1) := by decide
  have hget := getBloom_put (b := ⟨⟨2 ^ 64 - 1, []⟩, 1, 1⟩) (by norm_num) (by norm_num) (by norm_num) hwords
    ⟨⟨0, []⟩, 0, 0⟩ []
  rw [List.append_nil] at hget
  rw [wrappedImage, hget]
  refine ⟨rfl, rfl, rfl, fun hsound => ?_⟩
  have hle := hsound.words
  norm_num at hle

end Bloomfilter

end Fs123
