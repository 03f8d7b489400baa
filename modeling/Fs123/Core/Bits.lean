import Fs123.Common.Pod
import Fs123.Core.NetstringStream
import Fs123.Core.Threeroe
import Mathlib.Data.List.GetD

/-!
# Bit vectors

The model of `core123/bits.hpp`. The number of words for a number of bits is computed in `size_t`: for the last 63
numbers it wraps round to none (`bits2words_eq_zero`), and an image with such a size field is accepted with no words.
All that is written otherwise is read back (`getBits_put`).
-/

namespace Fs123

open Cxx

/-- `bits`. `szwords_` is the length of the array. -/
structure Bits where
  szbits : ℕ
  words : List UInt64
  deriving Repr, DecidableEq

namespace Bits

/-- `bits2words_(nbits)`. -/
def bits2words (nbits : ℕ) : ℕ := addW nbits 63 / 64

/-- `init(nbits)`. -/
def init (nbits : ℕ) : Bits := ⟨nbits, List.replicate (bits2words nbits) 0⟩

/-- The mask of a bit in its word. -/
def mask (i : ℕ) : UInt64 := 1 <<< UInt64.ofNat (i % 64)

/-- `getidx_(i)`: the array index and the masked word. `std::ldiv` takes a signed number. -/
def getidx (b : Bits) (i : ℕ) : Res (ℕ × UInt64) :=
  if toSsize i < 0 then .error .oob
  else
    match b.words[i / 64]? with
    | some w => .ok (i / 64, w &&& mask i)
    | none => .error .oob

/-- `set(i)`. -/
def set (b : Bits) (i : ℕ) : Res (Bits × Bool) := do
  let (k, old) ← b.getidx i
  .ok ({ b with words := b.words.modify k (· ||| mask i) }, old != 0)

/-- `get(i)`. -/
def get (b : Bits) (i : ℕ) : Res Bool := do
  let (_, old) ← b.getidx i
  .ok (old != 0)

/-! ## Images -/

/-- `magic_()`. -/
def magic : ℕ := 0x7a6f594e382d4567

/-- The bytes of the array, on a little-endian machine. -/
def databytes (b : Bits) : Bytes := b.words.flatMap fun w => leBytes 8 w.toNat

/-- The first `k` words in a memory. -/
def wordsOf : ℕ → Bytes → List UInt64
  | 0, _ => []
  | k + 1, data => UInt64.ofNat (ofLe (data.take 8)) :: wordsOf k (data.drop 8)

/-- `out << b`: the text that is written. -/
def put (b : Bits) : Bytes :=
  decimal b.szbits ++ [ch ' '] ++ netstring (leBytes 8 magic) ++ netstring b.databytes
    ++ netstring (hexdigest b.databytes)

/-- `if(!c) throw std::runtime_error(what)`. -/
def require (c : Bool) (what : Bytes) : Res Unit := if c then .ok () else throwE .runtimeError what

/-- `sget_netstring(inp, &s)` with the default arguments and a new string. -/
def sgetString (inp : IStream) : Res (Bool × Bytes × IStream) :=
  let (s, r) := sgetNetstring inp [] true 999999999
  r.map fun r => (r.1, s, r.2)

/-- A `char` in `std::to_string`. -/
def charDecimal (c : UInt8) : Bytes := decimalInt (if c.toNat < 128 then c.toNat else c.toNat - 256)

/-- What `inp >> b` reads before it changes `b`. In the texts of the exceptions a number that was not assigned is 0. -/
def parse (inp : IStream) : Res (Bits × IStream) := do
  let _ ← require inp.good (bytes "Bits istream error before reading Bits sizebits")
  let (szbits, inp) := inp.getUnsigned 64
  let szbits := szbits.getD 0
  let inp := inp.ws
  let _ ← require inp.good (bytes "Bits istream error after reading sizebits " ++ decimal szbits)
  let (got, magic', inp) ← sgetString inp
  let _ ← require (got && magic'.length = 8) (bytes "Bits istream error while reading magic after sizebits "
    ++ decimal szbits ++ bytes " magicsize=" ++ decimal magic'.length)
  let _ ← require (ofLe magic' = magic) (bytes "Bits istream error, bad magic, read "
    ++ hexWord (UInt64.ofNat (ofLe magic')) ++ bytes ", expected " ++ hexWord (UInt64.ofNat magic))
  let (szbytes, inp) := inp.getUnsigned 64
  let szbytes := szbytes.getD 0
  let _ ← require inp.good (bytes "Bits istream error after reading Bits length " ++ decimal szbytes)
  let (c, inp) := inp.getChar
  let _ ← require inp.good (bytes "Bits istream error after reading length delim after " ++ decimal szbytes)
  let _ ← require (c = some (ch ':')) (bytes "Bits istream error, did not get expected colon after length "
    ++ decimal szbytes ++ bytes " got " ++ charDecimal (c.getD 0))
  let szw := bits2words szbits
  let expbytes := szw * 8 % sizeMod
  let _ ← require (expbytes = szbytes) (bytes "Bit sistream error, szbytes " ++ decimal szbytes
    ++ bytes " != expbytes " ++ decimal expbytes)
  let (data, inp) := inp.read szbytes
  let _ ← require inp.good (bytes "Bits istream error while reading data, length " ++ decimal szbytes)
  let (c, inp) := inp.getChar
  let _ ← require inp.good (bytes "Bits istream error after reading end delim after data, length " ++ decimal szbytes)
  let _ ← require (c = some (ch ',')) (bytes "Bits istream error, did not get expected comma after data, length "
    ++ decimal szbytes ++ bytes " got " ++ charDecimal (c.getD 0))
  let (got, h, inp) ← sgetString inp
  let _ ← require got (bytes "Bits istream error while reading data hash, length " ++ decimal szbytes)
  let _ ← require (h = hexdigest data) (bytes "Bits istream error, file has trsum " ++ h
    ++ bytes ", calc on netstring says " ++ hexdigest data)
  .ok (⟨szbits, wordsOf szw data⟩, inp)

/-- `inp >> b`: `b` afterwards, and the result with the stream. -/
def getBits (inp : IStream) (b : Bits) : Bits × Res IStream :=
  match parse inp with
  | .ok (b', inp) => (b', .ok inp)
  | .error e => (b, .error e)

/-! ## Single bits -/

theorem or_and (a m' m : UInt64) : (a ||| m') &&& m = (a &&& m) ||| (m' &&& m) :=
  UInt64.toBitVec_inj.1 BitVec.and_or_distrib_right

theorem mask_ne_zero (i : ℕ) : mask i ≠ 0 := by
  have h : i % 64 < 64 := Nat.mod_lt _ (by decide)
  unfold mask
  interval_cases i % 64 <;> decide

/-- The index is one of the array, and no negative number for `std::ldiv`. -/
structure Inside (b : Bits) (i : ℕ) : Prop where
  small : i < 2 ^ 63
  word : i / 64 < b.words.length

/-- The bit at an index. -/
def bit (b : Bits) (i : ℕ) : Bool := (b.words.getD (i / 64) 0 &&& mask i) != 0

/-- The array with one more bit. -/
def setBit (b : Bits) (i : ℕ) : Bits := { b with words := b.words.modify (i / 64) (· ||| mask i) }

variable {b : Bits} {i j : ℕ}

theorem Inside.getidx_eq (h : b.Inside i) : b.getidx i = .ok (i / 64, b.words.getD (i / 64) 0 &&& mask i) := by
  have hsmall := toSsize_eq h.small
  rw [getidx, if_neg (by omega), List.getElem?_eq_getElem h.word, List.getD_eq_getElem _ _ h.word]

theorem Inside.get_eq (h : b.Inside i) : b.get i = .ok (b.bit i) := by
  rw [get, h.getidx_eq]
  rfl

theorem Inside.set_eq (h : b.Inside i) : b.set i = .ok (b.setBit i, b.bit i) := by
  rw [set, h.getidx_eq]
  rfl

/-- Outside the array there is no bit. -/
theorem get_of_not_inside (hi : i < sizeMod) (h : ¬ b.Inside i) : b.get i = .error .oob := by
  rw [get, getidx]
  split
  · rfl
  · next hsmall =>
    have hlt : i < 2 ^ 63 := by
      by_contra hge
      rw [toSsize, if_neg hge] at hsmall
      omega
    rw [List.getElem?_eq_none (not_lt.mp fun hword => h ⟨hlt, hword⟩)]
    rfl

@[simp] theorem setBit_szbits (b : Bits) (i : ℕ) : (b.setBit i).szbits = b.szbits := rfl

@[simp] theorem setBit_length (b : Bits) (i : ℕ) : (b.setBit i).words.length = b.words.length :=
  List.length_modify _ _ _

theorem setBit_getD (b : Bits) (i k : ℕ) (hk : k < b.words.length) : (b.setBit i).words.getD k 0
    = if i / 64 = k then b.words.getD k 0 ||| mask i else b.words.getD k 0 := by
  have hk' : k < (b.setBit i).words.length := by rwa [setBit_length]
  rw [List.getD_eq_getElem _ _ hk', List.getD_eq_getElem _ _ hk]
  exact List.getElem_modify _ _ _ _ _

theorem bit_setBit_self (h : b.Inside i) : (b.setBit i).bit i = true := by
  rw [bit, setBit_getD b i _ h.word, if_pos rfl, or_and, UInt64.and_self, bne_iff_ne, ne_eq, UInt64.or_eq_zero_iff]
  exact fun hzero => mask_ne_zero i hzero.2

/-- Setting a bit unsets none. -/
theorem bit_setBit (h : b.Inside j) (hj : b.bit j = true) : (b.setBit i).bit j = true := by
  rw [bit, bne_iff_ne, ne_eq] at hj ⊢
  rw [setBit_getD b i _ h.word]
  split
  · rw [or_and, UInt64.or_eq_zero_iff]
    exact fun hzero => hj hzero.1
  · exact hj

/-! ## Sizes -/

/-- The number of words, unless it wraps round. -/
theorem bits2words_eq {n : ℕ} (h : n + 63 < sizeMod) : bits2words n = (n + 63) / 64 := by
  rw [bits2words, addW_eq h]

theorem bits2words_eq_zero {n : ℕ} (h : sizeMod ≤ n + 63) (hn : n < sizeMod) : bits2words n = 0 := by
  have hmod : (64 : ℕ) < sizeMod := by decide
  rw [bits2words, addW_wrap h hn (by omega)]
  omega

theorem bits2words_le (n : ℕ) : bits2words n < 2 ^ 58 := by
  have h := addW_lt n 63
  have hmod : sizeMod = 64 * 2 ^ 58 := by decide
  unfold bits2words
  omega

theorem databytes_length (b : Bits) : b.databytes.length = 8 * b.words.length := by
  rw [databytes, List.length_flatMap]
  simp [Nat.mul_comm]

theorem wordsOf_length (k : ℕ) (data : Bytes) : (wordsOf k data).length = k := by
  induction k generalizing data with
  | zero => rfl
  | succ k ih => rw [wordsOf, List.length_cons, ih]

theorem wordsOf_databytes (b : Bits) : wordsOf b.words.length b.databytes = b.words := by
  obtain ⟨szbits, words⟩ := b
  unfold databytes
  induction words with
  | nil => rfl
  | cons w words ih =>
    dsimp only at ih ⊢
    have hlen : (leBytes 8 w.toNat).length = 8 := leBytes_length _ _
    rw [List.length_cons, wordsOf, List.flatMap_cons, List.take_left' hlen, List.drop_left' hlen, ih, ofLe_leBytes,
      Nat.mod_eq_of_lt (by exact_mod_cast w.toNat_lt), UInt64.ofNat_toNat]

/-! ## Reading an image -/

theorem require_eq_ok_iff {c : Bool} {what : Bytes} {u : Unit} : require c what = .ok u ↔ c = true := by
  cases c <;> simp [require]

theorem require_inBounds (c : Bool) (what : Bytes) : InBounds (require c what) := by
  unfold require
  split
  · exact InBounds.ok _
  · exact InBounds.throwE _ _

theorem sgetString_inBounds (inp : IStream) : InBounds (sgetString inp) := by
  unfold sgetString
  rcases sgetNetstring_cases inp [] true 999999999 with ⟨_, hok, -⟩ | ⟨_, hok⟩ | ⟨e, he⟩
  · dsimp only
    rw [hok]
    exact InBounds.ok _
  · dsimp only
    rw [hok]
    exact InBounds.ok _
  · dsimp only
    rw [he]
    exact InBounds.throws e

theorem parse_inBounds (inp : IStream) : InBounds (parse inp) := by
  have hreq := require_inBounds
  refine (hreq _ _).bind fun _ _ => (hreq _ _).bind fun _ _ => (sgetString_inBounds _).bind fun r _ => ?_
  refine (hreq _ _).bind fun _ _ => (hreq _ _).bind fun _ _ => (hreq _ _).bind fun _ _ => ?_
  refine (hreq _ _).bind fun _ _ => (hreq _ _).bind fun _ _ => (hreq _ _).bind fun _ _ => ?_
  refine (hreq _ _).bind fun _ _ => (hreq _ _).bind fun _ _ => (hreq _ _).bind fun _ _ => ?_
  refine (sgetString_inBounds _).bind fun r _ => ?_
  exact (hreq _ _).bind fun _ _ => (hreq _ _).bind fun _ _ => InBounds.ok _

/-- A netstring that has been read leaves the stream good. -/
theorem sgetString_good {inp inp' : IStream} {s : Bytes} (h : sgetString inp = .ok (true, s, inp')) :
    inp'.good = true := by
  unfold sgetString at h
  dsimp only at h
  rcases sgetNetstring_cases inp [] true 999999999 with ⟨_, hok, hgood⟩ | ⟨_, hok⟩ | ⟨e, he⟩
  · rw [hok] at h
    cases h
    exact hgood
  · rw [hok] at h
    cases h
  · rw [he] at h
    cases h

theorem sgetString_netstring {p : Bytes} (hp : p.length ≤ 999999999) (rest : Bytes) :
    sgetString (.of (netstring p ++ rest)) = .ok (true, p, .of rest) := by
  rw [sgetString, sgetNetstring_append (by omega) hp]
  rfl

theorem netstring_eq (p : Bytes) : netstring p = decimal p.length ++ ch ':' :: (p ++ [ch ',']) := by
  simp [netstring]

/-- The size field of an image. -/
def sizeField (inp : IStream) : ℕ := (inp.getUnsigned 64).1.getD 0

theorem parse_inv {inp inp' : IStream} {b : Bits} (h : parse inp = .ok (b, inp')) :
    b.szbits = sizeField inp ∧ b.words.length = bits2words (sizeField inp) ∧ inp'.good = true := by
  have hreq : ∀ {c what u}, require c what = .ok u → c = true := fun hu => require_eq_ok_iff.mp hu
  unfold parse at h
  obtain ⟨_, -, h⟩ := bind_eq_ok_iff.mp h
  obtain ⟨_, -, h⟩ := bind_eq_ok_iff.mp h
  obtain ⟨⟨got, m, inp₁⟩, -, h⟩ := bind_eq_ok_iff.mp h
  dsimp only at h
  obtain ⟨_, -, h⟩ := bind_eq_ok_iff.mp h
  obtain ⟨_, -, h⟩ := bind_eq_ok_iff.mp h
  obtain ⟨_, -, h⟩ := bind_eq_ok_iff.mp h
  obtain ⟨_, -, h⟩ := bind_eq_ok_iff.mp h
  obtain ⟨_, -, h⟩ := bind_eq_ok_iff.mp h
  obtain ⟨_, -, h⟩ := bind_eq_ok_iff.mp h
  obtain ⟨_, -, h⟩ := bind_eq_ok_iff.mp h
  obtain ⟨_, -, h⟩ := bind_eq_ok_iff.mp h
  obtain ⟨_, -, h⟩ := bind_eq_ok_iff.mp h
  obtain ⟨⟨got', hash, inp₂⟩, hhash, h⟩ := bind_eq_ok_iff.mp h
  dsimp only at h
  obtain ⟨_, hgot, h⟩ := bind_eq_ok_iff.mp h
  obtain ⟨_, -, h⟩ := bind_eq_ok_iff.mp h
  have hgot' := hreq hgot
  cases h
  rw [hgot'] at hhash
  exact ⟨rfl, wordsOf_length _ _, sgetString_good hhash⟩

/-- What is written is read back, whatever stands behind it. -/
theorem parse_put (hsz : b.szbits < 2 ^ 64) (hwords : b.words.length = bits2words b.szbits) (rest : Bytes) :
    parse (.of (b.put ++ rest)) = .ok (b, .of rest) := by
  have hle := bits2words_le b.szbits
  have hmod : (2 : ℕ) ^ 64 = sizeMod := rfl
  have hdata := b.databytes_length
  -- The text as the stream comes to it.
  obtain ⟨T₃, hT₃⟩ : ∃ T, T = netstring (hexdigest b.databytes) ++ rest := ⟨_, rfl⟩
  obtain ⟨T₂, hT₂⟩ : ∃ T, T = decimal b.databytes.length ++ ch ':' :: (b.databytes ++ ch ',' :: T₃) := ⟨_, rfl⟩
  obtain ⟨T₁, hT₁⟩ : ∃ T, T = netstring (leBytes 8 magic) ++ T₂ := ⟨_, rfl⟩
  have htext : b.put ++ rest = decimal b.szbits ++ ch ' ' :: T₁ := by
    rw [hT₁, hT₂, hT₃, put, netstring_eq b.databytes]
    simp only [List.append_assoc, List.cons_append, List.nil_append]
  have hsize : (IStream.of (b.put ++ rest)).getUnsigned 64 = (some b.szbits, .of (ch ' ' :: T₁)) := by
    rw [htext, IStream.getUnsigned_decimal hsz (by decide)]
  have hws : (IStream.of (ch ' ' :: T₁)).ws = .of T₁ := by
    obtain ⟨d, hd, l, hl⟩ := netstring_cons (leBytes 8 magic)
    rw [IStream.ws_of_space, hT₁, hl]
    exact IStream.ws_of_cons (IStream.isspace_digitByte hd)
  have hmagic : sgetString (.of T₁) = .ok (true, leBytes 8 magic, .of T₂) := by
    rw [hT₁]
    exact sgetString_netstring (by rw [leBytes_length]; norm_num) T₂
  have hbytes : (IStream.of T₂).getUnsigned 64
      = (some b.databytes.length, .of (ch ':' :: (b.databytes ++ ch ',' :: T₃))) := by
    rw [hT₂]
    exact IStream.getUnsigned_decimal (by omega) (by decide)
  have hcolon : (IStream.of (ch ':' :: (b.databytes ++ ch ',' :: T₃))).getChar
      = (some (ch ':'), .of (b.databytes ++ ch ',' :: T₃)) := IStream.getChar_of_cons (by decide)
  have hcomma : (IStream.of (ch ',' :: T₃)).getChar = (some (ch ','), .of T₃) :=
    IStream.getChar_of_cons (by decide)
  have hhash : sgetString (.of T₃) = .ok (true, hexdigest b.databytes, .of rest) := by
    rw [hT₃]
    exact sgetString_netstring (by rw [hexdigest_length]; norm_num) rest
  have hexp : bits2words b.szbits * 8 % sizeMod = b.databytes.length := by
    rw [hdata, hwords, Nat.mul_comm, Nat.mod_eq_of_lt (by omega)]
  have hreq : ∀ {c : Bool} {what : Bytes}, c = true → require c what = .ok () := fun h => require_eq_ok_iff.mpr h
  unfold parse
  refine bind_eq_ok_iff.mpr ⟨(), hreq rfl, ?_⟩
  rw [hsize]
  dsimp only [Option.getD_some]
  rw [hws]
  refine bind_eq_ok_iff.mpr ⟨(), hreq rfl, ?_⟩
  refine bind_eq_ok_iff.mpr ⟨_, hmagic, ?_⟩
  dsimp only
  refine bind_eq_ok_iff.mpr ⟨(), hreq (by rw [leBytes_length]; rfl), ?_⟩
  refine bind_eq_ok_iff.mpr ⟨(), hreq (by rw [ofLe_leBytes]; rfl), ?_⟩
  rw [hbytes]
  dsimp only [Option.getD_some]
  refine bind_eq_ok_iff.mpr ⟨(), hreq rfl, ?_⟩
  simp only [hcolon]
  refine bind_eq_ok_iff.mpr ⟨(), hreq rfl, ?_⟩
  refine bind_eq_ok_iff.mpr ⟨(), hreq (decide_eq_true trivial), ?_⟩
  refine bind_eq_ok_iff.mpr ⟨(), hreq (decide_eq_true hexp), ?_⟩
  simp only [IStream.read_of_append, hcomma]
  refine bind_eq_ok_iff.mpr ⟨(), hreq rfl, ?_⟩
  refine bind_eq_ok_iff.mpr ⟨(), hreq rfl, ?_⟩
  refine bind_eq_ok_iff.mpr ⟨(), hreq (decide_eq_true trivial), ?_⟩
  refine bind_eq_ok_iff.mpr ⟨_, hhash, ?_⟩
  dsimp only
  refine bind_eq_ok_iff.mpr ⟨(), hreq rfl, ?_⟩
  refine bind_eq_ok_iff.mpr ⟨(), hreq (decide_eq_true rfl), ?_⟩
  rw [← hwords, wordsOf_databytes]

end Bits

end Fs123
