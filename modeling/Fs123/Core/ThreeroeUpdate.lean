import Fs123.Common.Blocks
import Fs123.Common.Memory
import Fs123.Core.Threeroe
import Mathlib.Data.List.GetD

/-!
# The threeroe hash in pieces

The model of `threeroe::update` and of what it is made of: `catchup` fills up a block that an earlier piece has
begun, `bulk` mixes full blocks straight from the piece, and `defer` keeps the rest for later. `updates_absorbed`
says what the object holds then, and `threeroe_in_pieces` that the hash is that of the whole text.
-/

namespace Fs123

open Cxx Blocks

/-! ## The object -/

/-- The members of `threeroe`. `deferred` is the memory of the four words, of which the first `bytesDeferred`
bytes are in use. -/
structure Threeroe where
  state : ThreeroeState
  deferred : Bytes
  bytesDeferred : ℕ
  len : UInt64
  deriving Repr, DecidableEq

/-- `CHARS_PER_INBLK`, and `sizeof(deferred)`. -/
def charsPerInblk : ℕ := 32

/-- The `state` of the constructor. -/
def threeroeSeeds (seed1 seed2 : UInt64) : ThreeroeState := ⟨seed1, 0x3243F6A8885A308D, seed2, 0⟩

/-- The first loop of `bulk`, which mixes eight blocks at a time. -/
def bulkUnrolled (s : ThreeroeState) (data : Bytes) : ThreeroeState × Bytes :=
  if 8 * charsPerInblk ≤ data.length then
    bulkUnrolled (mixblocks 8 data s) (data.drop (8 * charsPerInblk))
  else (s, data)
termination_by data.length
decreasing_by
  rw [List.length_drop, charsPerInblk] at *
  omega

/-- The second loop of `bulk`. -/
def bulkSingle (s : ThreeroeState) (data : Bytes) : ThreeroeState × Bytes :=
  if charsPerInblk ≤ data.length then
    bulkSingle (mixoneblock (data.take charsPerInblk) s) (data.drop charsPerInblk)
  else (s, data)
termination_by data.length
decreasing_by
  rw [List.length_drop, charsPerInblk] at *
  omega

namespace Threeroe

/-- `threeroe(seed1, seed2)`. The memory of `deferred` is not initialised. -/
def ofSeeds (memory : Fin 32 → UInt8) (seed1 seed2 : UInt64) : Threeroe :=
  ⟨threeroeSeeds seed1 seed2, List.ofFn memory, 0, 0⟩

variable (t : Threeroe)

/-- `defer(b, e)`. There is no result when its assertion fails. -/
def defer (data : Bytes) : Option Threeroe :=
  if data.length < charsPerInblk - t.bytesDeferred then
    some { t with
      deferred := writeAt t.deferred t.bytesDeferred data
      bytesDeferred := t.bytesDeferred + data.length }
  else none

/-- `catchup(b, e)`, with what it leaves of the range. -/
def catchup (data : Bytes) : Option (Threeroe × Bytes) :=
  if t.bytesDeferred ≠ 0 then
    let ncpy := charsPerInblk - t.bytesDeferred
    if ncpy ≤ data.length then
      let deferred := writeAt t.deferred t.bytesDeferred (data.take ncpy)
      some ({ t with state := mixoneblock deferred t.state, deferred, bytesDeferred := 0 }, data.drop ncpy)
    else (t.defer data).map fun t => (t, [])
  else some (t, data)

/-- `bulk(b, e)`, with what it leaves of the range. -/
def bulk (data : Bytes) : Threeroe × Bytes :=
  let (state, data) := bulkUnrolled t.state data
  let (state, data) := bulkSingle state data
  ({ t with state }, data)

/-- `update(data, n)`. -/
def update (data : Bytes) : Option Threeroe :=
  if 0 < data.length then do
    let (t, cdata) ← t.catchup data
    let (t, cdata) := if charsPerInblk ≤ cdata.length then t.bulk cdata else (t, cdata)
    let t ← t.defer cdata
    some { t with len := t.len + UInt64.ofNat data.length }
  else some t

/-- `finish()`, and `hashpair64()`. -/
def hashpair64 : UInt64 × UInt64 :=
  let s := if t.bytesDeferred ≠ 0 then
      mixoneblock (writeAt (zeros charsPerInblk) 0 (slice t.deferred 0 t.bytesDeferred)) t.state
    else t.state
  threeroeFinish s t.len

/-- `hash64()`. -/
def hash64 : UInt64 := t.hashpair64.1

/-- `hexdigest()`. -/
def hexdigest : Bytes := hexWord t.hashpair64.1 ++ hexWord t.hashpair64.2

/-- `threeroe(data, n, seed1, seed2)`. -/
def ofData (memory : Fin 32 → UInt8) (data : Bytes) (seed1 seed2 : UInt64) : Option Threeroe :=
  (ofSeeds memory seed1 seed2).update data

end Threeroe

/-- What is called on the object. -/
inductive ThreeroeCall where
  | update (data : Bytes)
  | hashpair64
  deriving Repr, DecidableEq

namespace ThreeroeCall

/-- The bytes of a call. -/
def data : ThreeroeCall → Bytes
  | .update data => data
  | .hashpair64 => []

/-- A sequence of calls, with the hashes that they return. -/
def run : List ThreeroeCall → Threeroe → Option (Threeroe × List (UInt64 × UInt64))
  | [], t => some (t, [])
  | .update data :: calls, t => do run calls (← t.update data)
  | .hashpair64 :: calls, t => (run calls t).map fun r => (r.1, t.hashpair64 :: r.2)

/-- The hashes that a sequence of calls should return, `text` being what has been hashed before. -/
def hashes (seed1 seed2 : UInt64) : List ThreeroeCall → Bytes → List (UInt64 × UInt64)
  | [], _ => []
  | .update data :: calls, text => hashes seed1 seed2 calls (text ++ data)
  | .hashpair64 :: calls, text => threeroe text seed1 seed2 :: hashes seed1 seed2 calls text

end ThreeroeCall

/-! ## Blocks -/

theorem mixblocks_eq_fold (n : ℕ) (data : Bytes) (s : ThreeroeState) :
    mixblocks n data s = fold charsPerInblk mixoneblock n data s := by
  induction n generalizing data s with
  | zero => rfl
  | succ n ih => exact ih (data.drop 32) (mixoneblock (data.take 32) s)

theorem bulkSingle_eq (s : ThreeroeState) (data : Bytes) :
    bulkSingle s data = (full charsPerInblk mixoneblock data s, rest charsPerInblk data) := by
  induction s, data using bulkSingle.induct with
  | case1 s data h ih =>
    obtain ⟨hstate, hrest⟩ := full_drop (n := 1) (f := mixoneblock) (b := charsPerInblk) (by decide)
      (by rwa [Nat.one_mul]) s
    rw [bulkSingle, if_pos h, ih, hstate, hrest, Nat.one_mul]
    rfl
  | case2 s data h =>
    obtain ⟨hfull, hall⟩ := full_of_lt (f := mixoneblock) (not_le.mp h) s
    rw [bulkSingle, if_neg h, hfull, hall]

/-- Both loops together mix all full blocks. -/
theorem bulkSingle_bulkUnrolled (s : ThreeroeState) (data : Bytes) :
    bulkSingle (bulkUnrolled s data).1 (bulkUnrolled s data).2
      = (full charsPerInblk mixoneblock data s, rest charsPerInblk data) := by
  induction s, data using bulkUnrolled.induct with
  | case1 s data h ih =>
    obtain ⟨hstate, hrest⟩ := full_drop (n := 8) (f := mixoneblock) (by decide) h s
    rw [bulkUnrolled, if_pos h, ih, hstate, hrest, mixblocks_eq_fold]
  | case2 s data h => rw [bulkUnrolled, if_neg h, bulkSingle_eq]

namespace Threeroe

variable {t t' : Threeroe} {s₀ : ThreeroeState} {text data : Bytes}

/-- The object has taken in a text: full blocks are mixed in, the rest is deferred. -/
structure Holds (t : Threeroe) (s₀ : ThreeroeState) (text : Bytes) : Prop where
  memory : t.deferred.length = charsPerInblk
  used : t.bytesDeferred < charsPerInblk
  absorbed : Absorbed charsPerInblk mixoneblock s₀ t.state (t.deferred.take t.bytesDeferred) text

theorem Holds.deferred_length (h : t.Holds s₀ text) : (t.deferred.take t.bytesDeferred).length = t.bytesDeferred := by
  have hused := h.used
  rw [List.length_take, h.memory]
  omega

/-- What is written behind the bytes in use. -/
theorem take_writeAt {mem src : Bytes} {off : ℕ} (h : off ≤ mem.length) :
    (writeAt mem off src).take (off + src.length) = mem.take off ++ src := by
  rw [writeAt, List.take_left']
  rw [List.length_append, List.length_take, Nat.min_eq_left h]

/-- What is neither mixed in nor deferred yet is deferred. -/
theorem defer_absorbed (hmem : t.deferred.length = charsPerInblk)
    (hlt : t.bytesDeferred + data.length < charsPerInblk)
    (h : Absorbed charsPerInblk mixoneblock s₀ t.state (t.deferred.take t.bytesDeferred ++ data) text) :
    ∃ t', t.defer data = some t' ∧ t'.len = t.len ∧ t'.Holds s₀ text := by
  have hfits : t.bytesDeferred + data.length ≤ t.deferred.length := hmem ▸ hlt.le
  refine ⟨_, if_pos (by omega), rfl, ⟨(writeAt_length hfits).trans hmem, hlt, ?_⟩⟩
  rwa [take_writeAt (by omega)]

theorem Holds.defer (h : t.Holds s₀ text) (hlt : t.bytesDeferred + data.length < charsPerInblk) :
    ∃ t', t.defer data = some t' ∧ t'.len = t.len ∧ t'.Holds s₀ (text ++ data) := by
  refine defer_absorbed h.memory hlt (h.absorbed.keep (by decide) ?_)
  rwa [List.length_append, h.deferred_length]

/-- `catchup` leaves nothing, or it leaves nothing deferred. -/
theorem Holds.catchup (h : t.Holds s₀ text) (data : Bytes) :
    ∃ t' front back, t.catchup data = some (t', back) ∧ data = front ++ back ∧ t'.len = t.len
      ∧ t'.Holds s₀ (text ++ front) ∧ (back = [] ∨ t'.bytesDeferred = 0) := by
  have hused := h.used
  unfold Threeroe.catchup
  by_cases hzero : t.bytesDeferred = 0
  · exact ⟨t, [], data, if_neg (not_not.mpr hzero), rfl, rfl, by rwa [List.append_nil], Or.inr hzero⟩
  rw [if_pos hzero]
  dsimp only
  by_cases hfull : charsPerInblk - t.bytesDeferred ≤ data.length
  · -- The block is filled up.
    have hlen : (data.take (charsPerInblk - t.bytesDeferred)).length = charsPerInblk - t.bytesDeferred :=
      List.length_take_of_le hfull
    have hblock : writeAt t.deferred t.bytesDeferred (data.take (charsPerInblk - t.bytesDeferred))
        = t.deferred.take t.bytesDeferred ++ data.take (charsPerInblk - t.bytesDeferred) := by
      rw [writeAt, hlen, List.drop_eq_nil_of_le (by rw [h.memory]; omega), List.append_nil]
    refine ⟨_, _, _, if_pos hfull, (List.take_append_drop _ data).symm, rfl, ⟨?_, Nat.succ_pos 31, ?_⟩, Or.inr rfl⟩
    · rw [hblock, List.length_append, h.deferred_length, hlen]
      omega
    · rw [hblock, List.take_zero]
      refine h.absorbed.fill (by decide) ?_
      rw [List.length_append, h.deferred_length, hlen]
      omega
  · have hshort : t.bytesDeferred + data.length < charsPerInblk := by omega
    obtain ⟨t', heq, hlen, hholds⟩ := h.defer hshort
    exact ⟨t', data, [], by rw [if_neg hfull, heq]; rfl, (List.append_nil data).symm, hlen, hholds, Or.inl rfl⟩

theorem bulk_eq (t : Threeroe) (data : Bytes) :
    t.bulk data = ({ t with state := full charsPerInblk mixoneblock data t.state }, rest charsPerInblk data) := by
  have hboth := bulkSingle_bulkUnrolled t.state data
  unfold Threeroe.bulk
  rcases hunrolled : bulkUnrolled t.state data with ⟨s, data'⟩
  rw [hunrolled] at hboth
  dsimp only at hboth ⊢
  rw [hboth]

/-- Whatever the piece is, the object holds the longer text. -/
theorem Holds.update (h : t.Holds s₀ text) (data : Bytes) :
    ∃ t', t.update data = some t' ∧ t'.len = t.len + UInt64.ofNat data.length ∧ t'.Holds s₀ (text ++ data) := by
  unfold Threeroe.update
  by_cases hpos : 0 < data.length
  · rw [if_pos hpos]
    obtain ⟨t₁, front, back, hcatchup, rfl, hlen, hholds, hback⟩ := h.catchup data
    rw [hcatchup]
    dsimp only [Option.bind_eq_bind, Option.bind_some]
    rw [← List.append_assoc, List.length_append]
    by_cases hlong : charsPerInblk ≤ back.length
    · -- The full blocks of the rest are mixed in.
      have hnone : t₁.bytesDeferred = 0 := by
        refine hback.resolve_left ?_
        rintro rfl
        exact absurd hlong (by decide)
      have habsorbed := hholds.absorbed
      rw [hnone, List.take_zero] at habsorbed
      have hblocks : Absorbed charsPerInblk mixoneblock s₀ (full charsPerInblk mixoneblock back t₁.state)
          (rest charsPerInblk back) (text ++ front ++ back) := habsorbed.append_blocks (by decide)
      have hrest : (rest charsPerInblk back).length < charsPerInblk := by
        rw [rest_length]
        exact Nat.mod_lt _ (by decide)
      rw [if_pos hlong, bulk_eq]
      obtain ⟨t₂, hdefer, hlen₂, hholds₂⟩ := defer_absorbed
        (t := { t₁ with state := full charsPerInblk mixoneblock back t₁.state }) hholds.memory
        (by rwa [hnone, Nat.zero_add])
        (by rw [hnone, List.take_zero]; exact hblocks)
      dsimp only
      rw [hdefer]
      refine ⟨_, rfl, ?_, ⟨hholds₂.memory, hholds₂.used, hholds₂.absorbed⟩⟩
      rw [hlen₂, ← hlen]
    · have hshort : t₁.bytesDeferred + back.length < charsPerInblk := by
        rcases hback with rfl | hnone
        · exact hholds.used
        · omega
      rw [if_neg hlong]
      obtain ⟨t₂, hdefer, hlen₂, hholds₂⟩ := hholds.defer hshort
      dsimp only
      rw [hdefer]
      refine ⟨_, rfl, ?_, ⟨hholds₂.memory, hholds₂.used, hholds₂.absorbed⟩⟩
      rw [hlen₂, ← hlen]
  · have hnil : data = [] := List.length_eq_zero_iff.mp (by omega)
    subst hnil
    exact ⟨t, if_neg hpos, (UInt64.add_zero _).symm, by rwa [List.append_nil]⟩

/-! ## The hash -/

/-- Zeros behind the data do not change a block. -/
theorem letonative_zeros (data : Bytes) (k i : ℕ) : letonative (data ++ zeros k) i = letonative data i := by
  have hbyte : ∀ j, (data ++ zeros k).getD j 0 = data.getD j 0 := by
    intro j
    by_cases hj : j < data.length
    · exact List.getD_append data (zeros k) 0 j hj
    · rw [List.getD_append_right data (zeros k) 0 j (not_lt.mp hj), List.getD_eq_default data 0 (not_lt.mp hj),
        List.getD_eq_getElem?_getD]
      exact List.getElem?_getD_replicate_default_eq _ k _
  unfold letonative
  simp only [hbyte]

theorem mixoneblock_zeros (data : Bytes) (k : ℕ) (s : ThreeroeState) :
    mixoneblock (data ++ zeros k) s = mixoneblock data s := by
  unfold mixoneblock
  simp only [letonative_zeros]

variable {seed1 seed2 : UInt64}

theorem Holds.hashpair64 (h : t.Holds (threeroeSeeds seed1 seed2) text) (hlen : t.len = UInt64.ofNat text.length) :
    t.hashpair64 = threeroe text seed1 seed2 := by
  have hused := h.used
  have hkept := h.deferred_length
  have hmod := h.absorbed.kept_length
  have hstate := h.absorbed.state
  have hrest := h.absorbed.kept
  rw [hkept] at hmod
  unfold Threeroe.hashpair64 threeroe
  rw [hlen, mixblocks_eq_fold]
  unfold charsPerInblk at *
  by_cases hzero : t.bytesDeferred = 0
  · have hblocks : (text.length + 31) / 32 = text.length / 32 := by omega
    rw [if_neg (not_not.mpr hzero), hblocks, hstate]
    rfl
  · have hblocks : (text.length + 31) / 32 = text.length / 32 + 1 := by omega
    have hpadded : writeAt (zeros 32) 0 (slice t.deferred 0 t.bytesDeferred)
        = rest 32 text ++ zeros (32 - t.bytesDeferred) := by
      have hslice : slice t.deferred 0 t.bytesDeferred = t.deferred.take t.bytesDeferred := rfl
      rw [hslice, writeAt, hkept, List.take_zero, List.nil_append, Nat.zero_add, zeros_drop, hrest]
    have hlast : fold 32 mixoneblock 1 (text.drop (text.length / 32 * 32)) t.state
        = mixoneblock (rest 32 text) t.state := by
      have hshort : (text.drop (text.length / 32 * 32)).length ≤ 32 := by
        rw [List.length_drop]
        omega
      rw [fold, fold, List.take_of_length_le hshort]
      rfl
    have hfull : fold 32 mixoneblock (text.length / 32) text (threeroeSeeds seed1 seed2) = t.state := hstate.symm
    rw [if_pos hzero, hpadded, mixoneblock_zeros, hblocks, fold_add, ← hlast, ← hfull]
    rfl

/-- A new object holds nothing. -/
theorem ofSeeds_holds (memory : Fin 32 → UInt8) (seed1 seed2 : UInt64) :
    (ofSeeds memory seed1 seed2).Holds (threeroeSeeds seed1 seed2) [] where
  memory := List.length_ofFn
  used := Nat.succ_pos 31
  absorbed := Absorbed.nil

end Threeroe

namespace ThreeroeCall

open Threeroe

variable {seed1 seed2 : UInt64}

/-- Every call succeeds, and every hash is that of the text so far. -/
theorem run_holds (calls : List ThreeroeCall) {t : Threeroe} {text : Bytes}
    (h : t.Holds (threeroeSeeds seed1 seed2) text) (hlen : t.len = UInt64.ofNat text.length) :
    ∃ t', run calls t = some (t', hashes seed1 seed2 calls text)
      ∧ t'.Holds (threeroeSeeds seed1 seed2) (text ++ calls.flatMap data)
      ∧ t'.len = UInt64.ofNat (text ++ calls.flatMap data).length := by
  induction calls generalizing t text with
  | nil => exact ⟨t, rfl, by simpa using h, by simpa using hlen⟩
  | cons call calls ih =>
    cases call with
    | update data =>
      obtain ⟨t₁, hupdate, hlen₁, hholds⟩ := h.update data
      have hlen' : t₁.len = UInt64.ofNat (text ++ data).length := by
        rw [hlen₁, hlen, List.length_append, UInt64.ofNat_add]
      obtain ⟨t', hrun, hholds', hlen''⟩ := ih hholds hlen'
      refine ⟨t', ?_, ?_, ?_⟩
      · rw [run, hupdate]
        exact hrun
      · simpa [ThreeroeCall.data] using hholds'
      · simpa [ThreeroeCall.data] using hlen''
    | hashpair64 =>
      obtain ⟨t', hrun, hholds', hlen'⟩ := ih h hlen
      refine ⟨t', ?_, hholds', hlen'⟩
      rw [run, hrun, h.hashpair64 hlen]
      rfl

end ThreeroeCall

/-- However a text is cut into pieces, and whenever the hash is asked for in between, the hash is that of an
object that is constructed with the whole text. -/
theorem threeroe_in_pieces (memory memory' : Fin 32 → UInt8) (seed1 seed2 : UInt64) (calls : List ThreeroeCall) :
    ∃ t whole, ThreeroeCall.run calls (Threeroe.ofSeeds memory seed1 seed2)
        = some (t, ThreeroeCall.hashes seed1 seed2 calls [])
      ∧ Threeroe.ofData memory' (calls.flatMap ThreeroeCall.data) seed1 seed2 = some whole
      ∧ t.hashpair64 = whole.hashpair64 ∧ t.hash64 = whole.hash64 ∧ t.hexdigest = whole.hexdigest
      ∧ whole.hashpair64 = threeroe (calls.flatMap ThreeroeCall.data) seed1 seed2 := by
  obtain ⟨t, hrun, hholds, hlen⟩ := ThreeroeCall.run_holds calls (Threeroe.ofSeeds_holds memory seed1 seed2) rfl
  obtain ⟨whole, hwhole, hlen', hholds'⟩ :=
    (Threeroe.ofSeeds_holds memory' seed1 seed2).update (calls.flatMap ThreeroeCall.data)
  rw [List.nil_append] at hholds hlen hholds'
  have hpair := hholds.hashpair64 hlen
  have hpair' := hholds'.hashpair64 (hlen'.trans (UInt64.zero_add _))
  have hsame : t.hashpair64 = whole.hashpair64 := hpair.trans hpair'.symm
  refine ⟨t, whole, hrun, hwhole, hsame, ?_, ?_, hpair'⟩
  · rw [Threeroe.hash64, Threeroe.hash64, hsame]
  · rw [Threeroe.hexdigest, Threeroe.hexdigest, hsame]

end Fs123
