import Fs123.Common.Bytes

/-!
# The threeroe hash

The model of `core123/threeroe.hpp`: blocks of 32 bytes are mixed into four 64-bit words, the last block
padded with zeros, and `finish` mixes the words and the length into two. The hash is not cryptographic;
nothing here depends on its quality, only on the texts and numbers that are made of it.
-/

namespace Fs123

open Cxx

/-- `rotl(x, s)`. -/
def rotl (x s : UInt64) : UInt64 := (x <<< s) ||| (x >>> (64 - s))

/-- The little-endian word at `8 * i`, with zeros past the end. -/
def letonative (data : Bytes) (i : ℕ) : UInt64 :=
  (List.range 8).foldr (fun j w => w * 256 + (data.getD (8 * i + j) 0).toUInt64) 0

/-- The four words of `state`. -/
structure ThreeroeState where
  s0 : UInt64
  s1 : UInt64
  s2 : UInt64
  s3 : UInt64
  deriving Repr, DecidableEq

/-- `mixoneblock(data, s)`. -/
def mixoneblock (data : Bytes) (s : ThreeroeState) : ThreeroeState :=
  let k0 := letonative data 0
  let k1 := letonative data 1
  let k2 := letonative data 2
  let k3 := letonative data 3
  let k4 := rotl k3 23
  let k5 := rotl k2 52
  let k6 := rotl k1 40
  let k7 := rotl k0 57
  let s1 := s.s1 + k1
  let s0 := s.s0 + k0 + s1
  let s1 := rotl s1 14 ^^^ s0
  let s3 := s.s3 + k3
  let s2 := s.s2 + k2 + s3
  let s3 := rotl s3 16 ^^^ s2
  let s0 := s0 + k4
  let s1 := s1 + k5
  let s2 := s2 + k6
  let s3 := s3 + k7
  ⟨s0, s1 ^^^ s2, s2, s3 ^^^ s0⟩

/-- Mix `n` blocks of the data in; the bytes after the last full block are a block of their own. -/
def mixblocks : ℕ → Bytes → ThreeroeState → ThreeroeState
  | 0, _, s => s
  | n + 1, data, s => mixblocks n (data.drop 32) (mixoneblock (data.take 32) s)

/-- A round of Threefry2x64. -/
def threefryRound (r : UInt64) (p : UInt64 × UInt64) : UInt64 × UInt64 :=
  let s0 := p.1 + p.2
  (s0, rotl p.2 r ^^^ s0)

/-- `finish()`, after all blocks are mixed. -/
def threeroeFinish (s : ThreeroeState) (len : UInt64) : UInt64 × UInt64 :=
  let p := threefryRound 14 (s.s0 + s.s2, s.s1 + s.s3)
  let q := threefryRound 16 (s.s2, s.s3 + len)
  let p := threefryRound 42 (threefryRound 16 p)
  let p := threefryRound 31 (threefryRound 12 (p.1 + q.2, p.2 + q.1))
  let p := threefryRound 42 (threefryRound 16 (p.1 + q.1, p.2 + q.2))
  threefryRound 31 (threefryRound 12 (p.1 + q.2, p.2 + q.1))

/-- `threeroe(data, seed1, seed2).hashpair64()`. -/
def threeroe (data : Bytes) (seed1 seed2 : UInt64) : UInt64 × UInt64 :=
  threeroeFinish (mixblocks ((data.length + 31) / 32) data ⟨seed1, 0x3243F6A8885A308D, seed2, 0⟩)
    (UInt64.ofNat data.length)

/-- `threeroe(data).hash64()`. -/
def threeroeHash64 (data : Bytes) : ℕ := (threeroe data 0 0).1.toNat

/-- `hexlownibble`. -/
def hexlownibble (n : ℕ) : UInt8 := (bytes "0123456789abcdef").getD (n % 16) 0

/-- The 16 hex digits of a word. -/
def hexWord (w : UInt64) : Bytes :=
  (List.range 16).map fun i => hexlownibble (w.toNat / 16 ^ (15 - i))

/-- `threeroe(data).hexdigest()`. -/
def hexdigest (data : Bytes) : Bytes :=
  let h := threeroe data 0 0
  hexWord h.1 ++ hexWord h.2

@[simp] theorem hexdigest_length (data : Bytes) : (hexdigest data).length = 32 := by
  simp [hexdigest, hexWord]

theorem hexlownibble_mem (n : ℕ) : hexlownibble n ∈ bytes "0123456789abcdef" := by
  have h : n % 16 < 16 := Nat.mod_lt _ (by decide)
  unfold hexlownibble
  interval_cases n % 16 <;> decide

/-- A digest consists of hex digits. -/
theorem mem_hexdigest {data : Bytes} {c : UInt8} (h : c ∈ hexdigest data) :
    c ∈ bytes "0123456789abcdef" := by
  simp only [hexdigest, hexWord, List.mem_append, List.mem_map] at h
  rcases h with ⟨i, -, rfl⟩ | ⟨i, -, rfl⟩
  · exact hexlownibble_mem _
  · exact hexlownibble_mem _

theorem threeroeHash64_lt (data : Bytes) : threeroeHash64 data < 2 ^ 64 := UInt64.toNat_lt _

end Fs123
