import Fs123.Common.Bytes

/-!
# Flat memory

A block of memory is a byte string; an address is an offset into it. Functions that work in place read
with `slice` and write with `writeAt`. The lemmas are stated for memories written as a concatenation,
which is how a proof about in-place code names the regions it moves between.
-/

namespace Cxx

/-- Overwrite the bytes at `off` with `src`. -/
def writeAt (mem : Bytes) (off : ℕ) (src : Bytes) : Bytes :=
  mem.take off ++ src ++ mem.drop (off + src.length)

/-- A block of zero bytes. -/
def zeros (n : ℕ) : Bytes := List.replicate n 0

@[simp] theorem zeros_length (n : ℕ) : (zeros n).length = n := List.length_replicate

theorem zeros_append (m n : ℕ) : zeros m ++ zeros n = zeros (m + n) :=
  List.replicate_append_replicate

theorem zeros_drop (m n : ℕ) : (zeros m).drop n = zeros (m - n) := List.drop_replicate

/-- Writing over the middle region. -/
theorem writeAt_append_mid (a b c src : Bytes) {off : ℕ} (hoff : off = a.length)
    (hsrc : src.length = b.length) : writeAt (a ++ b ++ c) off src = a ++ src ++ c := by
  subst hoff
  rw [writeAt, hsrc, List.append_assoc a b c, List.take_left, ← List.append_assoc a b c,
    ← List.length_append, List.drop_left]

/-- A write inside the block keeps its length. -/
theorem writeAt_length {mem src : Bytes} {off : ℕ} (h : off + src.length ≤ mem.length) :
    (writeAt mem off src).length = mem.length := by
  simp only [writeAt, List.length_append, List.length_take, List.length_drop]
  omega

/-- A write inside the block leaves the other bytes as they are. -/
theorem getElem?_writeAt {mem src : Bytes} {off i : ℕ} (h : off + src.length ≤ mem.length)
    (hi : i < off ∨ off + src.length ≤ i) : (writeAt mem off src)[i]? = mem[i]? := by
  have htake : (mem.take off).length = off := List.length_take_of_le (by omega)
  unfold writeAt
  rcases hi with hi | hi
  · rw [List.append_assoc, List.getElem?_append_left (by omega), List.getElem?_take_of_lt hi]
  · rw [List.getElem?_append_right (by rw [List.length_append]; omega), List.getElem?_drop, List.length_append, htake]
    congr 1
    omega

/-- Reading back what was written. -/
theorem slice_writeAt_self {mem src : Bytes} {off : ℕ} (h : off ≤ mem.length) :
    slice (writeAt mem off src) off src.length = src := by
  unfold writeAt
  exact slice_append_mid _ _ _ (by rw [List.length_take, Nat.min_eq_left h]) rfl

/-- A first part and the slice after it. -/
theorem take_append_slice (mem : Bytes) {i n j : ℕ} (h : i + n = j) :
    mem.take i ++ slice mem i n = mem.take j := by
  rw [slice, ← List.take_add, h]

end Cxx
