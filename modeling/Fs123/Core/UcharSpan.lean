import Fs123.Common.Memory
import Fs123.Core.Exn

/-!
# Padded spans

The model of `core123/uchar_span.hpp`. A `PaddedUcharSpan` is a window into a memory block together with
the bounding box it may grow in; addresses are offsets into the block. The arithmetic of `subspan` is
that of the source: `avail_front() + offset + count` is a `size_t` sum and wraps.

`Wf` says that the window lies in its box and the box in a block of an addressable size. For spans that
satisfy it, and for counts that an object can have, `subspan` does what its documentation says
(`subspan_eq_ok`).
-/

namespace Fs123

open Cxx

/-- `padded_uchar_span`: the span and its bounding box `bb`. -/
structure PaddedUcharSpan where
  data : ℕ
  size : ℕ
  bbData : ℕ
  bbSize : ℕ
  deriving Repr, DecidableEq

/-- `tcb::dynamic_extent`. -/
def dynamicExtent : ℕ := npos

namespace PaddedUcharSpan

/-- The constructor from a `uchar_span` at `bbData`, an offset and a count. -/
def ofSpan (bbData bbSize offset count : ℕ) : Res PaddedUcharSpan :=
  if bbSize < offset then
    throwE .outOfRange (bytes "padded_uchar_span::ctor offset exceeds size()")
  else if count ≠ dynamicExtent ∧ bbSize < addW offset count then
    throwE .outOfRange (bytes "padded_uchar_span::ctor offset+count exceeds size()")
  else
    .ok ⟨bbData + offset, if count = dynamicExtent then bbSize - offset else count, bbData, bbSize⟩

/-- `bounding_box()`. -/
def boundingBox (s : PaddedUcharSpan) : PaddedUcharSpan := ⟨s.bbData, s.bbSize, s.bbData, s.bbSize⟩

/-- `avail_front()`. -/
def availFront (s : PaddedUcharSpan) : ℕ := s.data - s.bbData

/-- `avail_back()`. -/
def availBack (s : PaddedUcharSpan) : ℕ := subW (subW s.bbSize s.availFront) s.size

/-- `subspan(offset, count)`. -/
def subspan (s : PaddedUcharSpan) (offset : ℤ) (count : ℕ) : Res PaddedUcharSpan :=
  if offset < - toSsize s.availFront then
    throwE .outOfRange (bytes "padded_uchar_span::subspan seeking too much space in front")
  else if (s.bbSize : ℤ) < (s.availFront + offset + count) % sizeMod then
    throwE .outOfRange (bytes "padded_uchar_span::subspan seeking too much space at back")
  else .ok { s with data := (s.data + offset).toNat, size := count }

/-- A result of `ssize_t` arithmetic. -/
def ssize (z : ℤ) : Res ℤ := if -2 ^ 63 ≤ z ∧ z < 2 ^ 63 then .ok z else .error .oob

/-- `first(count)`. -/
def first (s : PaddedUcharSpan) (count : ℕ) : Res PaddedUcharSpan := s.subspan 0 count

/-- `last(count)`. -/
def last (s : PaddedUcharSpan) (count : ℕ) : Res PaddedUcharSpan := do
  let offset ← ssize (toSsize s.size - toSsize count)
  s.subspan offset count

/-- `grow_front(count)`. -/
def growFront (s : PaddedUcharSpan) (count : ℕ) : Res PaddedUcharSpan := do
  let offset ← ssize (- toSsize count)
  s.subspan offset (addW count s.size)

/-- `grow_back(count)`. -/
def growBack (s : PaddedUcharSpan) (count : ℕ) : Res PaddedUcharSpan :=
  s.subspan 0 (addW count s.size)

/-- `prepend(more)`, on the memory block that the span points into. -/
def prepend (s : PaddedUcharSpan) (more mem : Bytes) : Res (PaddedUcharSpan × Bytes) := do
  let ret ← s.growFront more.length
  .ok (ret, writeAt mem ret.data more)

/-- `append(more)`, on the memory block that the span points into. -/
def append (s : PaddedUcharSpan) (more mem : Bytes) : Res (PaddedUcharSpan × Bytes) := do
  let ret ← s.growBack more.length
  .ok (ret, writeAt mem (s.data + s.size) more)

/-- The bytes of the span: `as_str_view`. -/
def bytesOf (s : PaddedUcharSpan) (mem : Bytes) : Bytes := slice mem s.data s.size

/-- `grow_front` of a count that a `ssize_t` can hold. -/
theorem growFront_eq (s : PaddedUcharSpan) {count : ℕ} (h : count < 2 ^ 63) :
    s.growFront count = s.subspan (- count) (addW count s.size) := by
  rw [growFront, toSsize_eq h, ssize, if_pos (by omega)]
  rfl

/-- The window lies in the box, the box in the block, and the block is small enough to be addressed
with signed offsets. -/
structure Wf (s : PaddedUcharSpan) (mem : Bytes) : Prop where
  front : s.bbData ≤ s.data
  back : s.data + s.size ≤ s.bbData + s.bbSize
  box : s.bbData + s.bbSize ≤ mem.length
  small : mem.length < 2 ^ 63

theorem Wf.availBack_eq {s : PaddedUcharSpan} {mem : Bytes} (h : s.Wf mem) :
    s.availBack = s.bbData + s.bbSize - (s.data + s.size) := by
  obtain ⟨hf, hb, hbox, hsmall⟩ := h
  have h63 : 2 ^ 63 < sizeMod := by decide
  have hfront : subW s.bbSize (s.data - s.bbData) = s.bbSize - (s.data - s.bbData) :=
    subW_eq (by omega) (by omega)
  rw [availBack, availFront, hfront, subW_eq (by omega) (by omega)]
  omega

/-- The room in front, the span and the room behind it make up the box. -/
theorem Wf.avail_sum {s : PaddedUcharSpan} {mem : Bytes} (h : s.Wf mem) :
    s.availFront + s.size + s.availBack = s.bbSize := by
  have hf := h.front
  have hb := h.back
  rw [h.availBack_eq, availFront]
  omega

/-- `subspan` with an offset and a count that fit the box. -/
theorem Wf.subspan_eq_ok {s : PaddedUcharSpan} {mem : Bytes} (h : s.Wf mem) {offset : ℤ} {count : ℕ}
    (hlo : (s.bbData : ℤ) ≤ s.data + offset)
    (hhi : (s.data : ℤ) + offset + count ≤ s.bbData + s.bbSize) :
    s.subspan offset count = .ok { s with data := (s.data + offset).toNat, size := count } := by
  obtain ⟨hf, hb, hbox, hsmall⟩ := h
  have h63 : (2 : ℕ) ^ 63 < sizeMod := by decide
  have hsum : ((s.availFront : ℤ) + offset + count) % sizeMod = s.availFront + offset + count := by
    apply Int.emod_eq_of_lt
    · unfold availFront
      omega
    · unfold availFront
      omega
  unfold subspan
  rw [if_neg, if_neg]
  · rw [hsum, availFront]
    omega
  · rw [toSsize_eq (by unfold availFront; omega), availFront]
    omega

/-- `subspan` for an offset and a count of addressable size throws when the result leaves the box. -/
theorem Wf.subspan_throws {s : PaddedUcharSpan} {mem : Bytes} (h : s.Wf mem) {offset : ℤ} {count : ℕ}
    (hoff : offset < 2 ^ 62) (hcount : count < 2 ^ 62)
    (hout : s.data + offset < s.bbData ∨ (s.bbData : ℤ) + s.bbSize < s.data + offset + count) :
    Throws (s.subspan offset count) := by
  obtain ⟨hf, hb, hbox, hsmall⟩ := h
  have h63 : (2 : ℕ) ^ 63 < sizeMod := by decide
  unfold subspan
  split
  · simp
  · next hfront =>
    rw [toSsize_eq (by unfold availFront; omega), availFront] at hfront
    have hsum : ((s.availFront : ℤ) + offset + count) % sizeMod
        = s.availFront + offset + count := by
      apply Int.emod_eq_of_lt
      · unfold availFront
        omega
      · have : ((2 : ℕ) ^ 64 : ℤ) = sizeMod := by norm_num [sizeMod]
        unfold availFront
        omega
    rw [if_pos]
    · simp
    · rw [hsum, availFront]
      omega

end PaddedUcharSpan

end Fs123
