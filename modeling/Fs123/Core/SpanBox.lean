import Fs123.Core.UcharSpan

/-!
# Padded spans stay in their boxes

The checks of `padded_uchar_span` add `size_t` and `ssize_t` values. A sum that wraps round can pass a check that the
sum of the integers fails: `Wraps` and `CtorWraps` say when. In all other cases an operation throws or its result lies
in the bounding box, and so do the bytes that it writes.
-/

namespace Fs123

open Cxx

namespace PaddedUcharSpan

/-- `subspan(offset, count)` wraps round in its check and passes it. -/
structure Wraps (s : PaddedUcharSpan) (offset : ℤ) (count : ℕ) : Prop where
  front : -(s.availFront : ℤ) ≤ offset
  wraps : (sizeMod : ℤ) ≤ s.availFront + offset + count
  passes : ((s.availFront : ℤ) + offset + count) % sizeMod ≤ s.bbSize

/-- The constructor wraps round in its check and passes it. -/
structure CtorWraps (bbSize offset count : ℕ) : Prop where
  extent : count ≠ dynamicExtent
  inside : offset ≤ bbSize
  wraps : sizeMod ≤ offset + count
  passes : addW offset count ≤ bbSize

/-- The span lies in the box, and its `avail` members are the room around it. -/
structure In (s : PaddedUcharSpan) (bbData bbSize : ℕ) : Prop where
  data_eq : s.bbData = bbData
  size_eq : s.bbSize = bbSize
  front : bbData ≤ s.data
  back : s.data + s.size ≤ bbData + bbSize
  avail : s.availFront + s.size + s.availBack = bbSize

/-- An operation throws, or its result is in the box. -/
def Contained (bbData bbSize : ℕ) (x : Res PaddedUcharSpan) : Prop :=
  Throws x ∨ ∃ s, x = .ok s ∧ s.In bbData bbSize

variable {s s' : PaddedUcharSpan} {mem mem' more : Bytes} {offset : ℤ} {bbData bbSize count : ℕ}

theorem In.wf (h : s.In bbData bbSize) (hbox : bbData + bbSize ≤ mem.length) (hsmall : mem.length < 2 ^ 63) :
    s.Wf mem := by
  obtain ⟨rfl, rfl, hfront, hback, -⟩ := h
  exact ⟨hfront, hback, hbox, hsmall⟩

theorem Wf.in_box (h : s.Wf mem) : s.In s.bbData s.bbSize := ⟨rfl, rfl, h.front, h.back, h.avail_sum⟩

theorem contained_throwE (kind : ExnKind) (what : Bytes) : Contained bbData bbSize (throwE kind what) :=
  .inl (throws_throwE kind what)

theorem contained_ok : Contained bbData bbSize (.ok s) ↔ s.In bbData bbSize := by
  constructor
  · rintro (⟨e, he⟩ | ⟨t, ht, hin⟩)
    · cases he
    · cases ht
      exact hin
  · intro h
    exact .inr ⟨s, rfl, h⟩

theorem not_contained_oob : ¬ Contained bbData bbSize (.error .oob) := by
  rintro (⟨e, he⟩ | ⟨t, ht, -⟩)
  · cases he
  · cases ht

/-! ## The checks -/

theorem ofSpan_contained_iff (hbox : bbData + bbSize ≤ mem.length) (hsmall : mem.length < 2 ^ 63) (offset count : ℕ) :
    Contained bbData bbSize (ofSpan bbData bbSize offset count) ↔ ¬ CtorWraps bbSize offset count := by
  have hmod : (2 : ℕ) ^ 63 < sizeMod := by decide
  have hin : ∀ t : PaddedUcharSpan, t.bbData = bbData → t.bbSize = bbSize → bbData ≤ t.data →
      t.data + t.size ≤ bbData + bbSize → t.In bbData bbSize := by
    rintro t rfl rfl hfront hback
    exact Wf.in_box ⟨hfront, hback, hbox, hsmall⟩
  unfold ofSpan
  split
  · next hoffset => exact iff_of_true (contained_throwE _ _) fun h => absurd h.inside (by omega)
  next hoffset =>
  split
  · next hcheck => exact iff_of_true (contained_throwE _ _) fun h => absurd h.passes (by omega)
  next hcheck =>
  rw [contained_ok]
  by_cases hextent : count = dynamicExtent
  · rw [if_pos hextent]
    refine iff_of_true (hin _ rfl rfl ?_ ?_) fun h => h.extent hextent
    · exact Nat.le_add_right _ _
    · dsimp only
      omega
  · rw [if_neg hextent]
    have hpass : addW offset count ≤ bbSize := not_lt.mp fun h => hcheck ⟨hextent, h⟩
    constructor
    · intro h hwraps
      have hback := h.back
      have := hwraps.wraps
      dsimp only at hback
      omega
    · intro h
      have hsum : offset + count < sizeMod := by
        by_contra hle
        exact h ⟨hextent, by omega, by omega, hpass⟩
      rw [addW_eq hsum] at hpass
      refine hin _ rfl rfl ?_ ?_
      · exact Nat.le_add_right _ _
      · dsimp only
        omega

/-- `subspan` does what it is for exactly when its sum does not wrap round into the box. -/
theorem Wf.subspan_contained_iff (h : s.Wf mem) (offset : ℤ) (count : ℕ) :
    Contained s.bbData s.bbSize (s.subspan offset count) ↔ ¬ s.Wraps offset count := by
  obtain ⟨hf, hb, hbox, hsmall⟩ := h
  have hmod : (2 : ℕ) ^ 63 < sizeMod := by decide
  have havail : toSsize s.availFront = s.availFront := toSsize_eq (by unfold availFront; omega)
  have hfront : (s.availFront : ℤ) = s.data - s.bbData := by
    unfold availFront
    omega
  unfold subspan
  rw [havail]
  split
  · next hlo => exact iff_of_true (contained_throwE _ _) fun hw => absurd hw.front (by omega)
  next hlo =>
  split
  · next hhi => exact iff_of_true (contained_throwE _ _) fun hw => absurd hw.passes (by omega)
  next hhi =>
  rw [contained_ok]
  constructor
  · intro hin hw
    have hback := hin.back
    have hwraps := hw.wraps
    dsimp only at hback
    omega
  · intro hnot
    have hsum : (s.availFront : ℤ) + offset + count < sizeMod := by
      by_contra hle
      exact hnot ⟨by omega, by omega, by omega⟩
    rw [Int.emod_eq_of_lt (by omega) hsum] at hhi
    refine @Wf.in_box _ mem ⟨?_, ?_, hbox, hsmall⟩
    · dsimp only
      omega
    · dsimp only
      omega

theorem subspan_eq_ok (h : s.subspan offset count = .ok s') :
    s' = { s with data := (s.data + offset).toNat, size := count } := by
  unfold subspan at h
  split at h
  · exact absurd h (throwE_ne_ok _ _ _)
  split at h
  · exact absurd h (throwE_ne_ok _ _ _)
  exact (Except.ok.inj h).symm

/-- With a signed offset that may overflow. -/
theorem Wf.ssize_subspan_contained_iff (h : s.Wf mem) (z : ℤ) (count : ℕ) :
    Contained s.bbData s.bbSize (ssize z >>= fun offset => s.subspan offset count)
      ↔ (-2 ^ 63 ≤ z ∧ z < 2 ^ 63) ∧ ¬ s.Wraps z count := by
  unfold ssize
  split
  · next hz =>
    rw [and_iff_right hz]
    exact h.subspan_contained_iff z count
  · next hz => exact iff_of_false not_contained_oob fun hand => hz hand.1

end PaddedUcharSpan

open PaddedUcharSpan

/-! ## The operations -/

/-- The operations on a span. No array has `2^63` bytes. -/
inductive SpanOp where
  | subspan (offset : ℤ) (count : ℕ)
  | first (count : ℕ)
  | last (count : ℕ)
  | growFront (count : ℕ)
  | growBack (count : ℕ)
  | prepend (more : Bytes) (h : more.length < 2 ^ 63)
  | append (more : Bytes) (h : more.length < 2 ^ 63)
  | boundingBox

namespace SpanOp

/-- The result of an operation, with the memory block afterwards. -/
def apply (s : PaddedUcharSpan) (mem : Bytes) : SpanOp → Res (PaddedUcharSpan × Bytes)
  | .subspan offset count => (s.subspan offset count).map (·, mem)
  | .first count => (s.first count).map (·, mem)
  | .last count => (s.last count).map (·, mem)
  | .growFront count => (s.growFront count).map (·, mem)
  | .growBack count => (s.growBack count).map (·, mem)
  | .prepend more _ => s.prepend more mem
  | .append more _ => s.append more mem
  | .boundingBox => .ok (s.boundingBox, mem)

/-- The arithmetic of the operation overflows: in a signed number, or in the check so that it passes. -/
def Overflows (s : PaddedUcharSpan) : SpanOp → Prop
  | .subspan offset count => s.Wraps offset count
  | .first count => s.Wraps 0 count
  | .last count =>
    ¬ (-2 ^ 63 ≤ toSsize s.size - toSsize count ∧ toSsize s.size - toSsize count < 2 ^ 63)
      ∨ s.Wraps (toSsize s.size - toSsize count) count
  | .growFront count =>
    ¬ (-2 ^ 63 ≤ -toSsize count ∧ -toSsize count < 2 ^ 63) ∨ s.Wraps (-toSsize count) (addW count s.size)
  | .growBack count => s.Wraps 0 (addW count s.size)
  | .prepend _ _ | .append _ _ | .boundingBox => False

end SpanOp

/-- The bytes outside the box are those of `mem`. -/
structure SameOutside (bbData bbSize : ℕ) (mem m : Bytes) : Prop where
  length_eq : m.length = mem.length
  outside : ∀ i, i < bbData ∨ bbData + bbSize ≤ i → m[i]? = mem[i]?

/-- An operation throws, or its result is in the box and only bytes in the box have changed. -/
def StaysInBox (bbData bbSize : ℕ) (mem : Bytes) (x : Res (PaddedUcharSpan × Bytes)) : Prop :=
  Throws x ∨ ∃ s m, x = .ok (s, m) ∧ s.In bbData bbSize ∧ SameOutside bbData bbSize mem m

section Box

variable {s : PaddedUcharSpan} {mem more : Bytes}

theorem stays_map_iff (x : Res PaddedUcharSpan) :
    StaysInBox s.bbData s.bbSize mem (x.map (·, mem)) ↔ Contained s.bbData s.bbSize x := by
  rcases x with f | t
  · constructor
    · rintro (⟨e, he⟩ | ⟨t, m, ht, -⟩)
      · cases he
        exact .inl ⟨e, rfl⟩
      · cases ht
    · rintro (⟨e, he⟩ | ⟨t, ht, -⟩)
      · cases he
        exact .inl ⟨e, rfl⟩
      · cases ht
  · rw [contained_ok]
    constructor
    · rintro (⟨e, he⟩ | ⟨t, m, ht, hin, -⟩)
      · cases he
      · cases ht
        exact hin
    · intro hin
      exact .inr ⟨t, mem, rfl, hin, rfl, fun _ _ => rfl⟩

/-- The bytes that are written stand in the box. -/
theorem sameOutside_writeAt (h : s.Wf mem) {off : ℕ} (hlo : s.bbData ≤ off)
    (hhi : off + more.length ≤ s.bbData + s.bbSize) : SameOutside s.bbData s.bbSize mem (writeAt mem off more) := by
  have hbox := h.box
  refine ⟨writeAt_length (by omega), fun i hi => getElem?_writeAt (by omega) ?_⟩
  omega

theorem prepend_stays (h : s.Wf mem) (hmore : more.length < 2 ^ 63) :
    StaysInBox s.bbData s.bbSize mem (s.prepend more mem) := by
  have hmod : (2 : ℕ) ^ 64 = sizeMod := rfl
  obtain ⟨hf, hb, hbox, hsmall⟩ := id h
  have hgrow : Contained s.bbData s.bbSize (s.growFront more.length) := by
    rw [growFront_eq s hmore, h.subspan_contained_iff, addW_eq (by omega)]
    intro hwraps
    have hsum := hwraps.wraps
    unfold availFront at hsum
    omega
  unfold PaddedUcharSpan.prepend
  rcases hgrow with ⟨e, he⟩ | ⟨t, ht, hin⟩
  · rw [he]
    exact .inl ⟨e, rfl⟩
  · rw [ht]
    refine .inr ⟨t, _, rfl, hin, sameOutside_writeAt h hin.front ?_⟩
    have hback := hin.back
    rw [growFront_eq s hmore, addW_eq (by omega)] at ht
    obtain rfl := subspan_eq_ok ht
    dsimp only at hback ⊢
    omega

theorem append_stays (h : s.Wf mem) (hmore : more.length < 2 ^ 63) :
    StaysInBox s.bbData s.bbSize mem (s.append more mem) := by
  have hmod : (2 : ℕ) ^ 64 = sizeMod := rfl
  obtain ⟨hf, hb, hbox, hsmall⟩ := id h
  have hgrow : Contained s.bbData s.bbSize (s.growBack more.length) := by
    rw [growBack, h.subspan_contained_iff, addW_eq (by omega)]
    intro hwraps
    have hsum := hwraps.wraps
    unfold availFront at hsum
    omega
  unfold PaddedUcharSpan.append
  rcases hgrow with ⟨e, he⟩ | ⟨t, ht, hin⟩
  · rw [he]
    exact .inl ⟨e, rfl⟩
  · rw [ht]
    refine .inr ⟨t, _, rfl, hin, sameOutside_writeAt h (by omega) ?_⟩
    have hback := hin.back
    rw [growBack, addW_eq (by omega)] at ht
    obtain rfl := subspan_eq_ok ht
    dsimp only at hback
    omega

/-- Every operation stays in the box exactly when its arithmetic does not overflow. -/
theorem SpanOp.stays_iff (h : s.Wf mem) (op : SpanOp) :
    StaysInBox s.bbData s.bbSize mem (op.apply s mem) ↔ ¬ op.Overflows s := by
  cases op with
  | subspan offset count => exact (stays_map_iff _).trans (h.subspan_contained_iff offset count)
  | first count => exact (stays_map_iff _).trans (h.subspan_contained_iff 0 count)
  | last count =>
    refine (stays_map_iff _).trans ((h.ssize_subspan_contained_iff _ count).trans ?_)
    rw [Overflows, not_or, not_not]
  | growFront count =>
    refine (stays_map_iff _).trans ((h.ssize_subspan_contained_iff _ _).trans ?_)
    rw [Overflows, not_or, not_not]
  | growBack count => exact (stays_map_iff _).trans (h.subspan_contained_iff 0 _)
  | prepend more hmore => exact iff_of_true (prepend_stays h hmore) id
  | append more hmore => exact iff_of_true (append_stays h hmore) id
  | boundingBox =>
    refine iff_of_true (.inr ⟨_, _, rfl, ?_, rfl, fun _ _ => rfl⟩) id
    exact (Wf.mk (s := s.boundingBox) le_rfl le_rfl h.box h.small).in_box

end Box

/-! ## Sequences of operations -/

/-- A span that is built in a box, and operations on it one after the other; one that throws changes nothing. In no
step does the arithmetic overflow. -/
inductive SpanRun (bbData bbSize : ℕ) (mem : Bytes) : PaddedUcharSpan → Bytes → Prop
  | ctor {s : PaddedUcharSpan} {offset count : ℕ} : ofSpan bbData bbSize offset count = .ok s →
      ¬ CtorWraps bbSize offset count → SpanRun bbData bbSize mem s mem
  | step {s t : PaddedUcharSpan} {m m' : Bytes} {op : SpanOp} : SpanRun bbData bbSize mem s m →
      ¬ op.Overflows s → op.apply s m = .ok (t, m') → SpanRun bbData bbSize mem t m'

section Run

variable {bbData bbSize : ℕ} {mem m : Bytes} {s : PaddedUcharSpan}

theorem SameOutside.trans {m' : Bytes} (h : SameOutside bbData bbSize mem m) (h' : SameOutside bbData bbSize m m') :
    SameOutside bbData bbSize mem m' :=
  ⟨h'.length_eq.trans h.length_eq, fun i hi => (h'.outside i hi).trans (h.outside i hi)⟩

theorem SpanRun.in_box (hbox : bbData + bbSize ≤ mem.length) (hsmall : mem.length < 2 ^ 63)
    (h : SpanRun bbData bbSize mem s m) : s.In bbData bbSize ∧ SameOutside bbData bbSize mem m := by
  induction h with
  | @ctor s offset count hctor hno =>
    have hin := (ofSpan_contained_iff hbox hsmall offset count).mpr hno
    rw [hctor, contained_ok] at hin
    exact ⟨hin, rfl, fun _ _ => rfl⟩
  | @step s t m m' op _ hno hop ih =>
    obtain ⟨hin, hsame⟩ := ih
    have hwf : s.Wf m := hin.wf (hsame.length_eq ▸ hbox) (hsame.length_eq ▸ hsmall)
    have hstays := (SpanOp.stays_iff hwf op).mpr hno
    rw [hop, hin.data_eq, hin.size_eq] at hstays
    rcases hstays with ⟨e, he⟩ | ⟨t', m'', ht, hin', hsame'⟩
    · cases he
    · cases ht
      exact ⟨hin', hsame.trans hsame'⟩

end Run

/-- A span is built in its box exactly when the check of the constructor does not wrap round. In every sequence of
operations whose arithmetic does not overflow it stays there, with the room around it adding up; and the next operation
throws or stays in the box exactly when its own arithmetic does not overflow. -/
theorem paddedUcharSpan_inside {bbData bbSize : ℕ} {mem : Bytes} (hbox : bbData + bbSize ≤ mem.length)
    (hsmall : mem.length < 2 ^ 63) :
    (∀ offset count, Contained bbData bbSize (ofSpan bbData bbSize offset count) ↔ ¬ CtorWraps bbSize offset count)
      ∧ ∀ s m, SpanRun bbData bbSize mem s m → s.In bbData bbSize ∧ SameOutside bbData bbSize mem m
        ∧ ∀ op : SpanOp, StaysInBox bbData bbSize m (op.apply s m) ↔ ¬ op.Overflows s := by
  refine ⟨ofSpan_contained_iff hbox hsmall, fun s m hrun => ?_⟩
  obtain ⟨hin, hsame⟩ := hrun.in_box hbox hsmall
  refine ⟨hin, hsame, fun op => ?_⟩
  have hwf : s.Wf m := hin.wf (hsame.length_eq ▸ hbox) (hsame.length_eq ▸ hsmall)
  have hiff := SpanOp.stays_iff hwf op
  rwa [hin.data_eq, hin.size_eq] at hiff

/-- A span over the last bytes of a block. -/
theorem paddedUcharSpan_inside_four : (⟨1, 3, 0, 4⟩ : PaddedUcharSpan).In 0 4 := by
  have hctor : ofSpan 0 4 1 dynamicExtent = .ok ⟨1, 3, 0, 4⟩ := by decide
  have hrun : SpanRun 0 4 [1, 2, 3, 4] ⟨1, 3, 0, 4⟩ [1, 2, 3, 4] := .ctor hctor fun h => h.extent rfl
  have hbox : 0 + 4 ≤ ([1, 2, 3, 4] : Bytes).length := le_refl 4
  exact ((paddedUcharSpan_inside hbox (by decide)).2 _ _ hrun).1

/-- Behind one byte, `2^64-1` bytes are handed out in a box of four. -/
theorem subspan_wraps : ofSpan 0 4 1 dynamicExtent = .ok ⟨1, 3, 0, 4⟩
    ∧ PaddedUcharSpan.subspan ⟨1, 3, 0, 4⟩ 0 (2 ^ 64 - 1) = .ok ⟨1, 2 ^ 64 - 1, 0, 4⟩
    ∧ ¬ Contained 0 4 (PaddedUcharSpan.subspan ⟨1, 3, 0, 4⟩ 0 (2 ^ 64 - 1)) := by
  have hsub : PaddedUcharSpan.subspan ⟨1, 3, 0, 4⟩ 0 (2 ^ 64 - 1) = .ok ⟨1, 2 ^ 64 - 1, 0, 4⟩ := by decide
  refine ⟨by decide, hsub, ?_⟩
  rw [hsub, contained_ok]
  intro hin
  exact absurd hin.back (by decide)

end Fs123
