import Fs123.Core.ScanInt
import Fs123.Core.Stat

/-!
# Scanning `stat` and `statvfs`

The scanners of `stat_serializev3.hpp`. A `struct` is scanned as a tie of its fields: one integer after the
other, each of the type of its field, with white space in front. `svscanTie_spaced` says that a tie reads
back what the inserter has written of any list of integers within their types.
-/

namespace Fs123

open Cxx

/-- An integral type: its signedness and its width. -/
inductive IntType where
  | unsigned (w : ℕ)
  | signed (w : ℕ)
  deriving Repr, DecidableEq

/-- The values of an integral type. -/
def IntType.Holds : IntType → ℤ → Prop
  | .unsigned w, z => 0 ≤ z ∧ z < 2 ^ w
  | .signed w, z => 0 < w ∧ -2 ^ (w - 1) ≤ z ∧ z < 2 ^ (w - 1)

/-- `svscan<T>(sv, &value, start)` for an integral type. -/
def svscanInt : IntType → Bytes → ℕ → Res (ℤ × ℕ)
  | .unsigned w, sv, start => do
    let (u, off) ← scanintU w 0 true sv start
    .ok (u, off)
  | .signed w, sv, start => scanintS w 0 true sv start

/-- `svscan(sv, std::tie(fields...), start)`. -/
def svscanTie : List IntType → Bytes → ℕ → Res (List ℤ × ℕ)
  | [], _, start => .ok ([], start)
  | t :: ts, sv, start => do
    let (z, off) ← svscanInt t sv start
    let (zs, off) ← svscanTie ts sv off
    .ok (z :: zs, off)

/-- The types of the fields of `struct stat`, in the order of the inserter. -/
def Stat.types : List IntType :=
  [.unsigned 32, .unsigned 64, .unsigned 32, .unsigned 32, .signed 64, .signed 64, .signed 64, .signed 64,
    .unsigned 64, .signed 64, .signed 64, .signed 64, .unsigned 64, .signed 64, .signed 64, .unsigned 64]

/-- `svscan(sv, sb, start)` for a `struct stat`. -/
def svscanStat (sv : Bytes) (start : ℕ) : Res (Stat × ℕ) := do
  match ← svscanTie Stat.types sv start with
  | ([mode, nlink, uid, gid, size, mtime, ctime, atime, ino, mtimNsec, ctimNsec, atimNsec, dev, blocks,
      blksize, rdev], off) =>
    .ok (⟨.ofInt mode, .ofInt nlink, .ofInt uid, .ofInt gid, .ofInt size, .ofInt mtime, .ofInt ctime,
      .ofInt atime, .ofInt ino, .ofInt mtimNsec, .ofInt ctimNsec, .ofInt atimNsec, .ofInt dev, .ofInt blocks,
      .ofInt blksize, .ofInt rdev⟩, off)
  | _ => .error .oob

/-- `svscan(sv, svfsp, start)` for a `struct statvfs`: eleven fields of type `unsigned long`. -/
def svscanStatvfs (sv : Bytes) (start : ℕ) : Res (Statvfs × ℕ) := do
  match ← svscanTie (List.replicate 11 (.unsigned 64)) sv start with
  | ([bsize, frsize, blocks, bfree, bavail, files, ffree, favail, fsid, flag, namemax], off) =>
    .ok (⟨.ofInt bsize, .ofInt frsize, .ofInt blocks, .ofInt bfree, .ofInt bavail, .ofInt files, .ofInt ffree,
      .ofInt favail, .ofInt fsid, .ofInt flag, .ofInt namemax⟩, off)
  | _ => .error .oob

/-! ## Reading back what has been inserted -/

/-- White space in front of a number is skipped. -/
theorem skipWhite_space {sv rest : Bytes} {start : ℕ} (h : sv.drop start = ch ' ' :: rest) :
    skipWhite sv start = skipWhite sv (start + 1) := by
  have hrest : sv.drop (start + 1) = rest := by rw [← List.drop_drop, h, List.drop_one, List.tail_cons]
  unfold skipWhite
  rw [h, hrest, List.takeWhile_cons, if_pos (by decide), List.length_cons]
  omega

theorem svscanInt_space {t : IntType} {sv rest : Bytes} {start : ℕ} (h : sv.drop start = ch ' ' :: rest) :
    svscanInt t sv start = svscanInt t sv (start + 1) := by
  cases t with
  | unsigned w =>
    unfold svscanInt scanintU
    simp only [if_true, skipWhite_space h]
  | signed w =>
    unfold svscanInt scanintS
    simp only [if_true, skipWhite_space h]

/-- One field. -/
theorem svscanInt_decimalInt {t : IntType} {z : ℤ} {sv rest : Bytes} {start : ℕ} (hz : t.Holds z)
    (hsv : sv.drop start = decimalInt z ++ rest) (hrest : EndsNumber rest) :
    svscanInt t sv start = .ok (z, start + (decimalInt z).length) := by
  cases t with
  | signed w => exact scanintS_decimalInt hz.1 hz.2.1 hz.2.2 hsv hrest
  | unsigned w =>
    obtain ⟨n, rfl⟩ := Int.eq_ofNat_of_zero_le hz.1
    have hn : n < 2 ^ w := by exact_mod_cast hz.2
    rw [svscanInt, scanintU_decimal true hn hsv hrest]
    rfl

theorem endsNumber_space (rest : Bytes) : EndsNumber (ch ' ' :: rest) :=
  EndsNumber.cons _ ⟨by decide, by decide, by decide⟩

theorem spaced_cons_cons (a b : Bytes) (l : List Bytes) :
    spaced (a :: b :: l) = a ++ ch ' ' :: spaced (b :: l) := by
  simp [spaced, List.intercalate]

theorem svscanTie_space {t : IntType} {ts : List IntType} {sv rest : Bytes} {start : ℕ}
    (h : sv.drop start = ch ' ' :: rest) : svscanTie (t :: ts) sv start = svscanTie (t :: ts) sv (start + 1) := by
  rw [svscanTie, svscanTie, svscanInt_space h]

/-- All fields, one after the other. -/
theorem svscanTie_spaced {ts : List IntType} {zs : List ℤ} {sv rest : Bytes} {start : ℕ}
    (hzs : List.Forall₂ IntType.Holds ts zs) (hsv : sv.drop start = spaced (zs.map decimalInt) ++ rest)
    (hrest : EndsNumber rest) :
    svscanTie ts sv start = .ok (zs, start + (spaced (zs.map decimalInt)).length) := by
  induction hzs generalizing start with
  | nil => rfl
  | @cons t z ts zs hz htail ih =>
    cases htail with
    | nil =>
      have hone : spaced ([z].map decimalInt) = decimalInt z := by simp [spaced, List.intercalate]
      rw [hone] at hsv ⊢
      rw [svscanTie, svscanInt_decimalInt hz hsv hrest]
      rfl
    | @cons t' z' ts' zs' hz' htail' =>
      rw [List.map_cons, List.map_cons, spaced_cons_cons, ← List.map_cons] at hsv ⊢
      rw [List.append_assoc, List.cons_append] at hsv
      have hnext : sv.drop (start + (decimalInt z).length)
          = ch ' ' :: (spaced ((z' :: zs').map decimalInt) ++ rest) := by
        rw [← List.drop_drop, hsv, List.drop_left]
      have hafter : sv.drop (start + (decimalInt z).length + 1)
          = spaced ((z' :: zs').map decimalInt) ++ rest := by
        rw [← List.drop_drop, hnext, List.drop_one, List.tail_cons]
      rw [svscanTie, svscanInt_decimalInt hz hsv (endsNumber_space _)]
      simp only [bind, Except.bind]
      rw [svscanTie_space hnext, ih hafter]
      simp only [Except.ok.injEq, Prod.mk.injEq, true_and, List.length_append, List.length_cons]
      omega

/-- The fields of a `struct stat`, as they are inserted. -/
def Stat.fields (sb : Stat) : List ℤ :=
  [sb.mode.toNat, sb.nlink.toNat, sb.uid.toNat, sb.gid.toNat, sb.size.toInt, sb.mtime.toInt, sb.ctime.toInt,
    sb.atime.toInt, sb.ino.toNat, sb.mtimNsec.toInt, sb.ctimNsec.toInt, sb.atimNsec.toInt, sb.dev.toNat,
    sb.blocks.toInt, sb.blksize.toInt, sb.rdev.toNat]

/-- The fields of a `struct statvfs`, as they are inserted. -/
def Statvfs.fields (sv : Statvfs) : List ℤ :=
  [sv.bsize.toNat, sv.frsize.toNat, sv.blocks.toNat, sv.bfree.toNat, sv.bavail.toNat, sv.files.toNat,
    sv.ffree.toNat, sv.favail.toNat, sv.fsid.toNat, sv.flag.toNat, sv.namemax.toNat]

theorem holds_uint32 (x : UInt32) : (IntType.unsigned 32).Holds x.toNat :=
  ⟨Int.natCast_nonneg _, by exact_mod_cast x.toNat_lt⟩

theorem holds_uint64 (x : UInt64) : (IntType.unsigned 64).Holds x.toNat :=
  ⟨Int.natCast_nonneg _, by exact_mod_cast x.toNat_lt⟩

theorem holds_int64 (x : Int64) : (IntType.signed 64).Holds x.toInt :=
  ⟨by decide, x.le_toInt, x.toInt_lt⟩

theorem ofInt_uint32 (x : UInt32) : UInt32.ofInt x.toNat = x := by
  have h : ((x.toNat : ℤ) % 2 ^ 32).toNat = x.toNat := by
    have := x.toNat_lt
    omega
  rw [UInt32.ofInt, h, UInt32.ofNat_toNat]

theorem ofInt_uint64 (x : UInt64) : UInt64.ofInt x.toNat = x := by
  have h : ((x.toNat : ℤ) % 2 ^ 64).toNat = x.toNat := by
    have := x.toNat_lt
    omega
  rw [UInt64.ofInt, h, UInt64.ofNat_toNat]

/-- A `struct stat` is read back from a text in which something else may follow. -/
theorem svscanStat_text (sb : Stat) {sv rest : Bytes} {start : ℕ} (hsv : sv.drop start = sb.text ++ rest)
    (hrest : EndsNumber rest) : svscanStat sv start = .ok (sb, start + sb.text.length) := by
  have hfields : List.Forall₂ IntType.Holds Stat.types sb.fields := by
    unfold Stat.types Stat.fields
    simp only [List.forall₂_cons, List.forall₂_nil_left_iff, holds_uint32, holds_uint64, holds_int64, true_and]
  have htext : sb.text = spaced (sb.fields.map decimalInt) := rfl
  rw [htext] at hsv ⊢
  unfold svscanStat
  rw [svscanTie_spaced hfields hsv hrest]
  simp [Stat.fields, bind, Except.bind, ofInt_uint32, ofInt_uint64]

theorem svscanStatvfs_text (sb : Statvfs) {sv rest : Bytes} {start : ℕ}
    (hsv : sv.drop start = sb.text ++ rest) (hrest : EndsNumber rest) :
    svscanStatvfs sv start = .ok (sb, start + sb.text.length) := by
  have hfields : List.Forall₂ IntType.Holds (List.replicate 11 (.unsigned 64)) sb.fields := by
    unfold Statvfs.fields
    simp only [List.replicate, List.forall₂_cons, List.forall₂_nil_left_iff, holds_uint64, true_and]
  have htext : sb.text = spaced (sb.fields.map decimalInt) := rfl
  rw [htext] at hsv ⊢
  unfold svscanStatvfs
  rw [svscanTie_spaced hfields hsv hrest]
  simp [Statvfs.fields, bind, Except.bind, ofInt_uint64]

/-- Scanning the text of a `struct stat` or `struct statvfs` gives back its fields and consumes exactly the
text, alone or in front of a newline and a validator. -/
theorem stat_roundTrip (sb : Stat) (svfs : Statvfs) (validator : ℕ) :
    svscanStat sb.text 0 = .ok (sb, sb.text.length)
      ∧ svscanStat (sb.text ++ ch '\n' :: decimal validator) 0 = .ok (sb, sb.text.length)
      ∧ svscanStatvfs svfs.text 0 = .ok (svfs, svfs.text.length)
      ∧ svscanStatvfs (svfs.text ++ ch '\n' :: decimal validator) 0 = .ok (svfs, svfs.text.length) := by
  have hnewline : EndsNumber (ch '\n' :: decimal validator) :=
    EndsNumber.cons _ ⟨by decide, by decide, by decide⟩
  have hstat : ∀ {rest : Bytes}, EndsNumber rest →
      svscanStat (sb.text ++ rest) 0 = .ok (sb, sb.text.length) := by
    intro rest hrest
    have h := @svscanStat_text sb (sb.text ++ rest) rest 0 rfl hrest
    rwa [Nat.zero_add] at h
  have hstatvfs : ∀ {rest : Bytes}, EndsNumber rest →
      svscanStatvfs (svfs.text ++ rest) 0 = .ok (svfs, svfs.text.length) := by
    intro rest hrest
    have h := @svscanStatvfs_text svfs (svfs.text ++ rest) rest 0 rfl hrest
    rwa [Nat.zero_add] at h
  have hstat₀ := hstat EndsNumber.nil
  have hstatvfs₀ := hstatvfs EndsNumber.nil
  rw [List.append_nil] at hstat₀ hstatvfs₀
  exact ⟨hstat₀, hstat hnewline, hstatvfs₀, hstatvfs hnewline⟩

end Fs123
