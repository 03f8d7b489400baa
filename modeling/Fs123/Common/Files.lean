import Mathlib.Data.Nat.Notation
import Mathlib.Logic.Function.Basic

/-!
# Names and inodes

The files of one file system, as far as `open` with `O_CREAT|O_EXCL`, `write`, `unlink` and `rename` go: a name leads
to an inode, and a descriptor keeps its inode when the name is gone. No inode has two names, as there is no `link`.
-/

namespace Posix

/-- The inode of each name, and what is in each inode. Inodes from `fresh` on have not been used yet. -/
structure Files (N B : Type*) where
  inode : N → Option ℕ
  data : ℕ → List B
  fresh : ℕ
  inode_lt : ∀ (n : N) (i : ℕ), inode n = some i → i < fresh
  inode_inj : ∀ (n n' : N) (i : ℕ), inode n = some i → inode n' = some i → n = n'

namespace Files

variable {N B : Type*} (fs : Files N B)

/-- What is in an inode after it has been written to. -/
def write (i : ℕ) (bs : List B) : Files N B := { fs with data := Function.update fs.data i bs }

section

variable {fs} {i : ℕ} {bs : List B}

@[simp] theorem write_inode : (fs.write i bs).inode = fs.inode := rfl

@[simp] theorem write_fresh : (fs.write i bs).fresh = fs.fresh := rfl

@[simp] theorem write_data_self : (fs.write i bs).data i = bs := Function.update_self _ _ _

theorem write_data_of_ne {j : ℕ} (h : j ≠ i) : (fs.write i bs).data j = fs.data j := Function.update_of_ne h _ _

end

variable [DecidableEq N]

/-- A new inode under a name; the one that the name had is lost. -/
def create (n : N) : Files N B where
  inode := Function.update fs.inode n (some fs.fresh)
  data := Function.update fs.data fs.fresh []
  fresh := fs.fresh + 1
  inode_lt m i h := by
    by_cases hm : m = n
    · subst hm
      rw [Function.update_self, Option.some.injEq] at h
      omega
    · rw [Function.update_of_ne hm] at h
      exact Nat.lt_succ_of_lt (fs.inode_lt m i h)
  inode_inj m m' i h h' := by
    by_cases hm : m = n
    · subst hm
      rw [Function.update_self, Option.some.injEq] at h
      by_contra hne
      rw [Function.update_of_ne (Ne.symm hne)] at h'
      have := fs.inode_lt m' i h'
      omega
    · rw [Function.update_of_ne hm] at h
      by_cases hm' : m' = n
      · subst hm'
        rw [Function.update_self, Option.some.injEq] at h'
        have := fs.inode_lt m i h
        omega
      · rw [Function.update_of_ne hm'] at h'
        exact fs.inode_inj m m' i h h'

/-- `open(n, O_CREAT|O_EXCL)`: it fails if there is such a name. -/
def openExcl (n : N) : Option (ℕ × Files N B) :=
  if fs.inode n = none then some (fs.fresh, fs.create n) else none

/-- `unlink(n)`. -/
def unlink (n : N) : Files N B where
  inode := Function.update fs.inode n none
  data := fs.data
  fresh := fs.fresh
  inode_lt m i h := by
    by_cases hm : m = n
    · rw [hm, Function.update_self] at h
      cases h
    · rw [Function.update_of_ne hm] at h
      exact fs.inode_lt m i h
  inode_inj m m' i h h' := by
    by_cases hm : m = n
    · rw [hm, Function.update_self] at h
      cases h
    by_cases hm' : m' = n
    · rw [hm', Function.update_self] at h'
      cases h'
    rw [Function.update_of_ne hm] at h
    rw [Function.update_of_ne hm'] at h'
    exact fs.inode_inj m m' i h h'

/-- The inode `i` of a name gets a second one in its place. -/
def move (a b : N) (i : ℕ) (h : fs.inode a = some i) : Files N B where
  inode := Function.update (Function.update fs.inode a none) b (some i)
  data := fs.data
  fresh := fs.fresh
  inode_lt m j hj := by
    by_cases hm : m = b
    · rw [hm, Function.update_self, Option.some.injEq] at hj
      exact hj ▸ fs.inode_lt a i h
    · rw [Function.update_of_ne hm] at hj
      by_cases hma : m = a
      · rw [hma, Function.update_self] at hj
        cases hj
      · rw [Function.update_of_ne hma] at hj
        exact fs.inode_lt m j hj
  inode_inj m m' j hj hj' := by
    have hold : ∀ x, x ≠ b → Function.update (Function.update fs.inode a none) b (some i) x = some j →
        x ≠ a ∧ fs.inode x = some j := by
      intro x hxb hx
      rw [Function.update_of_ne hxb] at hx
      by_cases hxa : x = a
      · rw [hxa, Function.update_self] at hx
        cases hx
      · rw [Function.update_of_ne hxa] at hx
        exact ⟨hxa, hx⟩
    by_cases hm : m = b
    · rw [hm, Function.update_self, Option.some.injEq] at hj
      by_contra hne
      obtain ⟨hma, hx⟩ := hold m' (fun heq => hne (hm.trans heq.symm)) hj'
      exact hma (fs.inode_inj m' a i (hj ▸ hx) h)
    · obtain ⟨hma, hx⟩ := hold m hm hj
      by_cases hm' : m' = b
      · rw [hm', Function.update_self, Option.some.injEq] at hj'
        exact absurd (fs.inode_inj m a i (hj' ▸ hx) h) hma
      · exact fs.inode_inj m m' j hx (hold m' hm' hj').2

/-- `rename(a, b)`: it fails if there is no `a`, and it does nothing if both names are the same. -/
def rename (a b : N) : Option (Files N B) :=
  if a = b then (fs.inode a).map fun _ => fs
  else
    match h : fs.inode a with
    | none => none
    | some i => some (fs.move a b i h)

variable {fs} {n m a b : N} {i : ℕ} {fs' : Files N B}

theorem openExcl_eq_some (h : fs.openExcl n = some (i, fs')) :
    fs.inode n = none ∧ i = fs.fresh ∧ fs' = fs.create n := by
  unfold openExcl at h
  split at h
  · next hnone =>
    rw [Option.some.injEq, Prod.mk.injEq] at h
    exact ⟨hnone, h.1.symm, h.2.symm⟩
  · cases h

theorem create_inode_of_ne (h : m ≠ n) : (fs.create n).inode m = fs.inode m := Function.update_of_ne h _ _

@[simp] theorem create_inode_self : (fs.create n).inode n = some fs.fresh := Function.update_self _ _ _

theorem create_data_of_lt (h : i < fs.fresh) : (fs.create n).data i = fs.data i :=
  Function.update_of_ne (Nat.ne_of_lt h) _ _

@[simp] theorem create_fresh : (fs.create n).fresh = fs.fresh + 1 := rfl

@[simp] theorem unlink_fresh : (fs.unlink n).fresh = fs.fresh := rfl

@[simp] theorem unlink_data : (fs.unlink n).data = fs.data := rfl

theorem unlink_inode_of_ne (h : m ≠ n) : (fs.unlink n).inode m = fs.inode m := Function.update_of_ne h _ _

theorem unlink_inode_eq_some : (fs.unlink n).inode m = some i ↔ m ≠ n ∧ fs.inode m = some i := by
  by_cases h : m = n
  · simp [unlink, h]
  · rw [unlink_inode_of_ne h, and_iff_right h]

/-- What a successful `rename` of one name to another one does. -/
theorem rename_eq_some (hne : a ≠ b) (h : fs.rename a b = some fs') :
    ∃ i, fs.inode a = some i ∧ fs'.inode = Function.update (Function.update fs.inode a none) b (some i)
      ∧ fs'.data = fs.data ∧ fs'.fresh = fs.fresh := by
  unfold rename at h
  rw [if_neg hne] at h
  split at h
  · cases h
  · next i hi =>
    obtain rfl := Option.some.inj h
    exact ⟨i, hi, rfl, rfl, rfl⟩

end Files

end Posix
