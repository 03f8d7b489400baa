import Fs123.Core.Threeroe
import Fs123.Mount.OpenFileMap

/-!
# The inode map

The model of `inomap.cpp` and of `genino`. The map has a record for each inode that the kernel knows, with the
inode of its directory, its name there, and the largest content validator that has been seen. Each function
holds the lock of the map for as long as it runs.
-/

namespace Fs123

open Cxx

/-- `inorecord`. The name is a C string, and `refcount` a signed bit-field of 31 bits. -/
structure Inorecord where
  name : Bytes
  refcount : ℤ
  pino : Ino
  validator : ℕ
  deriving Repr, DecidableEq

/-- `inomap`. -/
abbrev Inomap := Ino → Option Inorecord

/-- `ino_out_of_order_validator`, the exception that the callers of `ino_update_validator` catch. -/
structure OutOfOrder where
  newValidator : ℕ
  oldValidator : ℕ
  name : Bytes
  deriving Repr, DecidableEq

/-- What a `refcount` of 31 bits holds after `z` has been assigned to it. -/
def refcountField (z : ℤ) : ℤ := z.bmod (2 ^ 31)

/-- `genino(estale_cookie, pino, name)`. -/
@[irreducible] def genino (estaleCookie : ℕ) (pino : Ino) (name : Bytes) : Ino :=
  (threeroe name (.ofNat pino) (.ofNat estaleCookie)).1.toNat

/-- `max_special_ino`. -/
def maxSpecialIno : Ino := 5

namespace Inomap

variable (m : Inomap)

/-- `inomap.at(ino)`. -/
def lookup (ino : Ino) : Res Inorecord :=
  match m ino with
  | some r => .ok r
  | none => throwE .outOfRange (bytes "_Map_base::at")

/-- The `catch` of the functions that nest what they throw. -/
def nestCall {α : Type} (func : Bytes) (ino : Ino) (x : Res α) : Res α :=
  catchE x fun e => .error (.throws (e.nest .runtimeError (func ++ [ch '('] ++ decimal ino ++ [ch ')'])))

/-- `_fullname(r)`, with room on the stack for `stack` calls. -/
def fullnameOf : ℕ → Inorecord → Res Bytes
  | 0, _ => .error .oob
  | stack + 1, r =>
    if r.pino = 1 then .ok (ch '/' :: r.name)
    else
      match m r.pino with
      | none => sysFailure 22 (bytes "couldn't find pino = " ++ decimal r.pino ++ bytes " in inomap")
      | some p => do
        let pname ← fullnameOf stack p
        .ok (pname ++ ch '/' :: r.name)

/-- `ino_to_fullname(ino)`. -/
def inoToFullname (stack : ℕ) (ino : Ino) : Res Bytes :=
  if ino = 1 then .ok []
  else do
    let r ← m.lookup ino
    m.fullnameOf stack r

/-- `ino_to_fullname_validator(ino)`. -/
def inoToFullnameValidator (stack : ℕ) (ino : Ino) : Res (Bytes × ℕ) :=
  if ino = 1 then .ok ([], 1)
  else do
    let r ← m.lookup ino
    let name ← m.fullnameOf stack r
    .ok (name, r.validator)

/-- `ino_to_pino(ino)`. -/
def inoToPino (ino : Ino) : Res Ino := nestCall (bytes "ino_to_pino") ino (do
  let r ← m.lookup ino
  .ok r.pino)

/-- `ino_to_pino_name(ino)`. -/
def inoToPinoName (ino : Ino) : Res (Ino × Bytes) := nestCall (bytes "ino_to_pino_name") ino (do
  let r ← m.lookup ino
  .ok (r.pino, r.name))

/-- `ino_update_validator(ino, validator)`: the validator that was recorded before, or the exception, and the
map. -/
def inoUpdateValidator (stack : ℕ) (ino : Ino) (validator : ℕ) : Res (ℕ ⊕ OutOfOrder) × Inomap :=
  match m.lookup ino with
  | .error f => (nestCall (bytes "ino_update_validator") ino (.error f), m)
  | .ok r =>
    let ir := { r with validator := max r.validator validator }
    if validator < ir.validator then
      (nestCall (bytes "ino_update_validator") ino (do
        let name ← m.fullnameOf stack r
        .ok (.inr ⟨validator, ir.validator, name⟩)), m)
    else (.ok (.inl r.validator), Function.update m ino (some ir))

/-- `ino_remember(pino, name, ino, validator)`: an inode that is there keeps its validator. -/
def inoRemember (pino : Ino) (name : Bytes) (ino : Ino) (validator : ℕ) : Res Unit × Inomap :=
  match m ino with
  | none => (.ok (), Function.update m ino (some ⟨name, 1, pino, validator⟩))
  | some r =>
    if name ≠ r.name then
      (sysFailure 22 (bytes "ino_remember(pino=" ++ decimal pino ++ bytes ", name=" ++ name ++ bytes ", ino="
        ++ decimal ino ++ bytes ") does not match existing record in inomap with name=" ++ r.name), m)
    else (.ok (), Function.update m ino (some { r with refcount := refcountField (r.refcount + 1) }))

/-- `ino_forget(ino, nlookup)`. The subtraction is one of 64 bits; what the field holds of it is the same as for
integers. -/
def inoForget (ino : Ino) (nlookup : ℕ) : Inomap :=
  match m ino with
  | none => m
  | some r =>
    let refcount := refcountField (r.refcount - nlookup)
    let refcount := if refcount < 0 then 0 else refcount
    if refcount = 0 then Function.update m ino none
    else Function.update m ino (some { r with refcount })

end Inomap

end Fs123
