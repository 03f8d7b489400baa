import Fs123.Common.LowerBound
import Fs123.Mount.Beget

/-!
# Reading a directory on the mounted side

The model of `fs123_opendir` and `fs123_readdir`. A handle keeps the text of one chunk, the offset of its first byte,
and for every chunk that has been fetched once where it begins and which start it is asked for with. The offset that
the kernel gives back with the next call is a place in the text of all chunks.
-/

namespace Fs123

open Cxx MountM

/-! ## The handle -/

/-- `fh_state`, without its mutex. There is always an offset to begin with. -/
structure FhState where
  contents : Bytes
  contentsFirstByteOffset : ℕ
  offsets : List (ℕ × Bytes)
  eof : Bool
  offsets_ne : offsets ≠ []
  deriving Repr, DecidableEq

namespace FhState

/-- `fh_state()`, made by `fs123_opendir`. -/
def new : FhState := ⟨[], 0, [(0, [])], false, List.cons_ne_nil _ _⟩

variable (fh : FhState)

/-- `offsets.back()`. -/
def back : ℕ × Bytes := fh.offsets.getLast fh.offsets_ne

/-- `offsets[0].first = first`. -/
def setFirst (first : ℕ) : FhState :=
  { fh with
    offsets := fh.offsets.modifyHead fun p => (first, p.2)
    offsets_ne := fun h => fh.offsets_ne (by simpa using congrArg List.length h) }

/-- `offsets.push_back(p)`. -/
def pushBack (p : ℕ × Bytes) : FhState :=
  { fh with
    offsets := fh.offsets ++ [p]
    offsets_ne := List.append_ne_nil_of_right_ne_nil _ (List.cons_ne_nil _ _) }

/-- The offset is not in the text that is there. -/
def outside (nextoff : ℕ) : Bool :=
  nextoff < fh.contentsFirstByteOffset || addW fh.contentsFirstByteOffset fh.contents.length ≤ nextoff

/-- The chunk to fetch for an offset, counted from one: `upper_bound` in `offsets`. -/
def chunkOf (nextoff : ℕ) : ℕ := LowerBound.lowerBound (fun p => !decide (nextoff < p.1)) fh.offsets

end FhState

/-! ## The reply -/

/-- What `fuse_add_direntry` is given: a C string, the two members of the `struct stat` that it reads, and the
offset of the entry behind. -/
structure Dirent where
  name : Bytes
  ino : Ino
  mode : ℕ
  off : ℕ
  deriving Repr, DecidableEq

/-- The mounted client, with what `readdir` needs besides. -/
structure DirWorld extends World where
  /-- `st_ino_mask`. -/
  stInoMask : ℕ
  /-- The room that `fuse_add_direntry` needs for a name: a header of 24 bytes and the name, padded. -/
  direntSize : Bytes → ℕ
  direntSize_pos : ∀ name, 0 < direntSize name
  direntSize_le : ∀ name, name.length ≤ 255 → direntSize name ≤ 280

/-- The buffer of a reply: the entries in it and `used`. -/
structure DirBuf where
  entries : List Dirent
  used : ℕ
  deriving Repr, DecidableEq

/-- What `fs123_readdir` replies: `reply_err` or `reply_buf`. -/
inductive DirReply where
  | err (eno : ℤ)
  | buf (entries : List Dirent)
  deriving Repr, DecidableEq

/-- `fuse_add_direntry(req, buf.data()+used, bufsz-used, ...)`: nothing is added if it does not fit. -/
def DirBuf.add (w : DirWorld) (bufsz : ℕ) (b : DirBuf) (d : Dirent) : Option DirBuf :=
  if bufsz - b.used < w.direntSize d.name then none
  else some ⟨b.entries ++ [d], b.used + w.direntSize d.name⟩

/-! ## Special inodes -/

/-- `S_IFREG`. -/
def sIfreg : ℕ := 0o100000

/-- `S_IFDIR`. -/
def sIfdir : ℕ := 0o040000

/-- `special_ino_to_fullname(ino)`. -/
def specialInoToFullname (ino : Ino) : Res Bytes :=
  if ino = 2 then .ok (bytes ".fs123_statistics")
  else if ino = 3 then .ok (bytes ".fs123_ioctl")
  else if ino = 4 then .ok (bytes ".fs123_config")
  else if ino = 5 then .ok (bytes ".fs123_server_statistics")
  else sysFailure 22 (bytes "special_ino_to_name(" ++ decimal ino ++ bytes ") is not a recognized special ino")

/-- `shared_getattr_special_ino(ino, nullptr)`: `st_ino` and `st_mode`. -/
def sharedGetattrSpecialIno (ino : Ino) : Res (Ino × ℕ) :=
  if ino = 2 ∨ ino = 4 ∨ ino = 5 then .ok (ino, sIfreg ||| 0o444)
  else if ino = 3 then .ok (ino, sIfreg ||| 0o400)
  else sysFailure 71 (bytes "shared_getattr_special:  unspecial ino: " ++ decimal ino)

/-- The entry of a special inode. -/
def specialDirent (sino : Ino) (nextoff : ℕ) : Res Dirent := do
  let (ino, mode) ← sharedGetattrSpecialIno sino
  let name ← specialInoToFullname sino
  .ok ⟨name, ino, mode, nextoff⟩

/-- The loop over the special inodes that are `left`, from `nextoff` on: the buffer, and whether all of them have
been added. -/
def addSpecials (w : DirWorld) (bufsz : ℕ) : ℕ → ℕ → DirBuf → Res (DirBuf × Bool)
  | 0, _, b => .ok (b, true)
  | left + 1, nextoff, b => do
    let nextoff := nextoff + 1
    let d ← specialDirent (nextoff + 1) nextoff
    match b.add w bufsz d with
    | none => .ok (b, false)
    | some b => addSpecials w bufsz left nextoff b

/-! ## The entries of a chunk -/

/-- `dtype_to_mode(dtype)`. -/
def dtypeToMode (dtype : ℤ) : ℕ :=
  if dtype = 8 then sIfreg
  else if dtype = 4 then sIfdir
  else if dtype = 10 then 0o120000
  else if dtype = 6 then 0o060000
  else if dtype = 2 then 0o020000
  else if dtype = 1 then 0o010000
  else if dtype = 12 then 0o140000
  else 0

/-- What is scanned of an entry, and the offset behind it. -/
structure ScannedEntry where
  name : Bytes
  dType : ℤ
  estaleCookie : ℕ
  next : ℕ
  deriving Repr, DecidableEq

/-- The `try` block of the loop. -/
def scanDirent (svin : Bytes) (nextoff : ℕ) : Res ScannedEntry := catchE (do
    let (name, nextoff) ← svscanNetstring true svin nextoff
    if 255 < name.data.length then
      sysFailure 22 (bytes "name too long in get_dir_contents_and_attributes")
    else if name.data.length = 0 then
      sysFailure 22 (bytes "zero-length name in get_dir_contents_and_attributes")
    else do
      let (dType, nextoff) ← scanintS 32 0 true svin nextoff
      let (estaleCookie, lastoff) ← scanintU 64 0 true svin nextoff
      let nextoff := svscanWhite svin lastoff
      if lastoff = nextoff then
        throwE .invalidArgument (bytes "no whitespace at end of dirent record")
      else .ok ⟨name.data, dType, estaleCookie, nextoff⟩)
  fun e => .error (.throws (e.nest (.systemError .system 22)
    (bytes "directory parsing failed:  likely: invalid user-space lseek on directory fd.  "
      ++ bytes "unlikely:  garbled directory contents")))

namespace DirWorld

variable (w : DirWorld) (m : Inomap) (ino : Ino)

/-- The attributes of an entry: `.` and `..` have the inodes of the map, every other one gets its own. -/
def direntOf (e : ScannedEntry) (off : ℕ) : Res Dirent := do
  let (stIno, stMode) ←
    if e.name = bytes "." then .ok (ino, sIfdir)
    else if e.name = bytes ".." then do
      let pino ← m.inoToPino ino
      .ok (pino, sIfdir)
    else .ok (0, dtypeToMode e.dType)
  let stIno := if stIno = 0 then genino e.estaleCookie ino e.name &&& w.stInoMask else stIno
  .ok ⟨cstr e.name, stIno, stMode, off⟩

/-- The body of the loop up to `fuse_add_direntry_sv`: the entry at `nextoff`, and the offset behind it. -/
def nextDirent (contents : Bytes) (first nextoff : ℕ) : Res (Dirent × ℕ) := do
  let e ← scanDirent contents nextoff
  let d ← w.direntOf m ino e (addW first e.next)
  .ok (d, e.next)

/-- The loop over the chunk. Every entry that is added takes room. -/
def addEntries (bufsz : ℕ) (contents : Bytes) (first nextoff : ℕ) (b : DirBuf) : Res DirBuf :=
  if nextoff < contents.length then
    match w.nextDirent m ino contents first nextoff with
    | .error f => .error f
    | .ok (d, next) =>
      if bufsz - b.used < w.direntSize d.name then .ok b
      else addEntries bufsz contents first next ⟨b.entries ++ [d], b.used + w.direntSize d.name⟩
  else .ok b
termination_by bufsz - b.used
decreasing_by
  have := w.direntSize_pos d.name
  omega

end DirWorld

/-! ## `fs123_readdir` -/

/-- The state that `readdir` runs in. -/
structure DirState where
  mount : MountState
  fh : FhState

/-- The operations on a handle. An exception leaves the handle as it is at the `throw`. -/
abbrev ReaddirM (α : Type) := EStateM Fault DirState α

/-- What does not touch the handle. -/
def onMount {α : Type} (x : MountM α) : ReaddirM α := fun s =>
  match x s.mount with
  | .ok a mount => .ok a { s with mount }
  | .error f mount => .error f { s with mount }

/-- What changes the handle only. -/
def onHandle (f : FhState → FhState) : ReaddirM Unit := modify fun s => { s with fh := f s.fh }

/-- `safe_integral_cast<size_t>(off)`. The `range_error` is a `runtime_error`. -/
def safeSize (off : ℤ) : Res ℕ :=
  if off < 0 then throwE .runtimeError (bytes "safe_integral_cast") else .ok off.toNat

namespace DirWorld

variable (w : DirWorld)

/-- `begetchunk_dir(ino, start)`. -/
def begetchunkDir (ino : Ino) (start : Bytes) : MountM DecodedReply := do
  let name ← ofRes fun s => s.inomap.inoToFullname w.stack ino
  w.beget ino ⟨.dir name w.chunk start, none, false⟩ true

/-- Fetch a chunk, counted from one, into the handle: the errno of the reply. -/
def fetch (ino : Ino) (mustBegetchunk : ℕ) : ReaddirM ℤ := do
  match (← get).fh.offsets[mustBegetchunk - 1]? with
  | none => throw .oob
  | some (byteNextOffset, chunkNextStart) =>
    let reply ← onMount (w.begetchunkDir ino chunkNextStart)
    if reply.dec.eno ≠ 0 then return reply.dec.eno
    let content := reply.dec.content.data
    if mustBegetchunk = (← get).fh.offsets.length then
      let cns ← onMount (ofRes fun _ => reply.dec.chunkNextStart)
      onHandle fun fh => { fh.pushBack (addW byteNextOffset content.length, cns) with eof := cns.isEmpty }
    onHandle fun fh => { fh with contents := content, contentsFirstByteOffset := byteNextOffset }
    return 0

/-- The special inodes, which only the root has: the buffer, the offset behind them, and whether there is room for
more. -/
def readSpecials (ino : Ino) (bufsz nextoff : ℕ) : ReaddirM (DirBuf × ℕ × Bool) :=
  if ino = 1 then do
    let (b, all) ← onMount (ofRes fun _ => addSpecials w bufsz (maxSpecialIno - 1 - nextoff) nextoff ⟨[], 0⟩)
    if all then
      onHandle fun fh => fh.setFirst (maxSpecialIno - 1)
      return (b, max nextoff (maxSpecialIno - 1), true)
    else return (b, nextoff, false)
  else return (⟨[], 0⟩, nextoff, true)

/-- Make the chunk of `nextoff` the one in the handle: the errno of the reply. -/
def load (ino : Ino) (nextoff : ℕ) : ReaddirM ℤ := do
  let fh := (← get).fh
  let mustBegetchunk := if fh.outside nextoff then fh.chunkOf nextoff else 0
  if 0 < mustBegetchunk then w.fetch ino mustBegetchunk else return 0

/-- The entries from `nextoff` on, out of the chunk that is in the handle. -/
def readEntries (ino : Ino) (bufsz nextoff : ℕ) (b : DirBuf) : ReaddirM DirReply := do
  let _ ← onMount (ofRes fun s => s.inomap.inoToFullname w.stack ino)
  let fh := (← get).fh
  let start := subW nextoff fh.contentsFirstByteOffset
  let start := if start < fh.contents.length then svscanWhite fh.contents start else start
  let b ← onMount (ofRes fun s => w.addEntries s.inomap ino bufsz fh.contents fh.contentsFirstByteOffset start b)
  return .buf b.entries

/-- `fs123_readdir(req, ino, size, off, fi)` on the handle of `fi`. An error that it throws is replied by
`CATCH_ERRS`. -/
def fs123Readdir (ino : Ino) (size : ℕ) (off : ℤ) : ReaddirM DirReply := do
  let bufsz := min size 4096
  let off ← onMount (ofRes fun _ => safeSize off)
  let (b, nextoff, all) ← w.readSpecials ino bufsz off
  if all then
    let fh := (← get).fh
    if fh.back.1 < nextoff then
      onMount (ofRes fun _ => sysFailure 22 (bytes "fs123_readdir:  offset (" ++ decimal nextoff
        ++ bytes ") too large.  Largest valid offset: " ++ decimal fh.back.1))
    else if nextoff = fh.back.1 ∧ fh.eof then return .buf []
    else
      let eno ← w.load ino nextoff
      if eno ≠ 0 then return .err eno
      w.readEntries ino bufsz nextoff b
  else return .buf b.entries

end DirWorld

end Fs123
