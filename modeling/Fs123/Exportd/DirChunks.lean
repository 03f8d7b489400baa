import Fs123.Client.Requests
import Fs123.Common.Greedy
import Fs123.Server.Reply

/-!
# Directory chunks

The model of `exportd_handler::d`: the entries of a directory from a given start, as many as fit into the
buffer of the request. The start of the next chunk is the `d_off` of the last entry that fits, a kernel value
of 64 bits, as decimal text.
-/

namespace Fs123

open Cxx

/-- What `d` reads of a `struct dirent`. The kernel's `d_off` is signed. -/
structure DirEntry where
  dName : Bytes
  dType : ℕ
  dOff : ℤ
  dName_ne_nil : dName ≠ []
  dName_length_le : dName.length ≤ 255
  dType_lt : dType < 256
  le_dOff : -2 ^ 63 ≤ dOff
  dOff_lt : dOff < 2 ^ 63

/-- A directory stream. `readdir` returns its entries in turn, from the first one, or from where `seekdir`
has gone to. The offset of an entry is the position behind it. -/
structure DirStream where
  entries : List DirEntry
  seekdir : ℤ → List DirEntry
  seekdir_dOff : ∀ pre e post, entries = pre ++ e :: post → seekdir e.dOff = post

/-- A directory that `d` has opened, with what it has found out about it. -/
structure OpenedDir where
  stream : DirStream
  esc : ℕ
  etag64 : ℕ
  cc : Bytes
  entryEsc : DirEntry → ℕ
  entryEsc_lt : ∀ e, entryEsc e < 2 ^ 64

/-- How `d` ends if nothing is thrown: `err_reply`, `not_modified_reply` or `d_reply`. -/
inductive DirAnswer where
  | errReply (eno : ℤ)
  | notModifiedReply (cc : Bytes)
  | dReply (nextstart : Bytes) (etag64 esc : ℕ) (cc : Bytes)
  deriving Repr, DecidableEq

/-- `last_off = de->d_off`, as a `uint64_t`. -/
def DirEntry.lastOff (e : DirEntry) : ℕ := (e.dOff % 2 ^ 64).toNat

/-- What `readdir` returns for a request with this `start`. -/
def DirStream.startingAt (stream : DirStream) (start : Bytes) : Res (List DirEntry) :=
  if start = [] then .ok stream.entries
  else do
    let istart ← catchE (svtoS 64 start) fun _ => httpthrow 400
      (bytes "Expected 'start' in query string to be a long integer.  Got: " ++ start)
    .ok (stream.seekdir istart)

/-- The loop over the entries. The results are the request, the `last_off`, and whether the entries have
come to their end. -/
def Req.readEntries (entryEsc : DirEntry → ℕ) : Req → ℕ → List DirEntry → Res (Req × ℕ × Bool)
  | r, lastOff, [] => .ok (r, lastOff, true)
  | r, lastOff, e :: es => do
    let (r, added) ← r.addDirent e.dName e.dType (entryEsc e)
    if added then r.readEntries entryEsc e.lastOff es else .ok (r, lastOff, false)

/-- `exportd_handler::d(req, inm64, start)`. What opening the path, or what it needs to know about it, ends
in is given: an exception, the errno of `open`, or the directory. Exceptions end in `ex_reply`. -/
def exportdD (opened : Res (ℤ ⊕ OpenedDir)) (r : Req) (inm64 : ℕ) (start : Bytes) :
    Res (Req × DirAnswer) := do
  match ← opened with
  | .inl eno => .ok (r, .errReply eno)
  | .inr dir =>
    if dir.etag64 = inm64 then .ok (r, .notModifiedReply dir.cc)
    else do
      let entries ← dir.stream.startingAt start
      let (r, lastOff, atEof) ← r.readEntries dir.entryEsc 0 entries
      .ok (r, .dReply (if atEof then [] else decimal lastOff) dir.etag64 dir.esc dir.cc)

end Fs123
