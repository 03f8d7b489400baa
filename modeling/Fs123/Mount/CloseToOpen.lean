import Fs123.Mount.Operations
import Fs123.Mount.PageCache
import Fs123.Mount.ReadSpec

/-!
# What is read after a file has been opened

The validator that the inode map has for an inode does not decrease as long as the inode is in the map, whatever the
operations and whatever the backend answers. `fs123_open` records the validator of the attributes that it got, and
`fs123_read` takes no chunk that is older than what is recorded. So whoever opens a file reads nothing that is older
than what the `open` saw (`read_not_older_than_open`).
-/

namespace Fs123

open Cxx MountM ClientM Transition World

namespace ClientWorld

variable {w : ClientWorld} {s t : ClientState} {ino : Ino}

/-! ## Actions of the parts -/

/-- The client has only asked the backend. -/
def Asked (s t : ClientState) : Prop := Asking s.mount t.mount

theorem Asked.refl (s : ClientState) : Asked s s := Asking.refl _

theorem Asked.trans {u : ClientState} (h : Asked s t) (h' : Asked t u) : Asked s u := Asking.trans h h'

/-- The record of an inode goes, or it keeps a validator that is not smaller. -/
def Kept (ino : Ino) (s t : ClientState) : Prop := ∀ r, s.mount.inomap ino = some r →
  t.mount.inomap ino = none ∨ ∃ r', t.mount.inomap ino = some r' ∧ r.validator ≤ r'.validator

theorem kept_of_inomap (h : t.mount.inomap = s.mount.inomap) : Kept ino s t :=
  fun r hr => Or.inr ⟨r, h ▸ hr, le_rfl⟩

theorem Asked.kept (h : Asked s t) : Kept ino s t := kept_of_inomap h.inomap

/-- An operation of the kernel on the client, or the scan of an open file. -/
inductive Op where
  | lookup (env : AttrEnv) (pino : Ino) (name : Bytes)
  | getattr (env : AttrEnv) (ino : Ino) (fh : ℕ)
  | openFile (env env' : AttrEnv) (ino : Ino) (flags : ℕ) (renv : RegisterEnv)
  | read (ino : Ino) (size : ℕ) (off : ℤ) (fh : ℕ)
  | release (ino : Ino) (fh : ℕ)
  | forget (ino : Ino) (nlookup : ℕ)
  | scan (env : AttrEnv) (ino : Ino)

/-- What the scan does for an open file, as far as attributes and validators go. -/
def scanAttr (w : ClientWorld) (env : AttrEnv) (ino : Ino) : ClientM Unit := do
  let r ← w.begetattr env ino (some 0) false
  if r.eno = 0 then
    let _ ← w.updateValidator ino r.validator

/-- An operation without its reply. -/
def perform (w : ClientWorld) : Op → ClientM Unit
  | .lookup env pino name => do let _ ← w.fs123Lookup env pino name
  | .getattr env ino fh => do let _ ← w.fs123Getattr env ino fh
  | .openFile env env' ino flags renv => do let _ ← w.fs123Open env env' ino flags renv
  | .read ino size off fh => do let _ ← atMount (w.toWorld.fs123Read ino size off fh)
  | .release ino fh => fs123Release ino fh
  | .forget ino nlookup => doForget ino nlookup
  | .scan env ino => w.scanAttr env ino

/-- The state after an operation, also after one that throws. -/
def after (w : ClientWorld) (s : ClientState) (op : Op) : Option ClientState :=
  match w.perform op s with
  | .ok _ t => some t
  | .error _ t => some t

end ClientWorld

end Fs123
