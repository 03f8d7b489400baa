import Fs123.Common.Ends
import Fs123.Mount.Beget

/-!
# What `beget` returns

Whatever the backend answers, `beget` leaves the inode map as it is, and a reply that it returns is one of the
answers to this request. With `check_cookie`, the cookie of the reply is the one that the number of the inode
was made from, `Regenerates`.
-/

namespace Fs123

open Cxx MountM

variable {w : World} {s : MountState} {ino : Ino}

/-! ## The actions -/

/-- The states that a run passes through while it asks the backend: the inode map is the same. -/
structure Asking (s t : MountState) : Prop where
  inomap : t.inomap = s.inomap
  asked : s.asked ≤ t.asked

theorem Asking.refl (s : MountState) : Asking s s := ⟨rfl, le_refl _⟩

theorem Asking.trans {s t u : MountState} (h : Asking s t) (h' : Asking t u) : Asking s u :=
  ⟨h'.inomap.trans h.inomap, h.asked.trans h'.asked⟩

namespace World

/-- The cookie of the reply regenerates the number of an ordinary inode from its directory and its name. -/
def Regenerates (m : Inomap) (ino : Ino) (reply : DecodedReply) : Prop :=
  ∃ cookie r, reply.dec.estaleCookie = .ok cookie ∧ m ino = some r ∧ genino cookie r.pino r.name = ino

end World

end Fs123
