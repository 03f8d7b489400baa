import Fs123.Mount.ReaddirSpec

/-!
# Histories of `readdir`

A reader opens a directory and calls `readdir` on the handle, each time with an offset that it has been given, while
the rest of the mount goes on. `readdir_resumes_iff`: each reply goes on behind the entry that the offset was returned
with, unless the root has no entries but the special ones; then these are not seen again once the end has been
reached. `readdir_once`: a reader that always goes on gets each entry once and in order.
-/

namespace Fs123

open Cxx Greedy Transition

/-- A call: the mount as it is then, and the arguments. -/
structure ReaddirCall where
  mount : MountState
  size : ℕ
  off : ℤ

/-- The reader: its handle, and what has been replied to which offset. -/
structure DirReader where
  fh : FhState
  replies : List (ℤ × List Dirent)

namespace DirReader

/-- After `opendir`. -/
def opened : DirReader := ⟨.new, []⟩

/-- The offsets to seek to: the beginning, and all that have been returned. -/
def Returned (r : DirReader) (off : ℤ) : Prop := off = 0 ∨ ∃ q ∈ r.replies, ∃ d ∈ q.2, off = d.off

/-- All entries so far. -/
def received (r : DirReader) : List Dirent := r.replies.flatMap Prod.snd

end DirReader

namespace DirWorld

variable (w : DirWorld) (ino : Ino)

/-- A call that is replied to with entries. -/
def readStep (r : DirReader) (c : ReaddirCall) : Option DirReader :=
  match w.fs123Readdir ino c.size c.off ⟨c.mount, r.fh⟩ with
  | .ok (.buf reply) s => some ⟨s.fh, r.replies ++ [(c.off, reply)]⟩
  | _ => none

/-- A call that goes on where the last one stopped. -/
def readOn (r : DirReader) (c : MountState × ℕ) : Option DirReader :=
  w.readStep ino r ⟨c.1, c.2, offAfter r.received⟩

end DirWorld

/-- A call at an offset that has been returned, with room for any one entry. -/
structure FairCall (w : DirWorld) (l : Listing) (ino pino : Ino) (r : DirReader) (c : ReaddirCall) : Prop where
  mounted : Mounted w l ino pino c.mount
  room : ∀ d ∈ l.stream w ino pino, w.room d ≤ c.size
  off : r.Returned c.off

/-- The reply is what comes behind the offset, and there is nothing behind it if it is empty. -/
def Listing.Resumes (l : Listing) (w : DirWorld) (ino pino : Ino) (off : ℤ) (reply : List Dirent) : Prop :=
  ∃ before after, l.stream w ino pino = before ++ reply ++ after ∧ off = offAfter before ∧ (reply = [] → after = [])

section Runs

variable {l : Listing} {w : DirWorld} {ino pino : Ino} {r : DirReader} {c : ReaddirCall}

/-! ## Offsets -/

theorem direntsOf_pairwise (off : ℕ) (es : List Listed) :
    ((direntsOf w ino pino off es).map Dirent.off).Pairwise (· < ·) := by
  induction es generalizing off with
  | nil => exact List.Pairwise.nil
  | cons e es ih =>
    rw [direntsOf, List.map_cons, List.pairwise_cons]
    refine ⟨fun x hx => ?_, ih _⟩
    obtain ⟨d, hd, rfl⟩ := List.mem_map.mp hx
    exact (Listing.off_le_of_mem hd).1

/-- The offsets grow along the stream. -/
theorem Listing.stream_pairwise : (0 :: (l.stream w ino pino).map Dirent.off).Pairwise (· < ·) := by
  have hfirst : (0 :: (Listing.specialsFrom ino 0).map Dirent.off).Pairwise (· < ·) := by
    unfold Listing.specialsFrom
    split
    · decide
    · exact List.pairwise_singleton _ _
  rw [Listing.stream, List.map_append, ← List.cons_append, List.pairwise_append]
  refine ⟨hfirst, direntsOf_pairwise _ _, ?_⟩
  intro x hx y hy
  obtain ⟨d, hd, rfl⟩ := List.mem_map.mp hy
  have hlt := (Listing.off_le_of_mem hd).1
  rcases List.mem_cons.mp hx with rfl | hx
  · exact lt_of_le_of_lt (Nat.zero_le _) hlt
  · obtain ⟨s, hs, rfl⟩ := List.mem_map.mp hx
    exact lt_of_le_of_lt (off_le_base hs) hlt

/-- An offset belongs to one place only. -/
theorem Listing.eq_of_offAfter {a b a' b' : List Dirent} (ha : l.stream w ino pino = a ++ a')
    (hb : l.stream w ino pino = b ++ b') (h : offAfter a = offAfter b) : a = b := by
  have hlast : ∀ {x y z : List Dirent}, l.stream w ino pino = (x ++ y) ++ z → y ≠ [] →
      offAfter x < offAfter (x ++ y) := by
    intro x y z hxyz hy
    obtain ⟨init, d, rfl⟩ := (List.eq_nil_or_concat' y).resolve_left hy
    have hpair : (0 :: (l.stream w ino pino).map Dirent.off).Pairwise (· < ·) := l.stream_pairwise
    rw [hxyz, List.map_append, List.map_append, List.map_append, ← List.cons_append, List.pairwise_append,
      ← List.cons_append, List.pairwise_append] at hpair
    rw [← List.append_assoc, offAfter_concat]
    have hd : d.off ∈ init.map Dirent.off ++ [d].map Dirent.off := List.mem_append_right _ (List.mem_singleton.mpr rfl)
    rcases List.eq_nil_or_concat' x with rfl | ⟨x', e, rfl⟩
    · exact hpair.1.2.2 0 (List.mem_singleton.mpr rfl) d.off hd
    · rw [Listing.offAfter_concat]
      refine hpair.1.2.2 e.off (List.mem_cons_of_mem _ ?_) d.off hd
      rw [List.map_append]
      exact List.mem_append_right _ (List.mem_singleton.mpr rfl)
  have hprefix := List.prefix_or_prefix_of_prefix ⟨a', ha.symm⟩ ⟨b', hb.symm⟩
  rcases hprefix with ⟨y, rfl⟩ | ⟨y, rfl⟩
  · by_contra hne
    have hy : y ≠ [] := fun h => hne (by rw [h, List.append_nil])
    exact absurd h (hlast hb hy).ne
  · by_contra hne
    have hy : y ≠ [] := fun h => hne (by rw [h, List.append_nil])
    exact absurd h (hlast ha hy).ne'

/-! ## Steps -/

/-- What a reader knows: the handle belongs to the directory, each offset it may seek to is one that the handle
knows, and each reply so far was right. -/
structure Reading (l : Listing) (w : DirWorld) (ino pino : Ino) (r : DirReader) (m : ℕ) : Prop where
  holds : Holds l ino (r.fh.entered ino) m
  known : ∀ off, r.Returned off → ∃ before after, l.stream w ino pino = before ++ after ∧ off = offAfter before
    ∧ offAfter before ≤ l.place ino m
  resumes : ∀ q ∈ r.replies, l.Resumes w ino pino q.1 q.2

theorem Reading.opened : Reading l w ino pino .opened 0 where
  holds := Holds.new l ino
  known off hoff := by
    rcases hoff with rfl | ⟨q, hq, -⟩
    · exact ⟨[], _, rfl, rfl, Nat.zero_le _⟩
    · cases hq
  resumes q hq := by cases hq

theorem name_length_le {off : ℕ} {es : List Listed} {d : Dirent} (h : d ∈ direntsOf w ino pino off es) :
    d.name.length ≤ 255 := by
  induction es generalizing off with
  | nil => cases h
  | cons e es ih =>
    rcases List.mem_cons.mp h with rfl | h
    · exact le_trans (List.takeWhile_sublist _).length_le e.name_le
    · exact ih h

/-- Every entry fits into a page. -/
theorem room_le {d : Dirent} (h : d ∈ l.stream w ino pino) : w.room d ≤ 280 := by
  apply w.direntSize_le
  rcases List.mem_append.mp h with h | h
  · unfold Listing.specialsFrom at h
    split at h
    · have hall : ∀ x ∈ specialDirents, x.name.length ≤ 255 := by decide +kernel
      exact hall d h
    · cases h
  · exact name_length_le h

/-- One call: it is replied to, the reply is right, and what the reader knows stays so. -/
theorem Reading.step {m : ℕ} (h : Reading l w ino pino r m) (hroot : ino = 1 → l.entries ≠ [])
    (hc : FairCall w l ino pino r c) :
    ∃ reply r' m', w.readStep ino r c = some r' ∧ r'.replies = r.replies ++ [(c.off, reply)]
      ∧ Reading l w ino pino r' m' := by
  obtain ⟨before, after, hsplit, hoff, hplace⟩ := h.known c.off hc.off
  obtain ⟨done, todo, hat⟩ := Listing.exists_at hsplit
  have hknown : max (offAfter before) (Listing.base ino) ≤ l.place ino m :=
    max_le hplace (Nat.le_add_right _ _)
  obtain ⟨_, s, hrun, reply, rfl, hout⟩ := ends_readdir hc.mounted h.holds hat hknown
  have hmem : ∀ d ∈ after, d ∈ l.stream w ino pino := fun d hd => hsplit ▸ List.mem_append_right _ hd
  have hroom : ∀ d ∈ after, w.room d ≤ min c.size 4096 := fun d hd =>
    le_min (hc.room d (hmem d hd)) (le_trans (room_le (hmem d hd)) (by decide))
  obtain ⟨⟨rest, hrest⟩, hnil, m', hm, hholds, hoffs⟩ := hout.resumes h.holds hat hroom hroot
  have hsplit' : l.stream w ino pino = before ++ reply ++ rest := by rw [hsplit, ← hrest, List.append_assoc]
  have hresumes : l.Resumes w ino pino c.off reply := by
    refine ⟨before, rest, hsplit', hoff, fun hempty => ?_⟩
    have hafter := hnil hempty
    rw [← hrest] at hafter
    exact (List.append_eq_nil_iff.mp hafter).2
  refine ⟨reply, ⟨s.fh, r.replies ++ [(c.off, reply)]⟩, m', ?_, rfl, hholds, ?_, ?_⟩
  · rw [DirWorld.readStep, hoff, hrun]
  · intro off hreturned
    rcases hreturned with rfl | ⟨q, hq, d, hd, rfl⟩
    · exact ⟨[], _, rfl, rfl, Nat.zero_le _⟩
    rcases List.mem_append.mp hq with hq | hq
    · obtain ⟨before', after', hsplit'', hoff', hle⟩ := h.known d.off (Or.inr ⟨q, hq, d, hd, rfl⟩)
      exact ⟨before', after', hsplit'', hoff', le_trans hle (l.place_mono hm)⟩
    · obtain rfl := List.mem_singleton.mp hq
      obtain ⟨front, back, hreply⟩ : ∃ front back, reply = front ++ d :: back := List.append_of_mem hd
      refine ⟨before ++ front ++ [d], back ++ rest, ?_, ?_, ?_⟩
      · rw [hsplit', hreply]
        simp
      · rw [Listing.offAfter_concat]
      · rw [Listing.offAfter_concat]
        exact hoffs d hd
  · intro q hq
    rcases List.mem_append.mp hq with hq | hq
    · exact h.resumes q hq
    · obtain rfl := List.mem_singleton.mp hq
      exact hresumes

/-! ## Any offsets -/

theorem Reading.run (hroot : ino = 1 → l.entries ≠ []) {calls : List ReaddirCall}
    (hcalls : EachStep (w.readStep ino) (FairCall w l ino pino) .opened calls) :
    ∃ r m, Transition.run (w.readStep ino) .opened calls = some r ∧ Reading l w ino pino r m := by
  induction calls using List.reverseRecOn with
  | nil => exact ⟨.opened, 0, rfl, Reading.opened⟩
  | append_singleton calls c ih =>
    have hinit : EachStep (w.readStep ino) (FairCall w l ino pino) .opened calls := by
      intro ls₁ k ls₂ t hls ht
      exact hcalls ls₁ k (ls₂ ++ [c]) t (by rw [hls]; simp) ht
    obtain ⟨r, m, hrun, hreading⟩ := ih hinit
    obtain ⟨reply, r', m', hstep, -, hreading'⟩ := hreading.step hroot (hcalls calls c [] r rfl hrun)
    exact ⟨r', m', run_concat_eq_some.mpr ⟨r, hrun, hstep⟩, hreading'⟩

/-- The special inodes alone fit into a page. -/
theorem specials_fit (hroot : ino = 1) : (fitting w.room 4096 (Listing.specialsFrom ino 0)).2 = [] := by
  have hspecials : Listing.specialsFrom ino 0 = specialDirents := if_pos hroot
  have hname : ∀ x ∈ specialDirents, x.name.length ≤ 255 := by decide +kernel
  have hroom : ∀ d ∈ specialDirents, w.room d ≤ 280 := fun d hd => w.direntSize_le _ (hname d hd)
  unfold specialDirents at hroom
  simp only [List.forall_mem_cons, List.not_mem_nil, false_imp_iff, implies_true, and_true] at hroom
  apply fitting_of_sum_le
  rw [hspecials, specialDirents]
  simp only [List.map_cons, List.map_nil, List.sum_cons, List.sum_nil]
  omega

/-- Without entries there is one page. -/
theorem Listing.length_of_entries_nil (h : l.entries = []) : l.pages.length = 1 := by
  have hpos := l.length_pos
  have hfirst : l.page 0 = [] := by
    have hprefix := l.upTo_prefix 1
    rw [h, List.prefix_nil, upTo_succ] at hprefix
    exact (List.append_eq_nil_iff.mp hprefix).2
  by_contra hne
  exact l.page_ne_nil (by omega) hfirst

/-- At the root of an empty directory the second call at the beginning replies nothing: the end is known, and the
place behind the special inodes is the end. -/
theorem not_resumes_of_empty_root {mount : MountState} (hmnt : Mounted w l ino pino mount) (hroot : ino = 1)
    (hnil : l.entries = []) :
    ∃ r r', w.readStep ino .opened ⟨mount, 4096, 0⟩ = some r ∧ w.readStep ino r ⟨mount, 4096, 0⟩ = some r'
      ∧ ∃ q ∈ r'.replies, ¬ l.Resumes w ino pino q.1 q.2 := by
  have hlen := Listing.length_of_entries_nil hnil
  have hstream : l.stream w ino pino = [] ++ l.stream w ino pino := rfl
  obtain ⟨done, todo, hat⟩ := Listing.exists_at hstream
  have hempty : done = [] ∧ todo = [] := by
    have := hat.entries
    rw [hnil] at this
    exact List.append_eq_nil_iff.mp this.symm
  have hfits := specials_fit (w := w) hroot
  have hplace : ∀ i, max (offAfter []) (Listing.base ino) ≤ l.place ino i :=
    fun i => max_le (Nat.zero_le _) (Nat.le_add_right _ _)
  -- the first call fetches the only page
  obtain ⟨_, ⟨mount₁, fh₁⟩, hrun, reply, rfl, hout⟩ : Ends (w.fs123Readdir ino 4096 (offAfter [])) ⟨mount, .new⟩ _ :=
    ends_readdir hmnt (Holds.new l ino) hat (hplace 0)
  dsimp only at hout
  obtain ⟨m, hm, hholds⟩ : ∃ m, m = 1 ∧ Holds l ino fh₁ m := by
    cases hout with
    | short h => exact absurd hfits h
    | atEnd _ h _ => rw [hlen] at h; cases h
    | page p ahead behind _ _ hpage hholds =>
      obtain rfl : p = 0 := Nat.le_zero.mp hpage.le
      exact ⟨1, rfl, hholds⟩
  -- the second one does not get to the special inodes that it has added
  have hentered := hholds.entered
  obtain ⟨_, ⟨mount₂, fh₂⟩, hrun', reply', rfl, hout'⟩ : Ends (w.fs123Readdir ino 4096 (offAfter [])) ⟨mount, fh₁⟩ _ :=
    ends_readdir hmnt (hentered.symm ▸ hholds) hat (hplace m)
  dsimp only at hout'
  have hreply : reply' = [] := by
    cases hout' with
    | short h => exact absurd hfits h
    | atEnd _ _ _ => rfl
    | page p ahead behind _ _ hpage _ =>
      have hp := hpage.lt
      rw [hlen] at hp
      obtain rfl : p = 0 := by omega
      exact absurd hempty.2 fun h => hpage.next (by omega) (by
        obtain ⟨rest, hrest⟩ := hpage.todo_eq
        rw [h] at hrest
        exact (List.append_eq_nil_iff.mp hrest.symm).1)
  refine ⟨⟨fh₁, [(0, reply)]⟩, ⟨fh₂, [(0, reply), (0, reply')]⟩, ?_, ?_, (0, reply'),
    List.mem_cons_of_mem _ (List.mem_singleton.mpr rfl), ?_⟩
  · have hrun : w.fs123Readdir ino 4096 0 ⟨mount, .new⟩ = .ok (.buf reply) ⟨mount₁, fh₁⟩ := hrun
    simp only [DirWorld.readStep, DirReader.opened, hrun, List.nil_append]
  · have hrun' : w.fs123Readdir ino 4096 0 ⟨mount, fh₁⟩ = .ok (.buf reply') ⟨mount₂, fh₂⟩ := hrun'
    simp only [DirWorld.readStep, hrun', List.singleton_append]
  · rintro ⟨before, after, hsplit, hoff, hend⟩
    have hbefore : before = [] := by
      have hzero : offAfter before = offAfter [] := Nat.cast_injective hoff.symm
      exact Listing.eq_of_offAfter (hsplit.trans (List.append_assoc _ _ _)) hstream hzero
    rw [hbefore, hreply, hend hreply] at hsplit
    have hspecials : Listing.specialsFrom ino 0 = specialDirents := if_pos hroot
    rw [Listing.stream, hspecials] at hsplit
    cases hsplit

/-- However a reader seeks among the offsets that it has been given, and whatever buffers it has, every call is
replied to with the entries behind the offset, exactly if the directory is not a root without entries of its own. -/
theorem readdir_resumes_iff {mount : MountState} (hmnt : Mounted w l ino pino mount) :
    (∀ calls, EachStep (w.readStep ino) (FairCall w l ino pino) .opened calls →
        ∃ r, Transition.run (w.readStep ino) .opened calls = some r ∧ ∀ q ∈ r.replies, l.Resumes w ino pino q.1 q.2)
      ↔ (ino = 1 → l.entries ≠ []) := by
  constructor
  · intro hall hroot hnil
    obtain ⟨r, r', hstep, hstep', q, hq, hbad⟩ := not_resumes_of_empty_root hmnt hroot hnil
    have hroom : ∀ d ∈ l.stream w ino pino, w.room d ≤ 4096 := fun d hd => le_trans (room_le hd) (by decide)
    have hfair : ∀ r, FairCall w l ino pino r ⟨mount, 4096, 0⟩ := fun r => ⟨hmnt, hroom, Or.inl rfl⟩
    obtain ⟨r₂, hrun, hgood⟩ := hall [⟨mount, 4096, 0⟩, ⟨mount, 4096, 0⟩]
      (eachStep_cons hstep (hfair _) (eachStep_cons hstep' (hfair _) eachStep_nil))
    obtain rfl : r' = r₂ := by
      rw [run_cons_eq_some] at hrun
      obtain ⟨t, ht, hrun⟩ := hrun
      obtain rfl : r = t := Option.some.inj (hstep.symm.trans ht)
      rw [run_cons_eq_some] at hrun
      obtain ⟨t', ht', hrun⟩ := hrun
      obtain rfl : r' = t' := Option.some.inj (hstep'.symm.trans ht')
      exact Option.some.inj hrun
    exact hbad (hgood q hq)
  · intro hroot calls hcalls
    obtain ⟨r, m, hrun, hreading⟩ := Reading.run hroot hcalls
    exact ⟨r, hrun, hreading.resumes⟩

end Runs

/-! A root without entries. -/

/-- The only page. -/
def emptyListing : Listing where
  pages := [([], [])]
  pages_ne := List.cons_ne_nil _ _
  start_eq_nil_iff i := by
    cases i <;> simp
  entries_ne i h := absurd h (by simp)
  length_lt := by decide

def emptyReply : DecodedReply := ⟨0, 0, true, ⟨0, ⟨0, []⟩,
  [(⟨0, keyCookie⟩, ⟨0, decimal 7⟩), (⟨0, keyNextstart⟩, ⟨0, []⟩)]⟩⟩

/-- What `fuse_add_direntry` takes for an entry on 64-bit Linux: a header of 24 bytes and the name, padded to a
multiple of 8. -/
def linuxDirentSize (name : Bytes) : ℕ := (24 + name.length + 7) / 8 * 8

theorem linuxDirentSize_pos (name : Bytes) : 0 < linuxDirentSize name := by
  unfold linuxDirentSize
  omega

theorem linuxDirentSize_le (name : Bytes) (h : name.length ≤ 255) : linuxDirentSize name ≤ 280 := by
  unfold linuxDirentSize
  omega

/-- A client without secrets, on 64-bit Linux. -/
def emptyWorld : DirWorld where
  cfg := ⟨3, 0⟩
  client := ⟨sodiumHi, none, true, false⟩
  chunk := 128
  ignoreEstaleMismatch := false
  answer _ _ := .ok emptyReply
  flush _ _ := .ok ()
  specialText _ := []
  stack := 8
  stInoMask := 2 ^ 64 - 1
  direntSize := linuxDirentSize
  direntSize_pos := linuxDirentSize_pos
  direntSize_le := linuxDirentSize_le

/-- The mount has just been made. -/
def emptyState : MountState where
  inomap := Function.update (fun _ => none) 1 (some ⟨[], 1, 77, 2 ^ 64 - 1⟩)
  attrcache := ⟨0, fun _ => none⟩
  rootCookie := none
  asked := 0
  notices := []

theorem emptyState_mounted : Mounted emptyWorld emptyListing 1 77 emptyState := by
  have hcookie : emptyReply.dec.estaleCookie = .ok 7 := by
    have h7 : svtoU 64 (decimal 7) = .ok 7 := svtoU_decimal (by decide)
    simp [Decoded.estaleCookie, Decoded.at, emptyReply, rethrowAs, bind, Except.bind, h7]
  refine ⟨rfl, [], rfl, fun i hi => ⟨⟨_, rfl⟩, fun n => ⟨emptyReply, rfl, ?_, 7, hcookie, Or.inr (Or.inl ⟨rfl, rfl⟩)⟩⟩⟩
  obtain rfl : i = 0 := by simpa [emptyListing] using hi
  exact ⟨rfl, rfl, by decide⟩

/-- Its special inodes can be lost. -/
theorem readdir_resumes_iff_empty : ¬ ∀ calls, EachStep (emptyWorld.readStep 1) (FairCall emptyWorld emptyListing 1 77)
    .opened calls → ∃ r, Transition.run (emptyWorld.readStep 1) .opened calls = some r
      ∧ ∀ q ∈ r.replies, emptyListing.Resumes emptyWorld 1 77 q.1 q.2 :=
  fun h => (readdir_resumes_iff emptyState_mounted).mp h rfl rfl

section GoingOn

variable {l : Listing} {w : DirWorld} {ino pino : Ino} {r : DirReader}

/-! ## Going on -/

/-- A reader that has gone on so far has received the beginning of the stream, and more with every call but those
at the end. -/
structure GoneOn (l : Listing) (w : DirWorld) (ino pino : Ino) (r : DirReader) (n : ℕ) : Prop where
  received : r.received <+: l.stream w ino pino
  progress : r.received = l.stream w ino pino ∨ n ≤ r.received.length
  complete : ∀ q ∈ r.replies, q.2 = [] → r.received = l.stream w ino pino

/-- The offset to go on with is one that has been returned. -/
theorem DirReader.returned_offAfter (r : DirReader) : r.Returned (offAfter r.received) := by
  rcases List.eq_nil_or_concat' r.received with hnil | ⟨init, d, hlast⟩
  · rw [hnil]
    exact Or.inl rfl
  · have hd : d ∈ r.received := by
      rw [hlast]
      exact List.mem_append_right _ (List.mem_singleton.mpr rfl)
    obtain ⟨q, hq, hmem⟩ := List.mem_flatMap.mp hd
    refine Or.inr ⟨q, hq, d, hmem, ?_⟩
    rw [hlast, Listing.offAfter_concat]

theorem GoneOn.step {m n : ℕ} {c : MountState × ℕ} (h : GoneOn l w ino pino r n) (hr : Reading l w ino pino r m)
    (hroot : ino = 1 → l.entries ≠ []) (hmnt : Mounted w l ino pino c.1)
    (hroom : ∀ d ∈ l.stream w ino pino, w.room d ≤ c.2) :
    ∃ r' m', w.readOn ino r c = some r' ∧ Reading l w ino pino r' m' ∧ GoneOn l w ino pino r' (n + 1) := by
  obtain ⟨reply, r', m', hstep, hreplies, hr'⟩ := hr.step (c := ⟨c.1, c.2, offAfter r.received⟩) hroot
    ⟨hmnt, hroom, r.returned_offAfter⟩
  have hreceived : r'.received = r.received ++ reply := by
    rw [DirReader.received, hreplies, List.flatMap_append, DirReader.received]
    simp
  obtain ⟨before, after, hsplit, hoff, hend⟩ : l.Resumes w ino pino (offAfter r.received) reply :=
    hr'.resumes _ (by rw [hreplies]; exact List.mem_append_right _ (List.mem_singleton.mpr rfl))
  obtain ⟨rest, hrest⟩ := h.received
  -- the reply comes behind what has been received
  obtain rfl : r.received = before :=
    Listing.eq_of_offAfter hrest.symm (hsplit.trans (List.append_assoc _ _ _)) (Nat.cast_injective hoff)
  refine ⟨r', m', hstep, hr', ⟨⟨after, ?_⟩, ?_, ?_⟩⟩
  · rw [hreceived, hsplit]
  · by_cases hnil : reply = []
    · refine Or.inl ?_
      rw [hreceived, hsplit, hend hnil, List.append_nil]
    · have hpos := List.length_pos_iff.mpr hnil
      rcases h.progress with hall | hlen
      · have hlength := congrArg List.length hsplit
        rw [hall, List.length_append, List.length_append] at hlength
        omega
      · refine Or.inr ?_
        rw [hreceived, List.length_append]
        omega
  · intro q hq hnil
    rw [hreplies] at hq
    rcases List.mem_append.mp hq with hq | hq
    · have hall := h.complete q hq hnil
      have hlength := congrArg List.length hsplit
      rw [← hall, List.length_append, List.length_append] at hlength
      have hreply : reply = [] := List.length_eq_zero_iff.mp (by omega)
      rw [hreceived, hreply, List.append_nil, hall]
    · obtain rfl := List.mem_singleton.mp hq
      have hreply : reply = [] := hnil
      rw [hreceived, hsplit, hend hreply, List.append_nil]

/-- A reader that goes on with the offset of the last entry gets the special inodes of the root and then each entry
of the directory once, in the order of the server: after as many calls as there are entries it has all of them, and
the first empty reply says so. -/
theorem readdir_once (hroot : ino = 1 → l.entries ≠ []) {calls : List (MountState × ℕ)}
    (hcalls : ∀ c ∈ calls, Mounted w l ino pino c.1 ∧ ∀ d ∈ l.stream w ino pino, w.room d ≤ c.2) :
    ∃ r, Transition.run (w.readOn ino) .opened calls = some r ∧ r.received <+: l.stream w ino pino
      ∧ (r.received = l.stream w ino pino ∨ calls.length ≤ r.received.length)
      ∧ ∀ q ∈ r.replies, q.2 = [] → r.received = l.stream w ino pino := by
  have hrun : ∃ r m, Transition.run (w.readOn ino) .opened calls = some r ∧ Reading l w ino pino r m
      ∧ GoneOn l w ino pino r calls.length := by
    induction calls using List.reverseRecOn with
    | nil =>
      exact ⟨.opened, 0, rfl, Reading.opened, ⟨List.nil_prefix, Or.inr (le_refl _), fun q hq => by cases hq⟩⟩
    | append_singleton calls c ih =>
      rw [List.forall_mem_append, List.forall_mem_singleton] at hcalls
      obtain ⟨r, m, hrun, hr, hgone⟩ := ih hcalls.1
      obtain ⟨r', m', hstep, hr', hgone'⟩ := hgone.step hr hroot hcalls.2.1 hcalls.2.2
      refine ⟨r', m', run_concat_eq_some.mpr ⟨r, hrun, hstep⟩, hr', ?_⟩
      rw [List.length_append]
      exact hgone'
  obtain ⟨r, m, hrun, -, hgone⟩ := hrun
  exact ⟨r, hrun, hgone.received, hgone.progress, hgone.complete⟩

end GoingOn

end Fs123
