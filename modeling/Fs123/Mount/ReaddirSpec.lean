import Fs123.Common.Ends
import Fs123.Common.Transition
import Fs123.Mount.ReaddirScan
import Fs123.Mount.ReadFile

/-!
# Reading a directory from any place

A directory that does not change is a list of pages (`Listing`). `Holds` says what a handle knows of it: where the
first pages begin, and the text of one of them. A call that is given the offset of any entry returned before goes on
behind that entry (`ends_readdir`), whatever has been read in between. `readdir_resumes_iff` and `readdir_once` are
about whole histories of calls.
-/

namespace Fs123

open Cxx Greedy Transition

/-! ## The directory -/

/-- A directory that is served page by page: each page has the start that it is asked for with. Only the last page
may be empty. -/
structure Listing where
  pages : List (Bytes × List Listed)
  pages_ne : pages ≠ []
  start_eq_nil_iff : ∀ i, ((pages[i]?).map Prod.fst).getD [] = [] ↔ i = 0 ∨ pages.length ≤ i
  entries_ne : ∀ i, i + 1 < pages.length → ((pages[i]?).map Prod.snd).getD [] ≠ []
  length_lt : 4 + (Listed.texts (pages.flatMap Prod.snd)).length < 2 ^ 63

namespace Listing

variable (l : Listing) (w : DirWorld) (ino pino : Ino)

/-- The start of a page; there is none behind the last one. -/
def start (i : ℕ) : Bytes := ((l.pages[i]?).map Prod.fst).getD []

/-- The entries of a page. -/
def page (i : ℕ) : List Listed := ((l.pages[i]?).map Prod.snd).getD []

/-- The entries in front of a page. -/
def upTo (i : ℕ) : List Listed := (l.pages.take i).flatMap Prod.snd

/-- All entries. -/
def entries : List Listed := l.pages.flatMap Prod.snd

/-- The offset of the first entry: the special inodes come before. -/
def base : ℕ := if ino = 1 then maxSpecialIno - 1 else 0

/-- The offset of a page. -/
def place (i : ℕ) : ℕ := base ino + (Listed.texts (l.upTo i)).length

/-- What a handle keeps of a page. -/
def bound (i : ℕ) : ℕ × Bytes := (l.place ino i, l.start i)

/-- The special inodes from an offset on. -/
def specialsFrom (off : ℕ) : List Dirent := if ino = 1 then specialDirents.drop off else []

/-- All that is to be read. -/
def stream : List Dirent := specialsFrom ino 0 ++ direntsOf w ino pino (base ino) l.entries

end Listing

/-- The offset behind some entries from the beginning. -/
def offAfter (before : List Dirent) : ℕ := (before.getLast?.map Dirent.off).getD 0

namespace Listing

variable {l : Listing} {w : DirWorld} {ino pino : Ino}

@[simp] theorem upTo_zero : l.upTo 0 = [] := rfl

theorem upTo_succ (i : ℕ) : l.upTo (i + 1) = l.upTo i ++ l.page i := by
  rw [upTo, List.take_add_one, List.flatMap_append, upTo, page]
  cases l.pages[i]? <;> simp

theorem upTo_prefix (i : ℕ) : l.upTo i <+: l.entries := by
  refine ⟨(l.pages.drop i).flatMap Prod.snd, ?_⟩
  rw [upTo, ← List.flatMap_append, List.take_append_drop]
  rfl

theorem upTo_length : l.upTo l.pages.length = l.entries := by
  rw [upTo, List.take_length]
  rfl

theorem place_zero : l.place ino 0 = base ino := rfl

theorem place_succ (i : ℕ) : l.place ino (i + 1) = l.place ino i + (Listed.texts (l.page i)).length := by
  rw [place, upTo_succ, Listed.texts_append, List.length_append, place, Nat.add_assoc]

theorem place_mono : Monotone (l.place ino) := by
  apply monotone_nat_of_le_succ
  intro i
  rw [place_succ]
  exact Nat.le_add_right _ _

theorem place_lt (i : ℕ) : l.place ino i < 2 ^ 63 := by
  obtain ⟨rest, hrest⟩ := l.upTo_prefix i
  have hlen := congrArg (fun es => (Listed.texts es).length) hrest
  simp only [Listed.texts_append, List.length_append] at hlen
  have hlt := l.length_lt
  have hbase : base ino ≤ 4 := by
    unfold base maxSpecialIno
    split_ifs <;> omega
  unfold place
  unfold entries at hlen
  omega

theorem length_pos : 0 < l.pages.length := List.length_pos_iff.mpr l.pages_ne

/-- A page without entries is the last one. -/
theorem page_ne_nil {i : ℕ} (h : i + 1 < l.pages.length) : l.page i ≠ [] := l.entries_ne i h

theorem start_isEmpty {i : ℕ} (h : i < l.pages.length) :
    (l.start (i + 1)).isEmpty = decide (i + 1 = l.pages.length) := by
  have hiff := l.start_eq_nil_iff (i + 1)
  rw [Bool.eq_iff_iff, List.isEmpty_iff, decide_eq_true_iff, start, hiff]
  omega

/-! ### Places in the stream -/

theorem length_direntsOf (off : ℕ) (es : List Listed) : (direntsOf w ino pino off es).length = es.length := by
  induction es generalizing off with
  | nil => rfl
  | cons e es ih => rw [direntsOf, List.length_cons, List.length_cons, ih]

/-- A list of entries is cut where its text is cut. -/
theorem direntsOf_split {off : ℕ} {es : List Listed} {a b : List Dirent} (h : direntsOf w ino pino off es = a ++ b) :
    ∃ done todo, es = done ++ todo ∧ a = direntsOf w ino pino off done
      ∧ b = direntsOf w ino pino (off + (Listed.texts done).length) todo := by
  refine ⟨es.take a.length, es.drop a.length, (List.take_append_drop _ _).symm, ?_⟩
  have hlen := congrArg List.length h
  rw [length_direntsOf, List.length_append] at hlen
  rw [← List.take_append_drop a.length es, direntsOf_append] at h
  have hinj := List.append_inj h (by rw [length_direntsOf, List.length_take]; omega)
  exact ⟨hinj.1.symm, hinj.2.symm⟩

theorem off_le_of_mem {off : ℕ} {es : List Listed} {d : Dirent} (h : d ∈ direntsOf w ino pino off es) :
    off < d.off ∧ d.off ≤ off + (Listed.texts es).length := by
  induction es generalizing off with
  | nil => cases h
  | cons e es ih =>
    have hpos := e.text_length_pos
    rw [Listed.texts_cons, List.length_append]
    rcases List.mem_cons.mp h with rfl | h
    · dsimp only [Listed.dirent]
      omega
    · have := ih h
      omega

theorem offAfter_concat (before : List Dirent) (d : Dirent) : offAfter (before ++ [d]) = d.off := by
  rw [offAfter, List.getLast?_concat]
  rfl

theorem getLast?_direntsOf {off : ℕ} {es : List Listed} (h : es ≠ []) :
    ((direntsOf w ino pino off es).getLast?.map Dirent.off) = some (off + (Listed.texts es).length) := by
  obtain ⟨init, e, rfl⟩ := (List.eq_nil_or_concat' es).resolve_left h
  rw [direntsOf_append, direntsOf, direntsOf, List.getLast?_concat, Listed.texts_append, List.length_append, Nat.add_assoc]
  simp [Listed.dirent]

/-- An offset in the stream: the special inodes that are left, and the entries whose text comes behind. -/
structure At (l : Listing) (w : DirWorld) (ino pino : Ino) (off : ℕ) (done todo : List Listed) (after : List Dirent) :
    Prop where
  entries : l.entries = done ++ todo
  after : after = specialsFrom ino off ++ direntsOf w ino pino (max off (base ino)) todo
  place : max off (base ino) = base ino + (Listed.texts done).length

theorem exists_at {before after : List Dirent} (h : l.stream w ino pino = before ++ after) :
    ∃ done todo, At l w ino pino (offAfter before) done todo after := by
  unfold stream at h
  by_cases hroot : ino = 1
  · have hbase : base ino = 4 := if_pos hroot
    have hspecials : ∀ off, specialsFrom ino off = specialDirents.drop off := fun off => if_pos hroot
    rw [hspecials, hbase, List.drop_zero] at h
    rcases List.append_eq_append_iff.mp h with ⟨front, hbefore, hrest⟩ | ⟨front, hspecial, hrest⟩
    · -- all special inodes are behind
      obtain ⟨done, todo, hsplit, hfront, hafter⟩ := direntsOf_split hrest
      have hoff : offAfter before = 4 + (Listed.texts done).length := by
        rw [hbefore, hfront, offAfter]
        by_cases hnil : done = []
        · rw [hnil]
          rfl
        · rw [List.getLast?_append_of_ne_nil _ (by simpa using hnil), getLast?_direntsOf hnil]
          rfl
      have hdrop : specialDirents.drop (4 + (Listed.texts done).length) = [] :=
        List.drop_eq_nil_of_le (Nat.le_add_right _ _)
      refine ⟨done, todo, hsplit, ?_, ?_⟩
      · rw [hspecials, hoff, hbase, hdrop, max_eq_left (Nat.le_add_right _ _), hafter]
        rfl
      · rw [hoff, hbase, max_eq_left (Nat.le_add_right _ _)]
    · -- some are left
      have hlen := congrArg List.length hspecial
      rw [List.length_append, show specialDirents.length = 4 from rfl] at hlen
      have htake : before = specialDirents.take before.length := by
        rw [hspecial, List.take_left]
      have hoff : offAfter before = before.length := by
        rw [htake]
        have hle : before.length ≤ 4 := by omega
        generalize before.length = k at hle
        interval_cases k <;> rfl
      refine ⟨[], l.entries, rfl, ?_, ?_⟩
      · rw [hspecials, hbase, hoff, max_eq_right (by omega), hrest, hspecial, List.drop_left]
      · rw [hbase, hoff, max_eq_right (by omega)]
        rfl
  · have hbase : base ino = 0 := if_neg hroot
    have hspecials : ∀ off, specialsFrom ino off = [] := fun off => if_neg hroot
    rw [hspecials, hbase, List.nil_append] at h
    obtain ⟨done, todo, hsplit, hbefore, hafter⟩ := direntsOf_split h
    have hoff : offAfter before = (Listed.texts done).length := by
      rw [hbefore, offAfter]
      by_cases hnil : done = []
      · rw [hnil]
        rfl
      · rw [getLast?_direntsOf hnil, Option.getD_some, Nat.zero_add]
    refine ⟨done, todo, hsplit, ?_, ?_⟩
    · rw [hspecials, hbase, hoff, Nat.max_zero, hafter, Nat.zero_add, List.nil_append]
    · rw [hbase, hoff, Nat.max_zero, Nat.zero_add]

/-! ### The page of a place -/

/-- The last page that is known and not behind a place. -/
theorem exists_upTo (done : List Listed) (m : ℕ) :
    ∃ p ≤ m, l.upTo p <+: done ∧ (p < m → ¬ l.upTo (p + 1) <+: done) := by
  induction m with
  | zero => exact ⟨0, le_refl _, List.nil_prefix, fun h => absurd h (lt_irrefl _)⟩
  | succ m ih =>
    by_cases hnext : l.upTo (m + 1) <+: done
    · exact ⟨m + 1, le_refl _, hnext, fun h => absurd h (lt_irrefl _)⟩
    · obtain ⟨p, hp, hprefix, hlast⟩ := ih
      refine ⟨p, Nat.le_succ_of_le hp, hprefix, fun _ => ?_⟩
      rcases Nat.lt_or_eq_of_le hp with h | rfl
      · exact hlast h
      · exact hnext

/-- The page that a place is in: it begins with what is `ahead` of the place, and `behind` is to be read. -/
structure Page (l : Listing) (ino : Ino) (m : ℕ) (done todo : List Listed) (p : ℕ) (ahead behind : List Listed) :
    Prop where
  lt : p < l.pages.length
  le : p ≤ m
  page : l.page p = ahead ++ behind
  done_eq : done = l.upTo p ++ ahead
  todo_eq : ∃ rest, todo = behind ++ rest
  nil : behind = [] → todo = []
  next : p < m → behind ≠ []

theorem exists_page {m : ℕ} {done todo : List Listed} (hm : m ≤ l.pages.length) (hsplit : l.entries = done ++ todo)
    (hknown : base ino + (Listed.texts done).length ≤ l.place ino m) (hend : ¬ (m = l.pages.length ∧ todo = [])) :
    ∃ p ahead behind, Page l ino m done todo p ahead behind := by
  obtain ⟨p, hp, ⟨ahead, hdone⟩, hlast⟩ := l.exists_upTo done m
  rcases Nat.lt_or_eq_of_le hp with hlt | rfl
  · -- the place is inside of the page `p`
    have hcomparable : done <+: l.upTo (p + 1) := by
      have hle := List.prefix_or_prefix_of_prefix (l.upTo_prefix (p + 1)) ⟨todo, hsplit.symm⟩
      exact hle.resolve_left (hlast hlt)
    obtain ⟨behind, hbehind⟩ := hcomparable
    have hpage : l.page p = ahead ++ behind := by
      rw [← hdone, upTo_succ, List.append_assoc] at hbehind
      exact (List.append_cancel_left hbehind).symm
    have hne : behind ≠ [] := by
      rintro rfl
      rw [List.append_nil] at hbehind
      exact hlast hlt ⟨[], by rw [List.append_nil, hbehind]⟩
    obtain ⟨rest, hrest⟩ := l.upTo_prefix (p + 1)
    have htodo : todo = behind ++ rest := by
      rw [← hrest, ← hbehind, List.append_assoc] at hsplit
      exact (List.append_cancel_left hsplit).symm
    exact ⟨p, ahead, behind, by omega, hp, hpage, hdone.symm, ⟨rest, htodo⟩, fun h => absurd h hne, fun _ => hne⟩
  · -- the place is where the next page to be fetched begins
    have hahead : ahead = [] := by
      rw [← hdone, Listed.texts_append, List.length_append, place] at hknown
      exact Listed.texts_eq_nil_iff.mp (List.length_eq_zero_iff.mp (by omega))
    rw [hahead, List.append_nil] at hdone
    have hlt : p < l.pages.length := by
      rcases Nat.lt_or_eq_of_le hm with h | rfl
      · exact h
      · rw [upTo_length] at hdone
        rw [← hdone] at hsplit
        exact absurd ⟨rfl, List.self_eq_append_right.mp hsplit⟩ hend
    obtain ⟨rest, hrest⟩ := l.upTo_prefix (p + 1)
    have htodo : todo = l.page p ++ rest := by
      rw [← hrest, upTo_succ, hdone, List.append_assoc] at hsplit
      exact (List.append_cancel_left hsplit).symm
    refine ⟨p, [], l.page p, hlt, hp, rfl, by rw [hdone, List.append_nil], ⟨rest, htodo⟩, ?_,
      fun h => absurd h (lt_irrefl _)⟩
    intro hnil
    have hlast : p + 1 = l.pages.length := by
      by_contra hne
      exact l.page_ne_nil (by omega) hnil
    rw [hlast, upTo_length] at hrest
    rw [htodo, hnil, List.self_eq_append_right.mp hrest.symm, List.append_nil]

theorem Page.place_le {m p : ℕ} {done todo ahead behind : List Listed} (h : Page l ino m done todo p ahead behind) :
    base ino + (Listed.texts done).length = l.place ino p + (Listed.texts ahead).length := by
  rw [h.done_eq, Listed.texts_append, List.length_append, place, Nat.add_assoc]

theorem Page.lt_place {m p : ℕ} {done todo ahead behind : List Listed} (h : Page l ino m done todo p ahead behind)
    (hne : behind ≠ []) : base ino + (Listed.texts done).length < l.place ino (p + 1) := by
  have hpos : 0 < (Listed.texts behind).length :=
    List.length_pos_iff.mpr fun hnil => hne (Listed.texts_eq_nil_iff.mp hnil)
  rw [h.place_le, place_succ, h.page, Listed.texts_append, List.length_append]
  omega

end Listing

/-! ## The handle -/

/-- The handle as `readdir` takes it: the special inodes of the root are in front of the first page. -/
def FhState.entered (ino : Ino) (fh : FhState) : FhState := if ino = 1 then fh.setFirst (maxSpecialIno - 1) else fh

/-- The handle knows the places of the first pages, up to the one behind page `m`, and has the text of one of them. -/
structure Holds (l : Listing) (ino : Ino) (fh : FhState) (m : ℕ) : Prop where
  le : m ≤ l.pages.length
  offsets : fh.offsets = (List.range (m + 1)).map (l.bound ino)
  eof : fh.eof = decide (m = l.pages.length)
  contents : (fh.contents = [] ∧ fh.contentsFirstByteOffset = 0) ∨ ∃ i < m,
    fh.contents = Listed.texts (l.page i) ∧ fh.contentsFirstByteOffset = l.place ino i

namespace Holds

variable {l : Listing} {ino : Ino} {fh : FhState} {m : ℕ}

theorem back (h : Holds l ino fh m) : fh.back = l.bound ino m := by
  have hlast : fh.offsets.getLast? = some (l.bound ino m) := by
    rw [h.offsets, List.range_succ, List.map_append, List.map_singleton, List.getLast?_concat]
  rw [List.getLast?_eq_some_getLast fh.offsets_ne, Option.some.injEq] at hlast
  exact hlast

theorem getElem? (h : Holds l ino fh m) {i : ℕ} (hi : i ≤ m) : fh.offsets[i]? = some (l.bound ino i) := by
  rw [h.offsets, List.getElem?_map, List.getElem?_range (Nat.lt_succ_of_le hi)]
  rfl

theorem length (h : Holds l ino fh m) : fh.offsets.length = m + 1 := by
  rw [h.offsets, List.length_map, List.length_range]

/-- The first place is set to what it is. -/
theorem entered (h : Holds l ino fh m) : fh.entered ino = fh := by
  unfold FhState.entered
  split
  · next hroot =>
    have hfirst : fh.offsets.modifyHead (fun p => (maxSpecialIno - 1, p.2)) = fh.offsets := by
      have hbase : l.place ino 0 = maxSpecialIno - 1 := if_pos hroot
      rw [h.offsets, List.range_succ_eq_map, List.map_cons, List.modifyHead_cons, Listing.bound, hbase]
    cases fh
    simp only [FhState.setFirst, hfirst]
  · rfl

theorem new (l : Listing) (ino : Ino) : Holds l ino (FhState.new.entered ino) 0 := by
  have hpos := l.length_pos
  have heof : false = decide (0 = l.pages.length) := (decide_eq_false (by omega)).symm
  have hstart : l.start 0 = [] := (l.start_eq_nil_iff 0).mpr (Or.inl rfl)
  unfold FhState.entered
  by_cases hroot : ino = 1
  · rw [if_pos hroot]
    refine ⟨Nat.zero_le _, ?_, heof, Or.inl ⟨rfl, rfl⟩⟩
    have hbase : l.place ino 0 = maxSpecialIno - 1 := if_pos hroot
    rw [List.range_one, List.map_singleton, Listing.bound, hbase, hstart]
    rfl
  · rw [if_neg hroot]
    refine ⟨Nat.zero_le _, ?_, heof, Or.inl ⟨rfl, rfl⟩⟩
    have hbase : l.place ino 0 = 0 := if_neg hroot
    rw [List.range_one, List.map_singleton, Listing.bound, hbase, hstart]
    rfl

/-- The upper bound in `offsets` finds the page of a place. -/
theorem chunkOf (h : Holds l ino fh m) {pos p : ℕ} (hp : p ≤ m) (hle : l.place ino p ≤ pos)
    (hlt : p < m → pos < l.place ino (p + 1)) : fh.chunkOf pos = p + 1 := by
  have hsplit : fh.offsets = (List.range (p + 1)).map (l.bound ino)
      ++ ((List.range (m - p)).map fun i => l.bound ino (p + 1 + i)) := by
    have hm : m + 1 = p + 1 + (m - p) := by omega
    rw [h.offsets, hm, List.range_add, List.map_append, List.map_map]
    rfl
  have hbefore : ∀ x ∈ (List.range (p + 1)).map (l.bound ino), (!decide (pos < x.1)) = true := by
    intro x hx
    obtain ⟨i, hi, rfl⟩ := List.mem_map.mp hx
    have hmono : l.place ino i ≤ l.place ino p := l.place_mono (Nat.le_of_lt_succ (List.mem_range.mp hi))
    rw [Bool.not_eq_true', decide_eq_false_iff_not, not_lt]
    exact le_trans hmono hle
  have hbehind : ∀ x ∈ (List.range (m - p)).map (fun i => l.bound ino (p + 1 + i)),
      (!decide (pos < x.1)) = false := by
    intro x hx
    obtain ⟨i, hi, rfl⟩ := List.mem_map.mp hx
    have hmono : l.place ino (p + 1) ≤ l.place ino (p + 1 + i) := l.place_mono (Nat.le_add_right _ _)
    have hi := List.mem_range.mp hi
    rw [Bool.not_eq_false', decide_eq_true_iff]
    exact lt_of_lt_of_le (hlt (by omega)) hmono
  rw [FhState.chunkOf, hsplit, LowerBound.lowerBound_append hbefore hbehind, List.length_map, List.length_range]

/-- A place in the text that is there is in the page whose text it is. -/
theorem inside (h : Holds l ino fh m) {pos p : ℕ} (hp : p ≤ m) (hle : l.place ino p ≤ pos)
    (hlt : p < m → pos < l.place ino (p + 1)) (hin : fh.outside pos = false) :
    fh.contents = Listed.texts (l.page p) ∧ fh.contentsFirstByteOffset = l.place ino p := by
  unfold FhState.outside at hin
  rw [Bool.or_eq_false_iff, decide_eq_false_iff_not, decide_eq_false_iff_not, not_lt, not_le] at hin
  rcases h.contents with ⟨hnil, hfirst⟩ | ⟨i, hi, hcontents, hfirst⟩
  · rw [hnil, hfirst] at hin
    exact absurd hin.2 (Nat.not_lt_zero _)
  · have hend : addW fh.contentsFirstByteOffset fh.contents.length = l.place ino (i + 1) := by
      have hlen : l.place ino (i + 1) < 2 ^ 63 := l.place_lt _
      rw [Listing.place_succ] at hlen
      rw [hcontents, hfirst, Listing.place_succ, addW_eq (by unfold sizeMod; omega)]
    rw [hend, hfirst] at hin
    obtain rfl : i = p := by
      rcases lt_trichotomy i p with hip | hip | hip
      · have hmono : l.place ino (i + 1) ≤ l.place ino p := l.place_mono hip
        omega
      · exact hip
      · have hmono : l.place ino (p + 1) ≤ l.place ino i := l.place_mono hip
        have := hlt (by omega)
        omega
    exact ⟨hcontents, hfirst⟩

end Holds

/-! ## One call -/

/-- A reply with the entries of a page. -/
structure Listing.Carries (l : Listing) (i : ℕ) (reply : DecodedReply) : Prop where
  eno : reply.dec.eno = 0
  content : reply.dec.content.data = Listed.texts (l.page i)
  next : reply.dec.chunkNextStart = .ok (l.start (i + 1))

/-- `cookie_mismatch` does not complain about the reply. -/
def World.CookieKept (w : World) (ino : Ino) (s : MountState) (reply : DecodedReply) : Prop :=
  ∃ cookie, reply.dec.estaleCookie = .ok cookie
    ∧ (w.ignoreEstaleMismatch = true ∨ (ino = 1 ∧ s.rootCookie.getD cookie = cookie)
      ∨ (maxSpecialIno < ino ∧ ∃ r, s.inomap ino = some r ∧ genino cookie r.pino r.name = ino))

/-- The directory can be asked for: it is in the inode map, and every request for a page is answered with that
page. -/
structure Mounted (w : DirWorld) (l : Listing) (ino pino : Ino) (s : MountState) : Prop where
  pino : s.inomap.inoToPino ino = .ok pino
  pages : ∃ name, s.inomap.inoToFullname w.stack ino = .ok name ∧ ∀ i < l.pages.length,
    (∃ stem, w.client.encryptRequest (w.cfg.urlstem (.dir name w.chunk (l.start i))) = .ok stem)
    ∧ ∀ n, ∃ reply, w.answer n ⟨.dir name w.chunk (l.start i), none, false⟩ = .ok reply
      ∧ l.Carries i reply ∧ w.CookieKept ino s reply

section Call

variable {l : Listing} {w : DirWorld} {ino pino : Ino} {mount : MountState} {fh : FhState} {m : ℕ} {b : DirBuf}

theorem World.CookieKept.mismatches {w : World} {s t : MountState} {reply : DecodedReply}
    (h : w.CookieKept ino s reply) (heno : reply.dec.eno = 0) (hmap : t.inomap = s.inomap)
    (hcookie : t.rootCookie = s.rootCookie) :
    Ends (w.mismatches ino true reply) t (fun bad u => bad = false ∧ u.inomap = t.inomap) := by
  obtain ⟨cookie, hreply, hkept⟩ := h
  unfold World.mismatches
  rw [if_pos ⟨heno, rfl⟩]
  refine Ends.step cookie t ?_ ?_
  · simp only [MountM.ofRes, hreply]
  by_cases hzero : ino = 0
  · exact ⟨false, t, by simp [World.cookieMismatch, hzero], rfl, rfl⟩
  rcases hkept with hignore | ⟨hroot, hsame⟩ | ⟨hord, r, hr, hgen⟩
  · exact ⟨false, t, by simp [World.cookieMismatch, hzero, hignore], rfl, rfl⟩
  · by_cases hignore : w.ignoreEstaleMismatch
    · exact ⟨false, t, by simp [World.cookieMismatch, hzero, hignore], rfl, rfl⟩
    · refine ⟨false, { t with rootCookie := some cookie }, ?_, rfl, rfl⟩
      simp [World.cookieMismatch, hroot, hignore, hcookie, hsame]
  · exact ⟨false, t, World.cookieMismatch_eq hord (hmap ▸ hr) hgen, rfl, rfl⟩

/-- A page is got as it is. -/
theorem Mounted.ends_begetchunkDir (h : Mounted w l ino pino mount) {i : ℕ} (hi : i < l.pages.length) :
    Ends (w.begetchunkDir ino (l.start i)) mount
      (fun reply t => l.Carries i reply ∧ t.inomap = mount.inomap) := by
  obtain ⟨name, hname, hpages⟩ := h.pages
  obtain ⟨⟨stem, hstem⟩, hanswer⟩ := hpages i hi
  obtain ⟨reply, hreply, hcarries, hkept⟩ := hanswer mount.asked
  unfold DirWorld.begetchunkDir
  refine Ends.step name mount ?_ ?_
  · simp only [MountM.ofRes, hname]
  unfold World.beget
  refine Ends.step stem mount ?_ ?_
  · simp only [World.encryptRequest, MountM.ofRes, hstem]
  refine Ends.step reply { mount with asked := mount.asked + 1 } ?_ ?_
  · simp only [World.begetDecode, hreply]
  refine Ends.bind (hkept.mismatches hcarries.eno rfl rfl) ?_
  rintro bad t ⟨rfl, hmap⟩
  exact Ends.pure ⟨hcarries, hmap⟩

theorem ends_onMount {α : Type} {x : MountM α} {s : DirState} {Q : α → MountState → Prop} (h : Ends x s.mount Q) :
    Ends (onMount x) s (fun a t => Q a t.mount ∧ t.fh = s.fh) := by
  obtain ⟨a, mount', hx, hQ⟩ := h
  refine ⟨a, { s with mount := mount' }, ?_, hQ, rfl⟩
  simp only [onMount, hx]

theorem onMount_ofRes {α : Type} {x : MountState → Res α} {s : DirState} {a : α} (h : x s.mount = .ok a) :
    onMount (MountM.ofRes x) s = .ok a s := by
  simp only [onMount, MountM.ofRes, h]

/-- What `load` leaves: the text of the page `p` is in the handle. -/
structure Loaded (l : Listing) (ino : Ino) (m p : ℕ) (mount : MountState) (t : DirState) : Prop where
  holds : Holds l ino t.fh (max m (p + 1))
  contents : t.fh.contents = Listed.texts (l.page p)
  first : t.fh.contentsFirstByteOffset = l.place ino p
  inomap : t.mount.inomap = mount.inomap

theorem ends_fetch (hmnt : Mounted w l ino pino mount) (hfh : Holds l ino fh m) {p : ℕ} (hp : p ≤ m)
    (hlt : p < l.pages.length) :
    Ends (w.fetch ino (p + 1)) ⟨mount, fh⟩ (fun eno t => eno = 0 ∧ Loaded l ino m p mount t) := by
  unfold DirWorld.fetch
  refine Ends.step _ _ rfl ?_
  rw [Nat.add_sub_cancel, hfh.getElem? hp]
  dsimp only [Listing.bound]
  refine Ends.bind (ends_onMount (hmnt.ends_begetchunkDir hlt)) ?_
  rintro reply ⟨mount', fh'⟩ ⟨⟨hcarries, hmap⟩, rfl⟩
  rw [if_neg (not_not.mpr hcarries.eno)]
  refine Ends.step _ _ rfl ?_
  rw [hfh.length, hcarries.content]
  by_cases hnew : p = m
  · -- the page is fetched for the first time
    subst hnew
    rw [if_pos rfl]
    refine Ends.step _ _ (onMount_ofRes hcarries.next) ?_
    refine Ends.step _ _ rfl ?_
    refine Ends.step _ _ rfl ?_
    refine Ends.pure ⟨rfl, ?_, rfl, rfl, hmap⟩
    have hmax : max p (p + 1) = p + 1 := max_eq_right (Nat.le_succ _)
    have hplace : l.place ino (p + 1) < 2 ^ 63 := l.place_lt _
    rw [Listing.place_succ] at hplace
    rw [hmax]
    refine ⟨hlt, ?_, l.start_isEmpty hlt, Or.inr ⟨p, Nat.lt_succ_self _, rfl, rfl⟩⟩
    rw [addW_eq (by unfold sizeMod; omega), ← Listing.place_succ, List.range_succ, List.map_append, ← hfh.offsets]
    rfl
  · rw [if_neg (by omega)]
    refine Ends.step _ _ rfl ?_
    refine Ends.step _ _ rfl ?_
    refine Ends.pure ⟨rfl, ?_, rfl, rfl, hmap⟩
    have hmax : max m (p + 1) = m := max_eq_left (by omega)
    rw [hmax]
    exact ⟨hfh.le, hfh.offsets, hfh.eof, Or.inr ⟨p, by omega, rfl, rfl⟩⟩

/-- After `load` the page of the place is there, whether it had to be fetched or not. -/
theorem ends_load (hmnt : Mounted w l ino pino mount) (hfh : Holds l ino fh m) {done todo ahead behind : List Listed}
    {p : ℕ} (hpage : l.Page ino m done todo p ahead behind) :
    Ends (w.load ino (Listing.base ino + (Listed.texts done).length)) ⟨mount, fh⟩
      (fun eno t => eno = 0 ∧ Loaded l ino m p mount t) := by
  have hle : l.place ino p ≤ Listing.base ino + (Listed.texts done).length := by
    rw [hpage.place_le]
    exact Nat.le_add_right _ _
  have hnext : p < m → Listing.base ino + (Listed.texts done).length < l.place ino (p + 1) :=
    fun h => hpage.lt_place (hpage.next h)
  unfold DirWorld.load
  refine Ends.step _ _ rfl ?_
  dsimp only
  cases hout : fh.outside (Listing.base ino + (Listed.texts done).length) with
  | true =>
    rw [if_pos rfl, hfh.chunkOf hpage.le hle hnext, if_pos (Nat.succ_pos _)]
    exact ends_fetch hmnt hfh hpage.le hpage.lt
  | false =>
    rw [if_neg Bool.false_ne_true, if_neg (lt_irrefl _)]
    obtain ⟨hcontents, hfirst⟩ := hfh.inside hpage.le hle hnext hout
    refine Ends.pure ⟨rfl, ?_, hcontents, hfirst, rfl⟩
    -- the text of a page that has never been fetched is not there
    have hlt : p < m ∨ p = m := Nat.lt_or_eq_of_le hpage.le
    rcases hlt with hlt | rfl
    · rw [max_eq_left (by omega)]
      exact hfh
    · unfold FhState.outside at hout
      rw [Bool.or_eq_false_iff, decide_eq_false_iff_not, decide_eq_false_iff_not, not_lt, not_le] at hout
      rcases hfh.contents with ⟨hnil, hzero⟩ | ⟨i, hi, hi_contents, hi_first⟩
      · rw [hnil, hzero] at hout
        exact absurd hout.2 (Nat.not_lt_zero _)
      · have hmono : l.place ino (i + 1) ≤ l.place ino p := l.place_mono hi
        have hend : l.place ino (i + 1) < 2 ^ 63 := l.place_lt _
        have hlast := hout.2
        rw [hi_contents, hi_first, addW_eq (by rw [Listing.place_succ] at hend; unfold sizeMod; omega),
          ← Listing.place_succ] at hlast
        omega

/-- The entries behind the place, out of the page that has been loaded. -/
theorem ends_readEntries {t : DirState} (hmnt : Mounted w l ino pino mount) {done todo ahead behind : List Listed}
    {p bufsz : ℕ} (hpage : l.Page ino m done todo p ahead behind) (ht : Loaded l ino m p mount t) :
    Ends (w.readEntries ino bufsz (Listing.base ino + (Listed.texts done).length) b) t
      (fun r u => r = .buf (b.fill w bufsz (direntsOf w ino pino
        (Listing.base ino + (Listed.texts done).length) behind)).entries ∧ u = t) := by
  obtain ⟨name, hname, -⟩ := hmnt.pages
  have hlen : (Listed.texts (l.page p)).length
      = (Listed.texts ahead).length + (Listed.texts behind).length := by
    rw [hpage.page, Listed.texts_append, List.length_append]
  have hbound : l.place ino (p + 1) < 2 ^ 63 := l.place_lt _
  rw [Listing.place_succ] at hbound
  have hdrop : (Listed.texts (l.page p)).drop (Listed.texts ahead).length = Listed.texts behind := by
    rw [hpage.page, Listed.texts_append, List.drop_left]
  have hsub : subW (Listing.base ino + (Listed.texts done).length) (l.place ino p) = (Listed.texts ahead).length := by
    rw [hpage.place_le, subW_eq (Nat.le_add_right _ _) (by unfold sizeMod; omega), Nat.add_sub_cancel_left]
  have hwhite : svscanWhite (Listed.texts (l.page p)) (Listed.texts ahead).length = (Listed.texts ahead).length :=
    svscanWhite_of_head (by omega) (by rw [hdrop]; exact Listed.texts_head_not_white behind)
  unfold DirWorld.readEntries
  refine Ends.step name t (onMount_ofRes (by rw [ht.inomap]; exact hname)) ?_
  refine Ends.step _ _ rfl ?_
  dsimp only
  rw [ht.contents, ht.first, hsub, hwhite, ite_self]
  have hadd := addEntries_text bufsz (w := w) (b := b) (m := t.mount.inomap)
    (by rw [ht.inomap]; exact hmnt.pino) (show l.place ino p + (Listed.texts (l.page p)).length < sizeMod by
      unfold sizeMod; omega) (show (Listed.texts ahead).length ≤ _ by omega) hdrop
  rw [← hpage.place_le] at hadd
  refine Ends.step _ t (onMount_ofRes hadd) ?_
  exact Ends.pure ⟨rfl, rfl⟩

/-- The special inodes that are left come first. -/
theorem ends_readSpecials (bufsz off : ℕ) : Ends (w.readSpecials ino bufsz off) ⟨mount, fh⟩ (fun r t =>
    r.1 = DirBuf.fill w bufsz ⟨[], 0⟩ (Listing.specialsFrom ino off)
      ∧ r.2.2 = (fitting w.room bufsz (Listing.specialsFrom ino off)).2.isEmpty
      ∧ (r.2.2 = true → r.2.1 = max off (Listing.base ino))
      ∧ t = ⟨mount, if r.2.2 then fh.entered ino else fh⟩) := by
  unfold DirWorld.readSpecials
  by_cases hroot : ino = 1
  · have hspecials : Listing.specialsFrom ino off = specialDirents.drop off := if_pos hroot
    have hbase : Listing.base ino = maxSpecialIno - 1 := if_pos hroot
    rw [if_pos hroot, hspecials, hbase]
    refine Ends.step _ _ (onMount_ofRes (addSpecials_eq rfl)) ?_
    dsimp only
    rw [Nat.sub_zero]
    refine Ends.ite (fun hall => ?_) (fun hall => ?_)
    · refine Ends.step _ _ rfl (Ends.pure ⟨rfl, hall.symm, fun _ => rfl, ?_⟩)
      rw [if_pos rfl, FhState.entered, if_pos hroot]
    · exact Ends.pure ⟨rfl, (Bool.not_eq_true _ ▸ hall).symm, fun h => absurd h Bool.false_ne_true, rfl⟩
  · have hspecials : Listing.specialsFrom ino off = [] := if_neg hroot
    have hbase : Listing.base ino = 0 := if_neg hroot
    rw [if_neg hroot, hspecials, hbase, DirBuf.fill_nil, Nat.max_zero]
    refine Ends.pure ⟨rfl, rfl, fun _ => rfl, ?_⟩
    rw [if_pos rfl, FhState.entered, if_neg hroot]

/-- How a call at a place can end: the buffer is full of special inodes, or the end is known and reached, or what
is behind the place in its page is added. -/
inductive Outcome (l : Listing) (w : DirWorld) (ino pino : Ino) (bufsz : ℕ) (fh : FhState) (m off : ℕ)
    (done todo : List Listed) : List Dirent → FhState → Prop
  | short : (fitting w.room bufsz (Listing.specialsFrom ino off)).2 ≠ [] →
      Outcome l w ino pino bufsz fh m off done todo (fitting w.room bufsz (Listing.specialsFrom ino off)).1 fh
  | atEnd : (fitting w.room bufsz (Listing.specialsFrom ino off)).2 = [] → m = l.pages.length → todo = [] →
      Outcome l w ino pino bufsz fh m off done todo [] (fh.entered ino)
  | page (p : ℕ) (ahead behind : List Listed) (fh' : FhState) :
      (fitting w.room bufsz (Listing.specialsFrom ino off)).2 = [] → l.Page ino m done todo p ahead behind →
      Holds l ino fh' (max m (p + 1)) →
      Outcome l w ino pino bufsz fh m off done todo (fitting w.room bufsz (Listing.specialsFrom ino off
        ++ direntsOf w ino pino (max off (Listing.base ino)) behind)).1 fh'

/-- One call, at any place that the handle knows. -/
theorem ends_readdir (hmnt : Mounted w l ino pino mount) (hfh : Holds l ino (fh.entered ino) m) {off size : ℕ}
    {done todo : List Listed} {after : List Dirent} (hat : l.At w ino pino off done todo after)
    (hknown : max off (Listing.base ino) ≤ l.place ino m) :
    Ends (w.fs123Readdir ino size off) ⟨mount, fh⟩ (fun r t => ∃ reply, r = .buf reply
      ∧ Outcome l w ino pino (min size 4096) fh m off done todo reply t.fh) := by
  have hoff : safeSize (off : ℤ) = .ok off := by
    rw [safeSize, if_neg (not_lt.mpr (Int.natCast_nonneg off)), Int.toNat_natCast]
  have hmax : l.place ino l.pages.length = Listing.base ino + (Listed.texts l.entries).length := by
    rw [Listing.place, Listing.upTo_length]
  unfold DirWorld.fs123Readdir
  refine Ends.step off _ (onMount_ofRes hoff) ?_
  refine Ends.bind (ends_readSpecials (min size 4096) off) ?_
  rintro ⟨b, nextoff, all⟩ t ⟨rfl, hall, hnext, rfl⟩
  dsimp only at hall hnext ⊢
  cases all with
  | false =>
    have hshort : (fitting w.room (min size 4096) (Listing.specialsFrom ino off)).2 ≠ [] :=
      fun hnil => by rw [hnil] at hall; cases hall
    rw [if_neg Bool.false_ne_true]
    exact Ends.pure ⟨_, rfl, Outcome.short hshort⟩
  | true =>
    have hfits : (fitting w.room (min size 4096) (Listing.specialsFrom ino off)).2 = [] :=
      List.isEmpty_iff.mp hall.symm
    rw [if_pos rfl, hnext rfl]
    refine Ends.step _ _ rfl ?_
    dsimp only [if_true]
    have hback : (fh.entered ino).back.1 = l.place ino m := congrArg Prod.fst hfh.back
    rw [if_pos rfl, if_neg (show ¬ (fh.entered ino).back.1 < _ by rw [hback]; exact not_lt.mpr hknown)]
    by_cases hend : m = l.pages.length ∧ todo = []
    · -- the end has been seen
      obtain ⟨hm, hnil⟩ := hend
      have hplace : max off (Listing.base ino) = l.place ino m := by
        rw [hat.place, hm, hmax, hat.entries, hnil, List.append_nil]
      have heof : (fh.entered ino).eof = true := by
        rw [hfh.eof]
        exact decide_eq_true hm
      rw [if_pos ⟨hplace.trans hback.symm, heof⟩]
      exact Ends.pure ⟨_, rfl, Outcome.atEnd hfits hm hnil⟩
    · have hnot : ¬ (max off (Listing.base ino) = (fh.entered ino).back.1 ∧ (fh.entered ino).eof = true) := by
        rintro ⟨hplace, heof⟩
        rw [hfh.eof] at heof
        have hm := of_decide_eq_true heof
        rw [hback, hat.place, hm, hmax, hat.entries, Listed.texts_append, List.length_append] at hplace
        have hzero : Listed.texts todo = [] := List.length_eq_zero_iff.mp (by omega)
        exact hend ⟨hm, Listed.texts_eq_nil_iff.mp hzero⟩
      rw [if_neg hnot]
      rw [hat.place] at hknown ⊢
      obtain ⟨p, ahead, behind, hpage⟩ := Listing.exists_page hfh.le hat.entries hknown hend
      refine Ends.bind (ends_load hmnt hfh hpage) ?_
      rintro eno t ⟨rfl, ht⟩
      rw [if_neg (not_not.mpr rfl)]
      refine Ends.mono (ends_readEntries hmnt hpage ht) ?_
      rintro r u ⟨rfl, rfl⟩
      refine ⟨_, rfl, ?_⟩
      have hfill : (DirBuf.fill w (min size 4096) (DirBuf.fill w (min size 4096) ⟨[], 0⟩
            (Listing.specialsFrom ino off)) (direntsOf w ino pino (Listing.base ino + (Listed.texts done).length)
              behind)).entries
          = (fitting w.room (min size 4096) (Listing.specialsFrom ino off
            ++ direntsOf w ino pino (max off (Listing.base ino)) behind)).1 := by
        have hwhole := fitting_append w.room (min size 4096) (Listing.specialsFrom ino off)
        rw [hfits, List.append_nil] at hwhole
        rw [hat.place, fitting_append_right hfits]
        simp only [DirBuf.fill, Nat.sub_zero, Nat.zero_add, List.nil_append, hwhole]
      rw [hfill]
      exact Outcome.page p ahead behind _ hfits hpage ht.holds

/-! ## What a call replies -/

theorem fitting_prefix (left : ℕ) (ds : List Dirent) : (fitting w.room left ds).1 <+: ds :=
  ⟨_, fitting_append w.room left ds⟩

/-- If there is room for each of the entries, only nothing fits as nothing. -/
theorem fitting_eq_nil {left : ℕ} {ds : List Dirent} (hroom : ∀ d ∈ ds, w.room d ≤ left)
    (h : (fitting w.room left ds).1 = []) : ds = [] := by
  by_contra hne
  obtain ⟨sent, e, rest, hfit, -⟩ := fitting_concat hroom hne
  rw [hfit] at h
  exact List.append_ne_nil_of_right_ne_nil _ (List.cons_ne_nil _ _) h

theorem off_le_base {off : ℕ} {d : Dirent} (h : d ∈ Listing.specialsFrom ino off) : d.off ≤ Listing.base ino := by
  unfold Listing.specialsFrom at h
  split at h
  · next hroot =>
    rw [Listing.base, if_pos hroot]
    have hmem := (List.drop_sublist off specialDirents).subset h
    have hall : ∀ x ∈ specialDirents, x.off ≤ maxSpecialIno - 1 := by decide
    exact hall d hmem
  · cases h

/-- The reply goes on where the place is, and it is empty at the end only. The handle knows all offsets in it. -/
theorem Outcome.resumes {bufsz off : ℕ} {done todo : List Listed} {after reply : List Dirent} {fh' : FhState}
    (h : Outcome l w ino pino bufsz fh m off done todo reply fh') (hfh : Holds l ino (fh.entered ino) m)
    (hat : l.At w ino pino off done todo after) (hroom : ∀ d ∈ after, w.room d ≤ bufsz)
    (hroot : ino = 1 → l.entries ≠ []) :
    reply <+: after ∧ (reply = [] → after = [])
      ∧ ∃ m', m ≤ m' ∧ Holds l ino (fh'.entered ino) m' ∧ ∀ d ∈ reply, d.off ≤ l.place ino m' := by
  have hafter := hat.after
  have hbase : Listing.base ino ≤ l.place ino m := Nat.le_add_right _ _
  cases h with
  | short hshort =>
    have hfirst := fitting_prefix (w := w) bufsz (Listing.specialsFrom ino off)
    refine ⟨?_, ?_, m, le_refl _, hfh, ?_⟩
    · rw [hafter]
      exact hfirst.trans (List.prefix_append _ _)
    · intro hnil
      have hspecials : Listing.specialsFrom ino off = [] := by
        refine fitting_eq_nil (fun d hd => hroom d ?_) hnil
        rw [hafter]
        exact List.mem_append_left _ hd
      rw [hspecials] at hshort
      exact absurd rfl hshort
    · intro d hd
      exact le_trans (off_le_base (hfirst.subset hd)) hbase
  | atEnd hfits hm hnil =>
    refine ⟨List.nil_prefix, fun _ => ?_, m, le_refl _, ?_, by simp⟩
    · -- a place behind all entries is behind the special inodes
      have hspecials : Listing.specialsFrom ino off = [] := by
        unfold Listing.specialsFrom
        split
        · next hone =>
          have hpos : 0 < (Listed.texts done).length := by
            rw [List.length_pos_iff]
            intro htexts
            have hdone := Listed.texts_eq_nil_iff.mp htexts
            exact hroot hone (by rw [hat.entries, hdone, hnil]; rfl)
          have hplace := hat.place
          have hfour : Listing.base ino = 4 := if_pos hone
          exact List.drop_eq_nil_of_le (show 4 ≤ off by omega)
        · rfl
      rw [hafter, hspecials, hnil]
      rfl
    · rw [hfh.entered]
      exact hfh
  | page p ahead behind fh' hfits hpage hholds =>
    obtain ⟨rest, hrest⟩ := hpage.todo_eq
    have hsplit : after = (Listing.specialsFrom ino off ++ direntsOf w ino pino (max off (Listing.base ino)) behind)
        ++ direntsOf w ino pino (max off (Listing.base ino) + (Listed.texts behind).length) rest := by
      rw [hafter, hrest, direntsOf_append, List.append_assoc]
    have hfirst := fitting_prefix (w := w) bufsz
      (Listing.specialsFrom ino off ++ direntsOf w ino pino (max off (Listing.base ino)) behind)
    refine ⟨?_, ?_, max m (p + 1), le_max_left _ _, ?_, ?_⟩
    · rw [hsplit]
      exact hfirst.trans (List.prefix_append _ _)
    · intro hnil
      have hempty := fitting_eq_nil (fun d hd => hroom d (by rw [hsplit]; exact List.mem_append_left _ hd)) hnil
      obtain ⟨hspecials, hentries⟩ := List.append_eq_nil_iff.mp hempty
      rw [hafter, hspecials, hpage.nil (direntsOf_eq_nil_iff.mp hentries)]
      rfl
    · rw [hholds.entered]
      exact hholds
    · intro d hd
      rcases List.mem_append.mp (hfirst.subset hd) with hd | hd
      · exact le_trans (off_le_base hd) (Nat.le_add_right _ _)
      · have hle := (Listing.off_le_of_mem hd).2
        have hnext : l.place ino (p + 1) ≤ l.place ino (max m (p + 1)) := l.place_mono (le_max_right _ _)
        rw [hat.place, hpage.place_le, Nat.add_assoc, ← List.length_append, ← Listed.texts_append, ← hpage.page,
          ← Listing.place_succ] at hle
        exact le_trans hle hnext

end Call

end Fs123
