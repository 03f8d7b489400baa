import Fs123.Common.Greedy
import Fs123.Core.Numeral
import Fs123.Core.NetstringStream
import Fs123.Core.StatScan
import Fs123.Mount.Readdir

/-!
# The text of a directory, read back

`scanDirent_text`: what is scanned at the place where the text of an entry begins is that entry. So the loop over a
chunk adds the entries of the text, as many as fit (`addEntries_text`), and the loop over the special inodes does the
same with those that are left (`addSpecials_eq`).
-/

namespace Fs123

open Cxx Greedy

/-! ## One entry -/

/-- An entry as the server lists it. -/
structure Listed where
  name : Bytes
  dType : ℤ
  estaleCookie : ℕ
  name_ne : name ≠ []
  name_le : name.length ≤ 255
  dType_ge : -2 ^ 31 ≤ dType
  dType_lt : dType < 2 ^ 31
  cookie_lt : estaleCookie < 2 ^ 64

namespace Listed

/-- The line of an entry. -/
def text (e : Listed) : Bytes :=
  netstring e.name ++ [ch ' '] ++ decimalInt e.dType ++ [ch ' '] ++ decimal e.estaleCookie ++ [ch '\n']

/-- The lines of a list of entries. -/
def texts (es : List Listed) : Bytes := es.flatMap text

@[simp] theorem texts_nil : texts [] = [] := rfl

@[simp] theorem texts_cons (e : Listed) (es : List Listed) : texts (e :: es) = e.text ++ texts es := rfl

theorem texts_append (es es' : List Listed) : texts (es ++ es') = texts es ++ texts es' := List.flatMap_append

theorem text_ne_nil (e : Listed) : e.text ≠ [] := by simp [text]

theorem text_length_pos (e : Listed) : 0 < e.text.length := List.length_pos_iff.mpr e.text_ne_nil

/-- A text begins with a digit. -/
theorem text_head (e : Listed) : ∃ d < 10, ∃ l, e.text = digitByte d :: l := by
  obtain ⟨d, hd, l, hl⟩ := netstring_cons e.name
  refine ⟨d, hd, l ++ [ch ' '] ++ decimalInt e.dType ++ [ch ' '] ++ decimal e.estaleCookie ++ [ch '\n'], ?_⟩
  rw [text, hl]
  rfl

theorem texts_head_not_white (es : List Listed) : ∀ c, (texts es).head? = some c → isWhite c = false := by
  intro c hc
  cases es with
  | nil => cases hc
  | cons e es =>
    obtain ⟨d, hd, l, hl⟩ := e.text_head
    rw [texts_cons, hl, List.cons_append, List.head?_cons, Option.some.injEq] at hc
    exact hc ▸ isWhite_digitByte hd

theorem texts_eq_nil_iff {es : List Listed} : texts es = [] ↔ es = [] := by
  cases es with
  | nil => simp
  | cons e es => simp [e.text_ne_nil]

end Listed

section Scan

variable {sv rest : Bytes} {start : ℕ}

theorem skipWhite_of_head (h : ∀ c, (sv.drop start).head? = some c → isWhite c = false) : skipWhite sv start = start := by
  unfold skipWhite
  cases hdrop : sv.drop start with
  | nil => rfl
  | cons c l =>
    rw [hdrop] at h
    rw [List.takeWhile_cons_of_neg (by rw [h c rfl]; exact Bool.false_ne_true)]
    rfl

/-- White space ends where the next entry begins. -/
theorem svscanWhite_of_head (hle : start ≤ sv.length) (h : ∀ c, (sv.drop start).head? = some c → isWhite c = false) :
    svscanWhite sv start = start := by
  rw [svscanWhite, if_neg (not_lt.mpr hle), skipWhite_of_head h]

/-- One newline is skipped. -/
theorem svscanWhite_newline (hsv : sv.drop start = ch '\n' :: rest)
    (hrest : ∀ c, rest.head? = some c → isWhite c = false) : svscanWhite sv start = start + 1 := by
  have hdrop := drop_of_drop_cons hsv
  have hnext : skipWhite sv (start + 1) = start + 1 := skipWhite_of_head (by rw [hdrop]; exact hrest)
  have hlt := lt_of_drop_cons hsv
  rw [svscanWhite, if_neg (by omega)]
  unfold skipWhite at hnext ⊢
  rw [hsv, List.takeWhile_cons, if_pos (by decide), List.length_cons]
  rw [hdrop] at hnext
  omega

theorem scanDirent_text (hsv : sv.length < sizeMod) (e : Listed) (h : sv.drop start = e.text ++ rest)
    (hrest : ∀ c, rest.head? = some c → isWhite c = false) :
    scanDirent sv start = .ok ⟨e.name, e.dType, e.estaleCookie, start + e.text.length⟩ := by
  -- the places behind the name, the type and the cookie
  obtain ⟨p, hp⟩ : ∃ p, p = start + (netstring e.name).length := ⟨_, rfl⟩
  obtain ⟨q, hq⟩ : ∃ q, q = p + 1 + (decimalInt e.dType).length := ⟨_, rfl⟩
  obtain ⟨t, ht⟩ : ∃ t, t = q + 1 + (decimal e.estaleCookie).length := ⟨_, rfl⟩
  have hend : start + e.text.length = t + 1 := by
    rw [ht, hq, hp, Listed.text]
    simp only [List.length_append, List.length_singleton]
    omega
  have hname : sv.drop start = netstring e.name
      ++ (ch ' ' :: (decimalInt e.dType ++ (ch ' ' :: (decimal e.estaleCookie ++ (ch '\n' :: rest))))) := by
    rw [h, Listed.text]
    simp
  have hp0 := drop_of_drop_append hname
  rw [← hp] at hp0
  have hp1 := drop_of_drop_cons hp0
  have hq0 := drop_of_drop_append hp1
  rw [← hq] at hq0
  have hq1 := drop_of_drop_cons hq0
  have ht0 := drop_of_drop_append hq1
  rw [← ht] at ht0
  have hscan : svscanNetstring true sv start = .ok (⟨start + (decimal e.name.length).length + 1, e.name⟩, p) := by
    rw [hp]
    exact svscanNetstring_netstring hsv (show IsNetstringAt sv start e.name from ⟨_, hname.symm⟩)
  have hspace : ∀ l, EndsNumber (ch ' ' :: l) := fun l => EndsNumber.cons l (by decide)
  have htype : scanintS 32 0 true sv p = .ok (e.dType, q) := by
    have hskip : scanintS 32 0 true sv p = scanintS 32 0 true sv (p + 1) := svscanInt_space (t := .signed 32) hp0
    rw [hskip, scanintS_decimalInt (by decide) e.dType_ge e.dType_lt hp1 (hspace _), hq]
  have hcookie : scanintU 64 0 true sv q = .ok (e.estaleCookie, t) := by
    have hskip : scanintU 64 0 true sv q = scanintU 64 0 true sv (q + 1) := by
      unfold scanintU
      simp only [if_true, skipWhite_space hq0]
    rw [hskip, scanintU_decimal true e.cookie_lt hq1 (EndsNumber.cons _ (by decide)), ht]
  have hwhite := svscanWhite_newline ht0 hrest
  have hlen : ¬ 255 < e.name.length := not_lt.mpr e.name_le
  have hne : ¬ e.name.length = 0 := fun h0 => e.name_ne (List.length_eq_zero_iff.mp h0)
  unfold scanDirent
  rw [hscan, ok_bind]
  dsimp only
  rw [if_neg hlen, if_neg hne, htype, ok_bind]
  dsimp only
  rw [hcookie, ok_bind]
  dsimp only
  rw [hwhite, if_neg (by omega), catchE_ok, hend]

end Scan

/-! ## The entries of a text -/

/-- What is replied for an entry of a directory `ino`, whose directory is `pino`. -/
def Listed.dirent (w : DirWorld) (ino pino : Ino) (e : Listed) (off : ℕ) : Dirent where
  name := cstr e.name
  ino :=
    if e.name = bytes "." ∧ ino ≠ 0 then ino
    else if e.name = bytes ".." ∧ pino ≠ 0 then pino
    else genino e.estaleCookie ino e.name &&& w.stInoMask
  mode := if e.name = bytes "." ∨ e.name = bytes ".." then sIfdir else dtypeToMode e.dType
  off := off

/-- What is replied for the entries whose text begins at `off`. -/
def direntsOf (w : DirWorld) (ino pino : Ino) : ℕ → List Listed → List Dirent
  | _, [] => []
  | off, e :: es => e.dirent w ino pino (off + e.text.length) :: direntsOf w ino pino (off + e.text.length) es

/-- The room for a reply's entry. -/
def DirWorld.room (w : DirWorld) (d : Dirent) : ℕ := w.direntSize d.name

section Entries

variable {w : DirWorld} {m : Inomap} {ino pino : Ino}

theorem direntsOf_append (off : ℕ) (es es' : List Listed) : direntsOf w ino pino off (es ++ es')
    = direntsOf w ino pino off es ++ direntsOf w ino pino (off + (Listed.texts es).length) es' := by
  induction es generalizing off with
  | nil => rfl
  | cons e es ih =>
    simp only [List.cons_append, direntsOf, ih, Listed.texts_cons, List.length_append, Nat.add_assoc]

@[simp] theorem direntsOf_eq_nil_iff {off : ℕ} {es : List Listed} : direntsOf w ino pino off es = [] ↔ es = [] := by
  cases es <;> simp [direntsOf]

theorem direntOf_listed (hpino : m.inoToPino ino = .ok pino) (e : Listed) (next off : ℕ) :
    w.direntOf m ino ⟨e.name, e.dType, e.estaleCookie, next⟩ off = .ok (e.dirent w ino pino off) := by
  have hne : bytes "." ≠ bytes ".." := by decide
  unfold DirWorld.direntOf
  by_cases hdot : e.name = bytes "."
  · simp [hdot, hne, Listed.dirent, ok_bind]
  · by_cases hdotdot : e.name = bytes ".."
    · simp [hdotdot, hne.symm, hpino, Listed.dirent, ok_bind]
    · simp [hdot, hdotdot, Listed.dirent, ok_bind]

/-- The buffer after what fits of `ds` has been added. -/
def DirBuf.fill (w : DirWorld) (bufsz : ℕ) (b : DirBuf) (ds : List Dirent) : DirBuf :=
  ⟨b.entries ++ (fitting w.room (bufsz - b.used) ds).1, b.used + ((fitting w.room (bufsz - b.used) ds).1.map w.room).sum⟩

theorem DirBuf.fill_nil (bufsz : ℕ) (b : DirBuf) : b.fill w bufsz [] = b := by
  simp [DirBuf.fill, fitting]

theorem DirBuf.fill_cons_of_lt {bufsz : ℕ} {b : DirBuf} {d : Dirent} (h : bufsz - b.used < w.room d) (ds : List Dirent) :
    b.fill w bufsz (d :: ds) = b := by
  simp [DirBuf.fill, fitting, not_le.mpr h]

theorem DirBuf.fill_cons_of_le {bufsz : ℕ} {b : DirBuf} {d : Dirent} (h : w.room d ≤ bufsz - b.used) (ds : List Dirent) :
    b.fill w bufsz (d :: ds) = DirBuf.fill w bufsz ⟨b.entries ++ [d], b.used + w.room d⟩ ds := by
  simp [DirBuf.fill, fitting_cons h, Nat.sub_add_eq, Nat.add_assoc]

/-- The loop adds what fits of the entries that the rest of the text is made of. -/
theorem addEntries_text (bufsz : ℕ) {first nextoff : ℕ} {contents : Bytes} {b : DirBuf} {es : List Listed}
    (hpino : m.inoToPino ino = .ok pino) (hsize : first + contents.length < sizeMod) (hle : nextoff ≤ contents.length)
    (h : contents.drop nextoff = Listed.texts es) :
    w.addEntries m ino bufsz contents first nextoff b
      = .ok (b.fill w bufsz (direntsOf w ino pino (first + nextoff) es)) := by
  induction es generalizing nextoff b with
  | nil =>
    have hnlt : ¬ nextoff < contents.length := not_lt.mpr (List.drop_eq_nil_iff.mp h)
    rw [DirWorld.addEntries, if_neg hnlt, direntsOf, DirBuf.fill_nil]
  | cons e es ih =>
    have hnext := le_of_drop_append h hle
    have hlt : nextoff < contents.length := by
      have := e.text_length_pos
      omega
    have hscan := scanDirent_text (by omega) e h (Listed.texts_head_not_white es)
    have hone : w.nextDirent m ino contents first nextoff
        = .ok (e.dirent w ino pino (first + nextoff + e.text.length), nextoff + e.text.length) := by
      unfold DirWorld.nextDirent
      rw [hscan, ok_bind]
      dsimp only
      rw [direntOf_listed hpino, ok_bind, addW_eq (by omega), Nat.add_assoc]
    rw [DirWorld.addEntries, if_pos hlt, hone]
    dsimp only
    rw [direntsOf]
    by_cases hroom : bufsz - b.used < w.room (e.dirent w ino pino (first + nextoff + e.text.length))
    · rw [if_pos (show bufsz - b.used < w.direntSize _ from hroom), DirBuf.fill_cons_of_lt hroom]
    · rw [if_neg (show ¬ bufsz - b.used < w.direntSize _ from hroom), DirBuf.fill_cons_of_le (not_lt.mp hroom),
        Nat.add_assoc first]
      exact ih hnext (drop_of_drop_append h)

end Entries

/-! ## The special inodes -/

/-- The entries of the special inodes, in order. -/
def specialDirents : List Dirent :=
  [⟨bytes ".fs123_statistics", 2, sIfreg ||| 0o444, 1⟩, ⟨bytes ".fs123_ioctl", 3, sIfreg ||| 0o400, 2⟩,
    ⟨bytes ".fs123_config", 4, sIfreg ||| 0o444, 3⟩, ⟨bytes ".fs123_server_statistics", 5, sIfreg ||| 0o444, 4⟩]

theorem specialDirent_eq {nextoff : ℕ} (h : nextoff < 4) :
    (specialDirents[nextoff]?).map Except.ok = some (specialDirent (nextoff + 1 + 1) (nextoff + 1)) := by
  interval_cases nextoff <;> rfl

/-- The loop adds what fits of the special inodes that are left. -/
theorem addSpecials_eq {w : DirWorld} {bufsz left nextoff : ℕ} {b : DirBuf} (h : left = 4 - nextoff) :
    addSpecials w bufsz left nextoff b = .ok (b.fill w bufsz (specialDirents.drop nextoff),
      (fitting w.room (bufsz - b.used) (specialDirents.drop nextoff)).2.isEmpty) := by
  induction left generalizing nextoff b with
  | zero =>
    have hdrop : specialDirents.drop nextoff = [] := List.drop_eq_nil_of_le (show 4 ≤ nextoff by omega)
    rw [hdrop, DirBuf.fill_nil]
    rfl
  | succ left ih =>
    have hlt : nextoff < specialDirents.length := by
      have hlen : specialDirents.length = 4 := rfl
      omega
    have hone : specialDirent (nextoff + 1 + 1) (nextoff + 1) = .ok specialDirents[nextoff] := by
      have hget := specialDirent_eq (show nextoff < 4 by omega)
      rw [List.getElem?_eq_getElem hlt, Option.map_some, Option.some.injEq] at hget
      exact hget.symm
    rw [addSpecials, hone, ok_bind, List.drop_eq_getElem_cons hlt]
    by_cases hroom : bufsz - b.used < w.room specialDirents[nextoff]
    · have hnone : b.add w bufsz specialDirents[nextoff] = none := if_pos hroom
      rw [hnone, DirBuf.fill_cons_of_lt hroom, fitting, if_neg (not_le.mpr hroom)]
      rfl
    · have hsome : b.add w bufsz specialDirents[nextoff]
          = some ⟨b.entries ++ [specialDirents[nextoff]], b.used + w.room specialDirents[nextoff]⟩ := if_neg hroom
      rw [hsome, DirBuf.fill_cons_of_le (not_lt.mp hroom), fitting_cons (not_lt.mp hroom)]
      dsimp only
      rw [ih (by omega), Nat.sub_add_eq]

end Fs123
