import Fs123.Common.Memory
import Fs123.Core.Exn

/-!
# Lines from a buffer

The model of `core123/processlines.hpp`. The loop keeps a part of the stream in a buffer, moves it to the front when it
holds no delimiter, and asks the fill callback for more. What is buffered and what is unread make up the rest of the
stream (`Buffered`), however the callback cuts it into pieces.
-/

namespace Fs123

open Cxx

/-! ## The program -/

/-- A `fillbuf` callback over a stream: `unread` is the part that it has not delivered yet. Its pieces are not larger than
asked for, and one is empty only at the end of the stream or when nothing was asked for. -/
structure Fillbuf (σ : Type) where
  fill : σ → ℕ → Bytes × σ
  unread : σ → Bytes
  unread_eq : ∀ s n, unread s = (fill s n).1 ++ unread (fill s n).2
  length_le : ∀ s n, (fill s n).1.length ≤ n
  nonempty : ∀ s n, 0 < n → unread s ≠ [] → (fill s n).1 ≠ []

/-- The loop of `processlines` with the buffer `buf`: the lines that it calls `f` with, and how it ends. `none` is out of
fuel. -/
def processlinesLoop {σ : Type} (fb : Fillbuf σ) (eofshortread : Bool) (bufsize : ℕ) (delim : UInt8) :
    ℕ → Bytes → ℕ → ℕ → σ → Option (List Bytes × Res σ)
  | 0, _, _, _, _ => none
  | fuel + 1, buf, bufstart, buflen, s =>
    -- `memchr`
    match findChar (slice buf bufstart buflen) delim 0 with
    | some n =>
      (processlinesLoop fb eofshortread bufsize delim fuel buf (bufstart + (n + 1)) (buflen - (n + 1)) s).map
        fun r => (slice buf bufstart n :: r.1, r.2)
    | none =>
      let buf := if 0 < bufstart then writeAt buf 0 (slice buf bufstart buflen) else buf
      if buflen = bufsize then
        some ([], throwE .runtimeError (bytes "out of buffer space, line too long?! buflen=" ++ decimal buflen
          ++ bytes " bufsize=" ++ decimal bufsize))
      else
        let (piece, s) := fb.fill s (bufsize - buflen)
        if piece = [] ∧ eofshortread = true then
          if buflen = 0 then some ([], .ok s) else some ([slice buf 0 buflen], .ok s)
        else processlinesLoop fb eofshortread bufsize delim fuel (writeAt buf buflen piece) 0 (buflen + piece.length) s

/-- `processlines(fillbuf, f, eofshortread, bufsize, delim)`. -/
def processlines {σ : Type} (fb : Fillbuf σ) (eofshortread : Bool) (bufsize : ℕ) (delim : UInt8) (fuel : ℕ) (s : σ) :
    Option (List Bytes × Res σ) :=
  processlinesLoop fb eofshortread bufsize delim fuel (zeros bufsize) 0 0 s

/-- The lines of a text: it is split at the delimiter, and nothing behind the last one is no line. -/
def linesOf (delim : UInt8) (text : Bytes) : List Bytes :=
  let parts := text.splitOn delim
  if parts.getLast? = some [] then parts.dropLast else parts

/-! ## The lines of a text -/

section Lines

variable {delim : UInt8} {l rest : Bytes}

theorem beq_delim (h : delim ∉ l) : ∀ x ∈ l, (x == delim) = false := by
  intro x hx
  refine beq_eq_false_iff_ne.mpr ?_
  rintro rfl
  exact h hx

theorem splitOn_of_not_mem (h : delim ∉ l) : l.splitOn delim = [l] := by
  rw [List.splitOn_eq_splitOnP]
  exact List.splitOnP_eq_singleton (beq_delim h)

@[simp] theorem linesOf_nil (delim : UInt8) : linesOf delim [] = [] := by
  simp [linesOf]

/-- A last line without delimiter. -/
theorem linesOf_last (h : delim ∉ l) (hne : l ≠ []) : linesOf delim l = [l] := by
  simp [linesOf, splitOn_of_not_mem h, hne]

theorem linesOf_cons (h : delim ∉ l) : linesOf delim (l ++ delim :: rest) = l :: linesOf delim rest := by
  have hsplit : (l ++ delim :: rest).splitOn delim = l :: rest.splitOn delim := by
    rw [List.splitOn_eq_splitOnP, List.splitOn_eq_splitOnP]
    exact List.splitOnP_append_cons_of_forall_mem (beq_delim h) delim (beq_self_eq_true delim) rest
  have hne : rest.splitOn delim ≠ [] := List.splitOn_ne_nil _ _
  unfold linesOf
  rw [hsplit]
  dsimp only
  rw [List.getLast?_cons_of_ne_nil hne, List.dropLast_cons_of_ne_nil hne]
  split <;> rfl

/-- Bytes without a delimiter are a part of one line. -/
theorem exists_line_of_not_mem (h : delim ∉ l) (hne : l ≠ []) (rest : Bytes) :
    ∃ line ∈ linesOf delim (l ++ rest), l.length ≤ line.length := by
  by_cases hmem : delim ∈ rest
  · obtain ⟨a, b, rfl, ha⟩ := List.eq_append_cons_of_mem hmem
    have hnot : delim ∉ l ++ a := fun hla => (List.mem_append.mp hla).elim h ha
    rw [← List.append_assoc, linesOf_cons hnot]
    exact ⟨l ++ a, List.mem_cons_self, by rw [List.length_append]; omega⟩
  · have hnot : delim ∉ l ++ rest := fun hla => (List.mem_append.mp hla).elim h hmem
    rw [linesOf_last hnot (List.append_ne_nil_of_left_ne_nil hne rest)]
    exact ⟨l ++ rest, List.mem_singleton_self _, by rw [List.length_append]; omega⟩

end Lines

/-! ## The loop -/

section Loop

variable {σ : Type} (fb : Fillbuf σ) {bufsize : ℕ} {delim : UInt8}

/-- The buffer when the part in use has been moved to its front. -/
theorem slice_moved {buf : Bytes} {bufstart buflen : ℕ} (hin : bufstart + buflen ≤ buf.length) :
    let moved := if 0 < bufstart then writeAt buf 0 (slice buf bufstart buflen) else buf
    moved.length = buf.length ∧ slice moved 0 buflen = slice buf bufstart buflen := by
  have hlen : (slice buf bufstart buflen).length = buflen := by
    rw [slice_length]
    omega
  dsimp only
  split
  · refine ⟨writeAt_length (by omega), ?_⟩
    have hself : slice (writeAt buf 0 (slice buf bufstart buflen)) 0 (slice buf bufstart buflen).length
        = slice buf bufstart buflen := slice_writeAt_self (Nat.zero_le _)
    rwa [hlen] at hself
  · next hstart =>
    obtain rfl : bufstart = 0 := by omega
    exact ⟨rfl, rfl⟩

/-- A piece behind what is in use. -/
theorem slice_filled {buf piece : Bytes} {buflen : ℕ} (hin : buflen + piece.length ≤ buf.length) :
    slice (writeAt buf buflen piece) 0 (buflen + piece.length) = slice buf 0 buflen ++ piece := by
  have htake : (buf.take buflen).length = buflen := List.length_take_of_le (by omega)
  rw [slice_zero, slice_zero, writeAt, List.take_left' (by rw [List.length_append, htake])]

/-- The induction is on the fuel: a call of `f` uses up buffered bytes, and a fill moves unread bytes to the buffer. -/
theorem processlinesLoop_eq (hpos : 0 < bufsize) (fuel : ℕ) {buf : Bytes} {bufstart buflen : ℕ} {s : σ}
    (hbuf : buf.length = bufsize) (hin : bufstart + buflen ≤ bufsize)
    (hlong : ∀ line ∈ linesOf delim (slice buf bufstart buflen ++ fb.unread s), line.length < bufsize)
    (hfuel : 2 * (fb.unread s).length + buflen + 2 ≤ fuel) :
    ∃ s', fb.unread s' = [] ∧ processlinesLoop fb true bufsize delim fuel buf bufstart buflen s
      = some (linesOf delim (slice buf bufstart buflen ++ fb.unread s), .ok s') := by
  induction fuel generalizing buf bufstart buflen s with
  | zero => omega
  | succ fuel ih =>
    have hlen : (slice buf bufstart buflen).length = buflen := by
      rw [slice_length]
      omega
    rw [processlinesLoop]
    cases hfind : findChar (slice buf bufstart buflen) delim 0 with
    | some n =>
      obtain ⟨k, hk, hnot, hget⟩ := findChar_eq_some hfind
      rw [Nat.zero_add] at hk
      subst hk
      rw [List.drop_zero] at hnot hget
      have hlt : n < buflen := by
        by_contra hge
        rw [List.getElem?_eq_none (by omega)] at hget
        cases hget
      have hline : slice buf bufstart n = (slice buf bufstart buflen).take n := by
        rw [slice, slice, List.take_take, Nat.min_eq_left hlt.le]
      have hrest : slice buf (bufstart + (n + 1)) (buflen - (n + 1)) = (slice buf bufstart buflen).drop (n + 1) := by
        rw [slice, slice, List.drop_take, List.drop_drop]
      obtain ⟨l, hl⟩ := exists_drop_of_getElem? hget
      have hsplit : slice buf bufstart buflen ++ fb.unread s = slice buf bufstart n
          ++ delim :: (slice buf (bufstart + (n + 1)) (buflen - (n + 1)) ++ fb.unread s) := by
        rw [hline, hrest, drop_of_drop_cons hl]
        nth_rewrite 1 [← List.take_append_drop n (slice buf bufstart buflen)]
        rw [hl, List.append_assoc, List.cons_append]
      rw [hsplit, linesOf_cons (hline ▸ hnot)] at hlong ⊢
      obtain ⟨s', hend, hloop⟩ := ih (s := s) hbuf (by omega)
        (fun line hmem => hlong line (List.mem_cons_of_mem _ hmem)) (by omega)
      refine ⟨s', hend, ?_⟩
      dsimp only
      rw [hloop]
      rfl
    | none =>
      have hnot : delim ∉ slice buf bufstart buflen := by simpa using findChar_eq_none hfind
      have hroom : buflen ≠ bufsize := by
        intro hfull
        have hne : slice buf bufstart buflen ≠ [] := List.ne_nil_of_length_pos (by omega)
        obtain ⟨line, hmem, hle⟩ := exists_line_of_not_mem hnot hne (fb.unread s)
        have hlt := hlong line hmem
        omega
      have hin' : bufstart + buflen ≤ buf.length := by omega
      obtain ⟨hmoved, hslice⟩ := slice_moved hin'
      have hread := fb.unread_eq s (bufsize - buflen)
      have hle := fb.length_le s (bufsize - buflen)
      have hmore := fb.nonempty s (bufsize - buflen) (by omega)
      generalize fb.fill s (bufsize - buflen) = filled at hread hle hmore ⊢
      obtain ⟨piece, s₁⟩ := filled
      dsimp only at hmoved hslice hread hle hmore ⊢
      generalize (if 0 < bufstart then writeAt buf 0 (slice buf bufstart buflen) else buf) = moved at hmoved hslice
      rw [if_neg hroom]
      by_cases hpiece : piece = []
      · have hend : fb.unread s = [] := by
          by_contra hne
          exact hmore hne hpiece
        rw [hpiece, hend, List.nil_append] at hread
        rw [if_pos ⟨hpiece, rfl⟩, hend, List.append_nil]
        by_cases hzero : buflen = 0
        · have hnil : slice buf bufstart buflen = [] := List.length_eq_zero_iff.mp (by omega)
          rw [if_pos hzero, hnil, linesOf_nil]
          exact ⟨s₁, hread.symm, rfl⟩
        · have hne : slice buf bufstart buflen ≠ [] := List.ne_nil_of_length_pos (by omega)
          rw [if_neg hzero, linesOf_last hnot hne, hslice]
          exact ⟨s₁, hread.symm, rfl⟩
      · have hpos' := List.length_pos_iff.mpr hpiece
        have hroom : buflen + piece.length ≤ moved.length := by omega
        have hfill := slice_filled hroom
        rw [hslice] at hfill
        have htotal : slice buf bufstart buflen ++ fb.unread s
            = slice (writeAt moved buflen piece) 0 (buflen + piece.length) ++ fb.unread s₁ := by
          rw [hfill, hread, List.append_assoc]
        have hlength := congrArg List.length hread
        rw [List.length_append] at hlength
        rw [if_neg fun h => hpiece h.1]
        rw [htotal] at hlong ⊢
        exact ih (by rw [writeAt_length (by omega), hmoved, hbuf]) (by omega) hlong (by omega)

end Loop

/-- However the fill callback cuts the stream into pieces, `f` is called with its lines, each once and in order, and the
loop ends at the end of the stream. -/
theorem processlines_lines {σ : Type} (fb : Fillbuf σ) (s : σ) (delim : UInt8) {bufsize : ℕ} (hpos : 0 < bufsize)
    (hlong : ∀ line ∈ linesOf delim (fb.unread s), line.length < bufsize) :
    ∀ fuel, 2 * (fb.unread s).length + 2 ≤ fuel → ∃ s', fb.unread s' = []
      ∧ processlines fb true bufsize delim fuel s = some (linesOf delim (fb.unread s), .ok s') := by
  intro fuel hfuel
  have hnil : slice (zeros bufsize) 0 0 = [] := rfl
  have hloop := @processlinesLoop_eq _ fb bufsize delim hpos fuel _ 0 0 s (zeros_length bufsize) (Nat.zero_le _)
  rw [hnil, List.nil_append] at hloop
  exact hloop hlong (by omega)

/-- A callback that delivers at most `k` bytes at a time. -/
def Fillbuf.pieces (k : ℕ) (hk : 0 < k) : Fillbuf Bytes where
  fill s n := (s.take (min k n), s.drop (min k n))
  unread s := s
  unread_eq s n := (List.take_append_drop (min k n) s).symm
  length_le s n := (List.length_take_le _ _).trans (Nat.min_le_right k n)
  nonempty s n hn hs := by
    refine List.ne_nil_of_length_pos ?_
    rw [List.length_take]
    have hpos := List.length_pos_iff.mpr hs
    omega

/-- Two lines, an empty one between them, in pieces of two bytes. -/
theorem processlines_lines_abc : ∃ s', s' = [] ∧ processlines (.pieces 2 (by decide)) true 3 (ch '\n') 12 (bytes "ab\n\nc")
    = some ([bytes "ab", [], bytes "c"], .ok s') :=
  processlines_lines (.pieces 2 (by decide)) (bytes "ab\n\nc") (ch '\n') (by decide) (by decide) 12 (by decide)

end Fs123
