import Fs123.Core.Exn
import Mathlib.Data.List.TakeWhile
import Mathlib.Tactic.IntervalCases

/-!
# Input streams

A `std::istream` in the C locale over a text, with no exception mask. There are no i/o errors, so `badbit` is never
set: the state is the text that is left, `eofbit` and `failbit`.
-/

namespace Fs123

open Cxx

/-- `::isspace` in the C locale. -/
def isspace (c : UInt8) : Bool := c = ch ' ' || (9 ≤ c && c ≤ 13)

/-- A `std::istream`. -/
structure IStream where
  rest : Bytes
  eof : Bool
  fail : Bool
  deriving Repr, DecidableEq

namespace IStream

/-- A stream that holds a text. -/
def of (text : Bytes) : IStream := ⟨text, false, false⟩

/-- `inp.good()`. -/
def good (inp : IStream) : Bool := !inp.eof && !inp.fail

/-- `inp.get()`; `none` is `EOF`. -/
def get (inp : IStream) : Option UInt8 × IStream :=
  if inp.good then
    match inp.rest with
    | [] => (none, ⟨[], true, true⟩)
    | c :: rest => (some c, ⟨rest, false, false⟩)
  else (none, { inp with fail := true })

/-- `inp >> std::ws`. -/
def ws (inp : IStream) : IStream :=
  if inp.good then
    let rest := inp.rest.dropWhile isspace
    ⟨rest, rest.isEmpty, false⟩
  else { inp with fail := true }

/-- The sentry of the formatted input functions: white space is skipped, and there has to be something behind it. -/
def sentry (inp : IStream) : IStream :=
  if inp.good then
    match inp.rest.dropWhile isspace with
    | [] => ⟨[], true, true⟩
    | c :: rest => ⟨c :: rest, false, false⟩
  else { inp with fail := true }

/-- `inp >> c` for a `char`, which is not assigned when there is none. -/
def getChar (inp : IStream) : Option UInt8 × IStream :=
  let inp := inp.sentry
  if inp.good then inp.get else (none, inp)

/-- `inp >> s` for a string. -/
def getString (inp : IStream) : Bytes × IStream :=
  let inp := inp.sentry
  if inp.good then
    let word := inp.rest.takeWhile fun c => !isspace c
    let rest := inp.rest.dropWhile fun c => !isspace c
    (word, ⟨rest, rest.isEmpty, false⟩)
  else ([], inp)

/-- A byte that is a decimal digit. -/
def isDigitByte (c : UInt8) : Bool := ch '0' ≤ c && c ≤ ch '9'

/-- `inp >> u` for an unsigned integer of `w` bits, in decimal; the value is not assigned when the sentry fails. A sign
is accepted, and a minus sign negates modulo `2^w`. Without digits the value is 0, with too many the largest one. -/
def getUnsigned (w : ℕ) (inp : IStream) : Option ℕ × IStream :=
  let inp := inp.sentry
  if inp.good then
    let neg := inp.rest.head? = some (ch '-')
    let text := if neg ∨ inp.rest.head? = some (ch '+') then inp.rest.tail else inp.rest
    let digits := text.takeWhile isDigitByte
    let rest := text.dropWhile isDigitByte
    let v := digitsVal 10 (digits.map fun c => c.toNat - 48)
    if digits = [] then (some 0, ⟨rest, rest.isEmpty, true⟩)
    else if 2 ^ w ≤ v then (some (2 ^ w - 1), ⟨rest, rest.isEmpty, true⟩)
    else (some (if neg then (2 ^ w - v) % 2 ^ w else v), ⟨rest, rest.isEmpty, false⟩)
  else (none, inp)

/-- `inp.read(s, n)`: what is stored in `s`. -/
def read (inp : IStream) (n : ℕ) : Bytes × IStream :=
  if inp.good then
    if n ≤ inp.rest.length then (inp.rest.take n, ⟨inp.rest.drop n, false, false⟩)
    else (inp.rest, ⟨[], true, true⟩)
  else ([], { inp with fail := true })

variable {text : Bytes}

@[simp] theorem good_of : (of text).good = true := rfl

@[simp] theorem eof_of : (of text).eof = false := rfl

theorem ws_of : (of text).ws = ⟨text.dropWhile isspace, (text.dropWhile isspace).isEmpty, false⟩ := rfl

theorem read_of_append (s rest : Bytes) : (of (s ++ rest)).read s.length = (s, of rest) := by
  simp [read, of, good]

/-- A read that leaves the stream good has got all bytes. -/
theorem read_good {s : Bytes} {n : ℕ} {inp : IStream} (h : (of text).read n = (s, inp)) (hgood : inp.good = true) :
    ∃ rest, text = s ++ rest ∧ s.length = n ∧ inp = of rest := by
  unfold read at h
  rw [if_pos good_of] at h
  split at h
  · next hle =>
    cases h
    exact ⟨text.drop n, (List.take_append_drop n text).symm, List.length_take_of_le hle, rfl⟩
  · cases h
    exact absurd hgood (by decide)

@[simp] theorem get_of_cons (c : UInt8) : (of (c :: text)).get = (some c, of text) := rfl

/-- A stream that has delivered a byte is good. -/
theorem get_good {inp inp' : IStream} {c : UInt8} (h : inp.get = (some c, inp')) : inp'.good = true := by
  unfold get at h
  split at h
  · split at h
    · cases h
    · cases h
      rfl
  · cases h

theorem get_of_eq_some {c : UInt8} {inp : IStream} (h : (of text).get = (some c, inp)) :
    ∃ rest, text = c :: rest ∧ inp = of rest := by
  cases text with
  | nil => cases h
  | cons c' rest =>
    cases h
    exact ⟨rest, rfl, rfl⟩

theorem getUnsigned_lt (w : ℕ) (inp : IStream) : (inp.getUnsigned w).1.getD 0 < 2 ^ w := by
  have hpow := Nat.two_pow_pos w
  have hmax : 2 ^ w - 1 < 2 ^ w := Nat.sub_lt hpow Nat.one_pos
  have hneg (v : ℕ) : (2 ^ w - v) % 2 ^ w < 2 ^ w := Nat.mod_lt _ hpow
  unfold getUnsigned
  dsimp only
  split_ifs <;> simp only [Option.getD_some, Option.getD_none] <;> first | assumption | apply hneg | omega

/-! ## Reading what stands in front -/

variable {c : UInt8}

theorem sentry_of_cons (hc : isspace c = false) : (of (c :: text)).sentry = of (c :: text) := by
  unfold sentry
  rw [if_pos good_of]
  have hdrop : (of (c :: text)).rest.dropWhile isspace = c :: text :=
    List.dropWhile_cons_of_neg (by rw [hc]; exact Bool.false_ne_true)
  rw [hdrop]
  rfl

/-- White space in front makes no difference. -/
theorem sentry_of_space (text : Bytes) : (of (ch ' ' :: text)).sentry = (of text).sentry := rfl

theorem ws_of_cons (hc : isspace c = false) : (of (c :: text)).ws = of (c :: text) := by
  rw [ws_of, List.dropWhile_cons_of_neg (by rw [hc]; exact Bool.false_ne_true)]
  rfl

theorem ws_of_space (text : Bytes) : (of (ch ' ' :: text)).ws = (of text).ws := rfl

theorem getChar_of_cons (hc : isspace c = false) : (of (c :: text)).getChar = (some c, of text) := by
  unfold getChar
  rw [sentry_of_cons hc]
  rfl

theorem isspace_digitByte {d : ℕ} (h : d < 10) : isspace (digitByte d) = false := by
  interval_cases d <;> decide

theorem isDigitByte_digitByte {d : ℕ} (h : d < 10) : isDigitByte (digitByte d) = true := by
  interval_cases d <;> decide

theorem takeWhile_decimal (n : ℕ) (hrest : ∀ c ∈ text.head?, isDigitByte c = false) :
    (decimal n ++ text).takeWhile isDigitByte = decimal n ∧ (decimal n ++ text).dropWhile isDigitByte = text := by
  have hall : ∀ b ∈ decimal n, isDigitByte b = true := by
    intro b hb
    obtain ⟨d, hd, rfl⟩ := List.mem_map.mp hb
    exact isDigitByte_digitByte (decimalDigits_lt hd)
  rw [List.takeWhile_append_of_pos hall, List.dropWhile_append_of_pos hall]
  cases text with
  | nil => exact ⟨List.append_nil _, rfl⟩
  | cons c text =>
    have hneg : ¬ isDigitByte c = true := by
      rw [hrest c rfl]
      exact Bool.false_ne_true
    rw [List.takeWhile_cons_of_neg hneg, List.dropWhile_cons_of_neg hneg, List.append_nil]
    exact ⟨rfl, rfl⟩

theorem map_decimal (n : ℕ) : (decimal n).map (fun c => c.toNat - 48) = decimalDigits n := by
  rw [decimal, List.map_map]
  refine (List.map_congr_left fun d hd => ?_).trans (List.map_id _)
  simp only [Function.comp_apply, id_eq]
  rw [digitByte_toNat (decimalDigits_lt hd)]
  omega

/-- A decimal number is read back, if no digit stands behind it. -/
theorem getUnsigned_append {w n : ℕ} (hn : n < 2 ^ w) (hrest : ∀ c ∈ text.head?, isDigitByte c = false) :
    (of (decimal n ++ text)).getUnsigned w = (some n, ⟨text, text.isEmpty, false⟩) := by
  obtain ⟨d, ds, hdec, hd⟩ : ∃ d ds, decimal n = digitByte d :: ds ∧ d < 10 := by
    cases hdec : decimalDigits n with
    | nil => exact absurd hdec (decimalDigits_ne_nil n)
    | cons d ds => exact ⟨d, _, by rw [decimal, hdec]; rfl, decimalDigits_lt (hdec ▸ List.mem_cons_self)⟩
  have hsentry : (of (decimal n ++ text)).sentry = of (decimal n ++ text) := by
    rw [hdec]
    exact sentry_of_cons (isspace_digitByte hd)
  have hhead : (of (decimal n ++ text)).rest.head? = some (digitByte d) := by
    rw [hdec]
    rfl
  have hminus : digitByte d ≠ ch '-' := by interval_cases d <;> decide
  have hplus : digitByte d ≠ ch '+' := by interval_cases d <;> decide
  obtain ⟨htake, hdrop⟩ := takeWhile_decimal n hrest
  have htext : (of (decimal n ++ text)).rest = decimal n ++ text := rfl
  unfold getUnsigned
  rw [hsentry, if_pos good_of, hhead]
  simp only [Option.some.injEq, hminus, hplus, or_self, if_false]
  rw [htext, htake, hdrop, map_decimal, digitsVal_decimalDigits, if_neg (decimal_ne_nil n), if_neg (not_le.mpr hn)]

theorem getUnsigned_decimal {w n : ℕ} (hn : n < 2 ^ w) (hc : isDigitByte c = false) :
    (of (decimal n ++ c :: text)).getUnsigned w = (some n, of (c :: text)) := by
  refine getUnsigned_append hn fun c' hc' => ?_
  obtain rfl := Option.some.inj hc'
  exact hc

/-- White space in front of a number makes no difference. -/
theorem getUnsigned_of_space (w : ℕ) (text : Bytes) :
    (of (ch ' ' :: text)).getUnsigned w = (of text).getUnsigned w := rfl

/-- A blank in front of a number is skipped. -/
theorem ws_decimal (n : ℕ) (text : Bytes) : (of (ch ' ' :: (decimal n ++ text))).ws = of (decimal n ++ text) := by
  have hne := decimalDigits_ne_nil n
  rw [ws_of_space]
  cases hdec : decimalDigits n with
  | nil => exact absurd hdec hne
  | cons d ds =>
    have hd : d < 10 := decimalDigits_lt (hdec ▸ List.mem_cons_self)
    rw [decimal, hdec]
    exact ws_of_cons (isspace_digitByte hd)

/-- A word is read back, if white space stands behind it. -/
theorem getString_append {word : Bytes} (hne : word ≠ []) (hword : ∀ b ∈ word, isspace b = false)
    (hc : isspace c = true) : (of (word ++ c :: text)).getString = (word, of (c :: text)) := by
  obtain ⟨b, l, rfl⟩ := List.exists_cons_of_ne_nil hne
  have hsentry : (of (b :: l ++ c :: text)).sentry = of (b :: l ++ c :: text) :=
    sentry_of_cons (hword b List.mem_cons_self)
  have hall : ∀ x ∈ b :: l, (!isspace x) = true := by
    intro x hx
    rw [hword x hx]
    rfl
  have hneg : ¬ (!isspace c) = true := by simp [hc]
  have hrest : (of (b :: l ++ c :: text)).rest = b :: l ++ c :: text := rfl
  unfold getString
  rw [hsentry, if_pos good_of]
  dsimp only
  rw [hrest, List.takeWhile_append_of_pos hall, List.dropWhile_append_of_pos hall,
    List.takeWhile_cons_of_neg (p := fun x => !isspace x) hneg,
    List.dropWhile_cons_of_neg (p := fun x => !isspace x) hneg, List.append_nil]
  rfl

end IStream

end Fs123
