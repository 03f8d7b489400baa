import Fs123.Core.IStream

/-!
# The files of a shared-key directory

The model of `secret_manager::legal_sid`, of `sodium_hex2bin` as `secret_manager.cpp` has it, and of what
`sharedkeydir` reads from its files. `sodium_hex2bin` finds the value of a digit with masks instead of branches
(`hexDigit`); `xdigit` says what they come to, and `HexText` says which texts denote which bytes.

`refreshSecret_exact`: a file is accepted exactly if it is short and denotes a secret, which is then what is
returned, and no more is written than there is room for.
-/

namespace Fs123

open Cxx

/-! ## Names -/

/-- `isalnum` in the C locale. -/
def isalnum (c : UInt8) : Bool :=
  (ch '0' ≤ c && c ≤ ch '9') || (ch 'A' ≤ c && c ≤ ch 'Z') || (ch 'a' ≤ c && c ≤ ch 'z')

/-- `secret_manager::legal_sid(sv)`. -/
def legalSid (sv : Bytes) : Bool :=
  if sv.length = 0 then false
  else if 255 < sv.length then false
  else if sv.head? = some (ch '.') then false
  else sv.all fun c => isalnum c || c = ch '_' || c = ch '-' || c = ch '.'

/-! ## Hexadecimal digits -/

/-- `c_num0`, `c_alpha0` and `c_val` for one byte. -/
structure HexDigit where
  num0 : UInt8
  alpha0 : UInt8
  val : UInt8

/-- The masks are all ones for a decimal digit and for a letter. The sums are those of `unsigned int`. -/
def hexDigit (c : UInt8) : HexDigit :=
  let cNum := c ^^^ 48
  let cNum0 := ((cNum.toUInt32 - 10) >>> 8).toUInt8
  let cAlpha := ((c.toUInt32 &&& ~~~ 32) - 55).toUInt8
  let cAlpha0 := (((cAlpha.toUInt32 - 10) ^^^ (cAlpha.toUInt32 - 16)) >>> 8).toUInt8
  ⟨cNum0, cAlpha0, (cNum0 &&& cNum) ||| (cAlpha0 &&& cAlpha)⟩

/-- The byte is no digit. -/
def HexDigit.isNone (d : HexDigit) : Bool := d.num0 ||| d.alpha0 = 0

/-- The value of a hexadecimal digit. -/
def xdigit (c : UInt8) : Option UInt8 :=
  if ch '0' ≤ c && c ≤ ch '9' then some (c - ch '0')
  else if ch 'a' ≤ c && c ≤ ch 'f' then some (c - ch 'a' + 10)
  else if ch 'A' ≤ c && c ≤ ch 'F' then some (c - ch 'A' + 10)
  else none

theorem hexDigit_eq_xdigit (c : UInt8) :
    xdigit c = if (hexDigit c).isNone then none else some (hexDigit c).val := by
  have hall : ∀ n < 256, xdigit (UInt8.ofNat n)
      = if (hexDigit (UInt8.ofNat n)).isNone then none else some (hexDigit (UInt8.ofNat n)).val := by
    decide +kernel
  have hc := hall c.toNat c.toNat_lt
  rwa [UInt8.ofNat_toNat] at hc

theorem isNone_iff {c : UInt8} : (hexDigit c).isNone = true ↔ xdigit c = none := by
  rw [hexDigit_eq_xdigit]
  split
  · next h => exact ⟨fun _ => rfl, fun _ => h⟩
  · next h => exact ⟨fun h' => absurd h' h, fun h' => by cases h'⟩

theorem val_of_xdigit {c x : UInt8} (h : xdigit c = some x) :
    (hexDigit c).isNone = false ∧ (hexDigit c).val = x := by
  rw [hexDigit_eq_xdigit] at h
  split at h
  · cases h
  · next hnone => exact ⟨Bool.eq_false_iff.mpr hnone, Option.some.inj h⟩

theorem xdigit_of_not_isNone {c : UInt8} (h : (hexDigit c).isNone = false) : xdigit c = some (hexDigit c).val := by
  rw [hexDigit_eq_xdigit, h, if_neg Bool.false_ne_true]

/-! ## `sodium_hex2bin` -/

/-- `strchr(ignore, c) != NULL`, where the NUL at the end of `ignore` counts. -/
def strchr (ignore : Bytes) (c : UInt8) : Bool := c = 0 || c ∈ ignore

/-- The variables of the loop: what has been written to `bin`, `hex_pos`, `ret`, `c_acc` and `state`. -/
structure HexScan where
  bin : Bytes
  hexPos : ℕ
  ret : ℤ
  cAcc : UInt8
  state : UInt8
  deriving Repr, DecidableEq

/-- The loop, over what is left of the text. A `break` ends it. -/
def hexLoop (binMaxlen : ℕ) (ignore : Option Bytes) : Bytes → HexScan → HexScan
  | [], v => v
  | c :: hex, v =>
    if (hexDigit c).isNone then
      if ignore.isSome ∧ v.state = 0 ∧ (ignore.any fun s => strchr s c) then
        hexLoop binMaxlen ignore hex { v with hexPos := v.hexPos + 1 }
      else v
    else if binMaxlen ≤ v.bin.length then { v with ret := -1 }
    else if v.state = 0 then
      hexLoop binMaxlen ignore hex
        { v with cAcc := (hexDigit c).val * 16, state := ~~~ v.state, hexPos := v.hexPos + 1 }
    else
      hexLoop binMaxlen ignore hex
        { v with bin := v.bin ++ [v.cAcc ||| (hexDigit c).val], state := ~~~ v.state, hexPos := v.hexPos + 1 }

/-- What `sodium_hex2bin` returns and leaves: the bytes that it has written, `*bin_len` and `*hex_end - hex`. -/
structure Hex2bin where
  ret : ℤ
  bin : Bytes
  binLen : ℕ
  hexEnd : ℕ
  deriving Repr, DecidableEq

/-- `sodium_hex2bin(bin, bin_maxlen, hex, hex_len, ignore, &bin_len, hex_end)`, where `wantEnd` says whether `hex_end`
is given. -/
def sodiumHex2bin (binMaxlen : ℕ) (hex : Bytes) (ignore : Option Bytes) (wantEnd : Bool) : Hex2bin :=
  let v := hexLoop binMaxlen ignore hex ⟨[], 0, 0, 0, 0⟩
  let v := if v.state ≠ 0 then { v with hexPos := v.hexPos - 1, ret := -1 } else v
  let binPos := if v.ret ≠ 0 then 0 else v.bin.length
  let ret := if wantEnd then v.ret else if v.hexPos ≠ hex.length then -1 else v.ret
  ⟨ret, v.bin, binPos, v.hexPos⟩

/-! ## The texts that denote bytes -/

/-- Pairs of digits, with bytes that may be ignored before and behind each pair. -/
inductive HexText (ignore : Bytes) : Bytes → Bytes → Prop where
  | nil : HexText ignore [] []
  | skip {c : UInt8} {hex bs : Bytes} : xdigit c = none → strchr ignore c = true → HexText ignore hex bs →
      HexText ignore (c :: hex) bs
  | pair {hi lo x y : UInt8} {hex bs : Bytes} : xdigit hi = some x → xdigit lo = some y → HexText ignore hex bs →
      HexText ignore (hi :: lo :: hex) ((x * 16 ||| y) :: bs)

variable {ignore hex bs : Bytes} {binMaxlen : ℕ} {v : HexScan}

/-- No more is written than there is room for. -/
theorem hexLoop_bin_le (ignore : Option Bytes) (hex : Bytes) (h : v.bin.length ≤ binMaxlen) :
    (hexLoop binMaxlen ignore hex v).bin.length ≤ binMaxlen := by
  induction hex generalizing v with
  | nil => exact h
  | cons c hex ih =>
    rw [hexLoop]
    split
    · split
      · exact ih h
      · exact h
    · split
      · exact h
      · next hroom =>
        split
        · exact ih h
        · apply ih
          rw [List.length_append]
          exact Nat.not_le.mp hroom

/-- A text that denotes bytes is read to its end. -/
theorem hexLoop_hexText (h : HexText ignore hex bs) (hstate : v.state = 0)
    (hroom : v.bin.length + bs.length ≤ binMaxlen) : ∃ cAcc, hexLoop binMaxlen (some ignore) hex v
      = { v with bin := v.bin ++ bs, hexPos := v.hexPos + hex.length, cAcc } := by
  induction h generalizing v with
  | nil => exact ⟨v.cAcc, by rw [List.append_nil]; rfl⟩
  | skip hnone hignore _ ih =>
    obtain ⟨cAcc, hrest⟩ := ih (v := { v with hexPos := v.hexPos + 1 }) hstate hroom
    refine ⟨cAcc, ?_⟩
    rw [hexLoop, if_pos (isNone_iff.mpr hnone), if_pos ⟨rfl, hstate, hignore⟩, hrest, List.length_cons,
      Nat.add_right_comm, Nat.add_assoc]
  | @pair hi lo x y hex bs hhi hlo _ ih =>
    obtain ⟨hhi, hx⟩ := val_of_xdigit hhi
    obtain ⟨hlo, hy⟩ := val_of_xdigit hlo
    rw [List.length_cons] at hroom
    have hlt : ¬ binMaxlen ≤ v.bin.length := by omega
    obtain ⟨cAcc, hrest⟩ := ih (v := ⟨v.bin ++ [x * 16 ||| y], v.hexPos + 1 + 1, v.ret, x * 16, 0⟩) rfl
      (by rw [List.length_append, List.length_singleton]; omega)
    refine ⟨cAcc, ?_⟩
    rw [hexLoop, if_neg (Bool.eq_false_iff.mp hhi), if_neg hlt, if_pos hstate, hx, hexLoop,
      if_neg (Bool.eq_false_iff.mp hlo)]
    dsimp only
    rw [if_neg hlt, hstate, if_neg (by decide), hy]
    refine Eq.trans hrest ?_
    rw [List.append_assoc, List.singleton_append, List.length_cons, List.length_cons]
    simp only [HexScan.mk.injEq, true_and, and_true]
    omega

/-- What is read to its end, in whole pairs, denotes what has been written. -/
theorem hexText_of_hexLoop {u : HexScan} (hv : v.state = 0) (h : hexLoop binMaxlen (some ignore) hex v = u)
    (hret : u.ret = 0) (hstate : u.state = 0) (hend : u.hexPos = v.hexPos + hex.length) :
    ∃ bs, HexText ignore hex bs ∧ u.bin = v.bin ++ bs := by
  induction hlen : hex.length using Nat.strongRecOn generalizing hex v with
  | _ n ih =>
    rcases hex with _ | ⟨c, hex⟩
    · obtain rfl : v = u := h
      exact ⟨[], .nil, (List.append_nil _).symm⟩
    rw [List.length_cons] at hlen hend
    rw [hexLoop] at h
    by_cases hnone : (hexDigit c).isNone = true
    · rw [if_pos hnone] at h
      split at h
      · next hskip =>
        obtain ⟨bs, hbs, hbin⟩ := ih hex.length (by omega) (v := { v with hexPos := v.hexPos + 1 }) hv h
          (by rw [hend]; dsimp only; omega) rfl
        exact ⟨bs, .skip (isNone_iff.mp hnone) hskip.2.2 hbs, hbin⟩
      · obtain rfl : v = u := h
        omega
    rw [if_neg hnone] at h
    by_cases hroom : binMaxlen ≤ v.bin.length
    · rw [if_pos hroom] at h
      rw [← h] at hret
      cases hret
    rw [if_neg hroom, if_pos hv] at h
    have hodd : ¬ (~~~ (0 : UInt8) = 0) := by decide
    -- the second digit of the pair
    rcases hex with _ | ⟨d, hex⟩
    · rw [hexLoop] at h
      rw [← h, hv] at hstate
      exact absurd hstate hodd
    rw [List.length_cons] at hlen hend
    rw [hexLoop, hv] at h
    by_cases hnone' : (hexDigit d).isNone = true
    · rw [if_pos hnone', if_neg (fun hskip => hodd hskip.2.1)] at h
      rw [← h] at hstate
      exact absurd hstate hodd
    rw [if_neg hnone'] at h
    rw [if_neg hroom, if_neg hodd] at h
    obtain ⟨bs, hbs, hbin⟩ := ih hex.length (by omega) (show ~~~ (~~~ (0 : UInt8)) = 0 by decide) h
      (by rw [hend]; dsimp only; omega) rfl
    have hx := xdigit_of_not_isNone (Bool.eq_false_iff.mpr hnone)
    have hy := xdigit_of_not_isNone (Bool.eq_false_iff.mpr hnone')
    refine ⟨_ :: bs, .pair hx hy hbs, ?_⟩
    rw [hbin, List.append_assoc, List.singleton_append]

/-- `sodium_hex2bin` accepts a text to its end exactly if it denotes bytes for which there is room. -/
theorem sodiumHex2bin_iff : (sodiumHex2bin binMaxlen hex (some ignore) true).ret = 0
      ∧ (sodiumHex2bin binMaxlen hex (some ignore) true).hexEnd = hex.length
      ∧ (sodiumHex2bin binMaxlen hex (some ignore) true).bin = bs
    ↔ HexText ignore hex bs ∧ bs.length ≤ binMaxlen := by
  constructor
  · rintro ⟨hret, hend, hbin⟩
    have hle := hexLoop_bin_le (some ignore) hex (v := ⟨[], 0, 0, 0, 0⟩) (Nat.zero_le binMaxlen)
    unfold sodiumHex2bin at hret hend hbin
    by_cases hstate : (hexLoop binMaxlen (some ignore) hex ⟨[], 0, 0, 0, 0⟩).state = 0
    · simp only [hstate, ne_eq, not_true_eq_false, if_false, if_true] at hret hend hbin
      obtain ⟨bs', hbs', hbin'⟩ := hexText_of_hexLoop rfl rfl hret hstate (by rw [hend, Nat.zero_add])
      rw [hbin, List.nil_append] at hbin'
      rw [hbin] at hle
      exact ⟨hbin' ▸ hbs', hle⟩
    · simp only [hstate, ne_eq, not_false_eq_true, if_true] at hret
      cases hret
  · rintro ⟨htext, hroom⟩
    have hroom' : ([] : Bytes).length + bs.length ≤ binMaxlen := by
      rwa [List.length_nil, Nat.zero_add]
    obtain ⟨cAcc, hloop⟩ := hexLoop_hexText (v := ⟨[], 0, 0, 0, 0⟩) htext rfl hroom'
    unfold sodiumHex2bin
    rw [hloop]
    simp

/-! ## Secrets -/

/-- `suffix`. -/
def suffix : Bytes := bytes ".sharedkey"

/-- What `refresh_secret` lets `hex2bin` ignore. -/
def keyIgnore : Bytes := bytes ": \t\n\x0c"

/-- `refresh_secret(sid)`, where `file` is what `openat` and `read` make of the name. -/
def refreshSecret (sid : Bytes) (file : Bytes → Res Bytes) : Res Bytes :=
  if ¬ legalSid sid then
    throwE .runtimeError (bytes "sharedkeydir::refresh_secret:  sid: '" ++ sid ++ bytes "' contains illegal characters")
  else do
    let fname := sid ++ suffix
    let contents ← file fname
    let inbuf := contents.take 1025
    if inbuf.length = 1025 then
      throwE .runtimeError (bytes "sharedkeydir::refresh_secret: " ++ fname ++ bytes " is too long")
    else
      let r := sodiumHex2bin ((inbuf.length + 1) / 2) inbuf (some keyIgnore) true
      if r.ret ≠ 0 then throwE .runtimeError (bytes "sharedkeydir::refresh_secret: sodium_hex2bin failure")
      else if r.hexEnd ≠ inbuf.length then
        throwE .runtimeError (bytes "sharedkeydir::refresh_secret: non-whitespace after the key")
      else .ok (r.bin.take r.binLen)

/-- `refresh_indirect(name)`. The message of the last exception names a string that is empty. -/
def refreshIndirect (name : Bytes) (file : Bytes → Res Bytes) : Res Bytes :=
  if ¬ legalSid name then
    throwE .runtimeError (bytes "sharedkeydir::refresh_indirect:  name: '" ++ name
      ++ bytes "' contains illegal characters")
  else do
    let fname := name ++ bytes ".keyid"
    let contents ← file fname
    let (ret, ifs) := (IStream.of contents).getString
    if ifs.fail then throwE .runtimeError (bytes "Error reading from " ++ fname)
    else if ¬ legalSid ret then throwE .runtimeError (bytes "Illegal sid: '' in " ++ fname)
    else .ok ret

theorem HexText.length_le (h : HexText ignore hex bs) : 2 * bs.length ≤ hex.length := by
  induction h with
  | nil => exact le_rfl
  | skip _ _ _ ih =>
    rw [List.length_cons]
    omega
  | pair _ _ _ ih =>
    rw [List.length_cons, List.length_cons, List.length_cons]
    omega

/-- `*bin_len` counts the bytes that have been written, when nothing went wrong. -/
theorem sodiumHex2bin_binLen {ignore' : Option Bytes} {wantEnd : Bool}
    (h : (sodiumHex2bin binMaxlen hex ignore' wantEnd).ret = 0) :
    (sodiumHex2bin binMaxlen hex ignore' wantEnd).binLen = (sodiumHex2bin binMaxlen hex ignore' wantEnd).bin.length := by
  unfold sodiumHex2bin at h ⊢
  grind

/-- A file is accepted if it is not too long and denotes a secret, and only then. -/
theorem refreshSecret_eq_ok_iff {sid secret : Bytes} {file : Bytes → Res Bytes} :
    refreshSecret sid file = .ok secret ↔ legalSid sid = true ∧ ∃ contents, file (sid ++ suffix) = .ok contents
      ∧ contents.length ≤ 1024 ∧ HexText keyIgnore contents secret := by
  unfold refreshSecret
  by_cases hsid : legalSid sid = true
  swap
  · simp [hsid]
  rw [if_neg (not_not.mpr hsid), bind_eq_ok_iff]
  simp only [hsid, true_and]
  refine exists_congr fun contents => and_congr_right fun _ => ?_
  by_cases hlong : 1024 < contents.length
  · have hread : (contents.take 1025).length = 1025 := by
      rw [List.length_take]
      omega
    rw [if_pos hread]
    exact iff_of_false (throwE_ne_ok _ _ _) (fun h => absurd h.1 (not_le.mpr hlong))
  have hall : contents.take 1025 = contents := List.take_of_length_le (by omega)
  have hroom : HexText keyIgnore contents secret → secret.length ≤ (contents.length + 1) / 2 := by
    intro htext
    have := htext.length_le
    omega
  rw [hall, if_neg (show ¬ contents.length = 1025 by omega)]
  constructor
  · intro h
    by_cases hret : (sodiumHex2bin ((contents.length + 1) / 2) contents (some keyIgnore) true).ret = 0
    swap
    · rw [if_pos hret] at h
      exact absurd h (throwE_ne_ok _ _ _)
    rw [if_neg (not_not.mpr hret)] at h
    by_cases hend : (sodiumHex2bin ((contents.length + 1) / 2) contents (some keyIgnore) true).hexEnd = contents.length
    swap
    · rw [if_pos hend] at h
      exact absurd h (throwE_ne_ok _ _ _)
    rw [if_neg (not_not.mpr hend), sodiumHex2bin_binLen hret, List.take_length] at h
    exact ⟨Nat.not_lt.mp hlong, (sodiumHex2bin_iff.mp ⟨hret, hend, Except.ok.inj h⟩).1⟩
  · rintro ⟨-, htext⟩
    obtain ⟨hret, hend, hbin⟩ := sodiumHex2bin_iff.mpr ⟨htext, hroom htext⟩
    rw [if_neg (not_not.mpr hret), if_neg (not_not.mpr hend), sodiumHex2bin_binLen hret, List.take_length, hbin]

/-- The first word of a text. -/
def firstWord (text : Bytes) : Bytes := (text.dropWhile isspace).takeWhile fun c => !isspace c

namespace IStream

theorem getString_of_blank {text : Bytes} (h : text.dropWhile isspace = []) :
    (of text).getString = ([], ⟨[], true, true⟩) := by
  have hsentry : (of text).sentry = ⟨[], true, true⟩ := by
    unfold sentry
    rw [if_pos good_of, show (of text).rest = text from rfl, h]
  unfold getString
  rw [hsentry]
  rfl

theorem getString_of_word {text : Bytes} (h : text.dropWhile isspace ≠ []) : ∃ eof,
    (of text).getString = (firstWord text, ⟨(text.dropWhile isspace).dropWhile (fun c => !isspace c), eof, false⟩) := by
  obtain ⟨c, rest, hrest⟩ := List.exists_cons_of_ne_nil h
  have hsentry : (of text).sentry = ⟨text.dropWhile isspace, false, false⟩ := by
    unfold sentry
    rw [if_pos good_of, show (of text).rest = text from rfl, hrest]
  refine ⟨((text.dropWhile isspace).dropWhile fun c => !isspace c).isEmpty, ?_⟩
  unfold getString
  rw [hsentry]
  rfl

end IStream

/-- An indirect name leads to the first word of its file. -/
theorem refreshIndirect_eq_ok_iff {name sid : Bytes} {file : Bytes → Res Bytes} :
    refreshIndirect name file = .ok sid ↔ legalSid name = true ∧ legalSid sid = true
      ∧ ∃ contents, file (name ++ bytes ".keyid") = .ok contents ∧ sid = firstWord contents := by
  unfold refreshIndirect
  by_cases hname : legalSid name = true
  swap
  · simp [hname]
  rw [if_neg (not_not.mpr hname), bind_eq_ok_iff]
  simp only [hname, true_and]
  rw [← exists_and_left]
  refine exists_congr fun contents => ?_
  rw [and_left_comm]
  refine and_congr_right fun _ => ?_
  by_cases hblank : contents.dropWhile isspace = []
  · -- nothing is extracted, and nothing is not a name
    have hword : firstWord contents = [] := by rw [firstWord, hblank, List.takeWhile_nil]
    rw [IStream.getString_of_blank hblank, if_pos rfl]
    refine iff_of_false (throwE_ne_ok _ _ _) ?_
    rintro ⟨hsid, rfl⟩
    rw [hword] at hsid
    cases hsid
  · obtain ⟨eof, hget⟩ := IStream.getString_of_word hblank
    rw [hget, if_neg Bool.false_ne_true]
    by_cases hsid : legalSid (firstWord contents) = true
    · rw [if_neg (not_not.mpr hsid)]
      constructor
      · intro h
        obtain rfl := Except.ok.inj h
        exact ⟨hsid, rfl⟩
      · rintro ⟨-, rfl⟩
        rfl
    · rw [if_pos hsid]
      refine iff_of_false (throwE_ne_ok _ _ _) ?_
      rintro ⟨hsid', rfl⟩
      exact hsid hsid'

/-- What the files of a shared-key directory mean: a `.sharedkey` file is accepted exactly if it is not too long and
denotes a secret, and a `.keyid` file exactly if its first word can name one. On any text `sodium_hex2bin` writes no
more than there is room for. -/
theorem key_files_exact : (∀ sid secret file, refreshSecret sid file = .ok secret ↔ legalSid sid = true
      ∧ ∃ contents, file (sid ++ suffix) = .ok contents ∧ contents.length ≤ 1024 ∧ HexText keyIgnore contents secret)
    ∧ (∀ name sid file, refreshIndirect name file = .ok sid ↔ legalSid name = true ∧ legalSid sid = true
      ∧ ∃ contents, file (name ++ bytes ".keyid") = .ok contents ∧ sid = firstWord contents)
    ∧ ∀ binMaxlen hex ignore wantEnd, (sodiumHex2bin binMaxlen hex ignore wantEnd).bin.length ≤ binMaxlen
      ∧ (sodiumHex2bin binMaxlen hex ignore wantEnd).binLen
        ≤ (sodiumHex2bin binMaxlen hex ignore wantEnd).bin.length := by
  refine ⟨fun _ _ _ => refreshSecret_eq_ok_iff, fun _ _ _ => refreshIndirect_eq_ok_iff, ?_⟩
  intro binMaxlen hex ignore wantEnd
  have hle := hexLoop_bin_le ignore hex (v := ⟨[], 0, 0, 0, 0⟩) (Nat.zero_le binMaxlen)
  unfold sodiumHex2bin
  refine ⟨?_, ?_⟩
  · dsimp only
    split <;> exact hle
  · dsimp only
    split_ifs <;> simp

example : refreshSecret (bytes "k1") (fun _ => .ok (bytes "00:1f Aa\n")) = .ok [0, 31, 170] := by decide +kernel

end Fs123
