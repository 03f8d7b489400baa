import Fs123.Core.ScanInt

/-!
# Netstrings

The model of `core123/netstring.hpp`. `svscanNetstring` computes with the scanned length in `size_t`, so
the place where it looks for the trailing comma can wrap round to an earlier byte.
`svscanNetstring_eq_ok_iff` separates the two ways in which it can succeed: on a netstring at the scan
point (`IsNetstringAt`), or on a length whose comma position wraps (`WrapsAt`).
-/

namespace Fs123

open Cxx

/-- A `str_view` into some input: the offset of its first byte and the bytes it covers. -/
structure View where
  off : ℕ
  data : Bytes
  deriving Repr, DecidableEq

/-- The view covers bytes of `sv`. -/
def View.Inside (v : View) (sv : Bytes) : Prop :=
  v.off + v.data.length ≤ sv.length ∧ slice sv v.off v.data.length = v.data

/-- `netstring(sv)`. -/
def netstring (sv : Bytes) : Bytes := decimal sv.length ++ [ch ':'] ++ sv ++ [ch ',']

/-- `sv.substr(pos, n)` as a view. -/
def substrView (sv : Bytes) (pos n : ℕ) : Res View := do
  let data ← substr sv pos n
  .ok ⟨pos, data⟩

/-- `svscan_netstring<skip_white>(sv, svp, start)`. -/
def svscanNetstring (skip : Bool) (sv : Bytes) (start : ℕ) : Res (View × ℕ) := do
  let start := if skip then svscanWhite sv start else start
  let (len, colon) ← scanintU 64 10 false sv start
  let first ← at? sv start
  if first = ch '0' ∧ (len ≠ 0 ∨ subW colon start ≠ 1) then
    throwE .runtimeError (bytes "svscan_netstring:  leading zeros")
  else
    let c ← at? sv colon
    if c ≠ ch ':' then throwE .runtimeError (bytes "svscan_netstring: no colon")
    else
      let e ← at? sv (addW (addW colon len) 1)
      if e ≠ ch ',' then throwE .runtimeError (bytes "svscan_netstring: no trailing commma")
      else
        let v ← substrView sv (addW colon 1) len
        .ok (v, addW (addW colon len) 2)

/-- The text at `start` is the netstring of `p`. -/
def IsNetstringAt (sv : Bytes) (start : ℕ) (p : Bytes) : Prop := netstring p <+: sv.drop start

/-- The text at `start` is a length and a colon, the position of the trailing comma passes `2^64`, and
the byte at the wrapped position is a comma. -/
structure WrapsAt (sv : Bytes) (start len : ℕ) : Prop where
  len_lt : len < sizeMod
  text : decimal len ++ [ch ':'] <+: sv.drop start
  wraps : sizeMod ≤ start + (decimal len).length + len + 1
  comma : sv[start + (decimal len).length + len + 1 - sizeMod]? = some (ch ',')

@[simp] theorem netstring_length (p : Bytes) :
    (netstring p).length = (decimal p.length).length + p.length + 2 := by
  simp [netstring]
  omega

/-! ## The length and the colon -/

/-- In base 10 a digit is the byte of its value. -/
theorem digitByte_digitcvt {c : UInt8} (h : digitcvt 10 c ≠ 10) : digitByte (digitcvt 10 c) = c := by
  simp only [digitcvt, le_refl, if_true] at h ⊢
  split_ifs at h ⊢ with h1
  · apply UInt8.toNat_inj.mp
    rw [digitByte_toNat (by omega)]
    omega
  · exact absurd rfl h

/-- The run of digits, written back as bytes, is the front of the string. -/
theorem digitRun_prefix (l : Bytes) :
    l = (digitRun 10 l).map digitByte ++ l.drop (digitRun 10 l).length := by
  induction l with
  | nil => rfl
  | cons c l ih =>
    simp only [digitRun]
    split
    · rfl
    · next h =>
      simp only [List.map_cons, List.cons_append, List.length_cons, List.drop_succ_cons,
        digitByte_digitcvt h]
      rw [← ih]

theorem digitcvt_colon : digitcvt 10 (ch ':') = 10 := by decide

/-- The scan of a length up to a colon, with the check for leading zeros, succeeds exactly on the
decimal text of the length. -/
theorem scanLength_iff {sv : Bytes} (hsv : sv.length < sizeMod) (start len colon : ℕ) :
    (scanintU 64 10 false sv start = .ok (len, colon)
        ∧ (∃ first, sv[start]? = some first
            ∧ ¬ (first = ch '0' ∧ (len ≠ 0 ∨ subW colon start ≠ 1)))
        ∧ sv[colon]? = some (ch ':'))
      ↔ len < sizeMod ∧ decimal len ++ [ch ':'] <+: sv.drop start
        ∧ colon = start + (decimal len).length := by
  constructor
  · rintro ⟨hscan, ⟨first, hfirst, hlead⟩, hcolon⟩
    rw [scanintU_ten_eq_ok_iff] at hscan
    obtain ⟨hne, hlen, hlt, rfl⟩ := hscan
    cases hrun : digitRun 10 (sv.drop start) with
    | nil => exact absurd hrun hne
    | cons d ds =>
      rw [hrun] at hlen hcolon hlead
      have htext := digitRun_prefix (sv.drop start)
      rw [hrun, List.drop_drop] at htext
      have hall : ∀ x ∈ d :: ds, x < 10 := by
        intro x hx
        rw [← hrun] at hx
        exact digitRun_lt hx
      have hhead : first = digitByte d := by
        have h1 : (sv.drop start).head? = some first := by simpa using hfirst
        rw [htext] at h1
        simpa using h1.symm
      have hstart : start < sv.length := by
        by_contra hge
        rw [List.getElem?_eq_none (by omega)] at hfirst
        simp at hfirst
      have hcolonlt : start + (d :: ds).length < sv.length := by
        by_contra hge
        rw [List.getElem?_eq_none (by omega)] at hcolon
        simp at hcolon
      have hzero : d = 0 → ds = [] := by
        intro hd
        by_contra hds
        apply hlead
        refine ⟨by rw [hhead, hd]; rfl, Or.inr ?_⟩
        rw [subW_eq (by omega) (by omega)]
        have := List.length_pos_iff.mpr hds
        simp only [List.length_cons]
        omega
      have hdec : decimal len = (d :: ds).map digitByte := by
        rw [decimal, hlen, decimalDigits_digitsVal hall hzero]
      refine ⟨hlt, ?_, ?_⟩
      · have hcons : sv.drop (start + (d :: ds).length)
            = ch ':' :: sv.drop (start + (d :: ds).length + 1) := by
          rw [List.drop_eq_getElem_cons hcolonlt]
          rw [List.getElem?_eq_getElem hcolonlt, Option.some.injEq] at hcolon
          rw [hcolon]
        rw [hdec, htext, hcons]
        exact ⟨sv.drop (start + (d :: ds).length + 1), by simp⟩
      · simp [hdec]
  · rintro ⟨hlt, ⟨rest, hrest⟩, rfl⟩
    have hdrop : sv.drop start = decimal len ++ (ch ':' :: rest) := by
      rw [← hrest]
      simp
    have hrun : digitRun 10 (ch ':' :: rest) = [] := by simp [digitRun, digitcvt_colon]
    refine ⟨scanintU_ten_decimal hlt hdrop hrun, ?_, ?_⟩
    · obtain ⟨d, ds, hdec, hd, h0, hds⟩ := decimal_cons len
      refine ⟨digitByte d, ?_, ?_⟩
      · have := congrArg List.head? hdrop
        rw [hdec] at this
        simpa using this
      · rintro ⟨heq, hbad⟩
        have hd0 : d = 0 := by
          have := congrArg UInt8.toNat heq
          rw [digitByte_toNat hd] at this
          have hch : (ch '0').toNat = 48 := by decide
          omega
        have hlen0 : len = 0 := h0.mp hd0
        subst hlen0
        have hone : (decimal 0).length = 1 := by decide
        have hstart : start < sv.length := by
          have := congrArg List.length hdrop
          simp only [List.length_drop, List.length_append, List.length_cons] at this
          omega
        rw [hone, subW_eq (by omega) (by omega)] at hbad
        omega
    · have := congrArg (fun l => l[(decimal len).length]?) hdrop
      simpa using this

/-! ## The scanner -/

/-- The tests of `svscan_netstring` in the order in which it makes them. -/
theorem svscanNetstring_eq_ok_iff_tests (sv : Bytes) (start : ℕ) (v : View) (e : ℕ) :
    svscanNetstring false sv start = .ok (v, e)
      ↔ ∃ len colon, (scanintU 64 10 false sv start = .ok (len, colon)
          ∧ (∃ first, sv[start]? = some first
              ∧ ¬ (first = ch '0' ∧ (len ≠ 0 ∨ subW colon start ≠ 1)))
          ∧ sv[colon]? = some (ch ':'))
        ∧ sv[addW (addW colon len) 1]? = some (ch ',')
        ∧ addW colon 1 ≤ sv.length ∧ v = ⟨addW colon 1, slice sv (addW colon 1) len⟩
        ∧ e = addW (addW colon len) 2 := by
  unfold svscanNetstring substrView
  simp only [Bool.false_eq_true, if_false, bind_eq_ok_iff, at?_eq_ok_iff]
  constructor
  · rintro ⟨⟨len, colon⟩, hscan, first, hfirst, h⟩
    split at h
    · simp at h
    · next hlead =>
      obtain ⟨c, hc, h⟩ := bind_eq_ok_iff.mp h
      rw [at?_eq_ok_iff] at hc
      split at h
      · simp at h
      · next hcolon =>
        obtain ⟨b, hb, h⟩ := bind_eq_ok_iff.mp h
        rw [at?_eq_ok_iff] at hb
        split at h
        · simp at h
        · next hcomma =>
          obtain ⟨w, hw, h⟩ := bind_eq_ok_iff.mp h
          obtain ⟨data, hdata, hw⟩ := bind_eq_ok_iff.mp hw
          obtain ⟨hle, rfl⟩ := substr_eq_ok_iff.mp hdata
          simp only [Except.ok.injEq, Prod.mk.injEq] at h hw
          simp only [ne_eq, not_not] at hcolon hcomma
          exact ⟨len, colon, ⟨hscan, ⟨first, hfirst, hlead⟩, by rw [hc, hcolon]⟩,
            by rw [hb, hcomma], hle, by rw [← h.1, ← hw], h.2.symm⟩
  · rintro ⟨len, colon, ⟨hscan, ⟨first, hfirst, hlead⟩, hcolon⟩, hcomma, hle, rfl, rfl⟩
    refine ⟨(len, colon), hscan, first, hfirst, ?_⟩
    rw [if_neg hlead, at?_eq_ok_iff.mpr hcolon, at?_eq_ok_iff.mpr hcomma,
      substr_eq_ok_iff.mpr ⟨hle, rfl⟩]
    simp [bind, Except.bind]

/-- A prefix of `sv.drop start` determines the bytes of `sv` there. -/
theorem getElem?_of_prefix_drop {sv p : Bytes} {start : ℕ} (h : p <+: sv.drop start) {i : ℕ}
    (hi : i < p.length) : sv[start + i]? = p[i]? := by
  obtain ⟨rest, hrest⟩ := h
  rw [← List.getElem?_drop, ← hrest, List.getElem?_append_left hi]

theorem length_le_of_prefix_drop {sv p : Bytes} {start : ℕ} (h : p <+: sv.drop start)
    (hp : p ≠ []) : start + p.length ≤ sv.length := by
  have h1 := h.length_le
  have h2 := List.length_pos_iff.mpr hp
  rw [List.length_drop] at h1
  omega

theorem netstring_ne_nil (p : Bytes) : netstring p ≠ [] := by simp [netstring]

/-- A length, a colon and, `len` bytes further on inside the string, a comma: a netstring. -/
theorem isNetstringAt_of_comma {sv : Bytes} {start len : ℕ}
    (hpre : decimal len ++ [ch ':'] <+: sv.drop start)
    (hcomma : sv[start + (decimal len).length + len + 1]? = some (ch ',')) :
    ∃ p, p.length = len ∧ p = slice sv (start + (decimal len).length + 1) len
      ∧ IsNetstringAt sv start p := by
  obtain ⟨rest, hrest⟩ := hpre
  have hget : rest[len]? = some (ch ',') := by
    have : start + (decimal len).length + len + 1
        = start + ((decimal len ++ [ch ':']).length + len) := by
      simp
      omega
    rw [this, ← List.getElem?_drop, ← hrest, List.getElem?_append_right (by omega)] at hcomma
    simpa using hcomma
  have hlen : len < rest.length := by
    by_contra hge
    rw [List.getElem?_eq_none (by omega)] at hget
    simp at hget
  refine ⟨rest.take len, by simp; omega, ?_, ?_⟩
  · have : sv.drop (start + (decimal len).length + 1) = rest := by
      have h1 : start + (decimal len).length + 1 = start + (decimal len ++ [ch ':']).length := by
        simp
        omega
      rw [h1, ← List.drop_drop, ← hrest, List.drop_left]
    rw [slice, this]
  · have htail : rest = rest.take len ++ ch ',' :: rest.drop (len + 1) := by
      rw [List.getElem?_eq_getElem hlen, Option.some.injEq] at hget
      rw [← hget, List.getElem_cons_drop, List.take_append_drop]
    refine ⟨rest.drop (len + 1), ?_⟩
    have hl : (rest.take len).length = len := by simp; omega
    rw [netstring, hl, ← hrest]
    conv_rhs => rw [htail]
    simp

/-- The payload of a netstring at the scan point. -/
theorem slice_of_isNetstringAt {sv p : Bytes} {start : ℕ} (h : IsNetstringAt sv start p) :
    slice sv (start + (decimal p.length).length + 1) p.length = p := by
  obtain ⟨rest, hrest⟩ := h
  have hdrop : sv.drop (start + (decimal p.length).length + 1) = p ++ ch ',' :: rest := by
    have h1 : start + (decimal p.length).length + 1
        = start + (decimal p.length ++ [ch ':']).length := by
      simp
      omega
    rw [h1, ← List.drop_drop, ← hrest, netstring]
    simp
  rw [slice, hdrop]
  simp

/-- `svscan_netstring` succeeds exactly on a netstring at the scan point, or on a length whose comma
position wraps round to a comma. In the second case the returned offset is not past the scan point. -/
theorem svscanNetstring_eq_ok_iff {sv : Bytes} (hsv : sv.length < sizeMod) (start : ℕ) (v : View)
    (e : ℕ) :
    svscanNetstring false sv start = .ok (v, e)
      ↔ (∃ p, IsNetstringAt sv start p ∧ v = ⟨start + (decimal p.length).length + 1, p⟩
            ∧ e = start + (netstring p).length)
        ∨ (∃ len, WrapsAt sv start len
            ∧ v = ⟨start + (decimal len).length + 1,
                slice sv (start + (decimal len).length + 1) len⟩
            ∧ e = start + (decimal len).length + len + 2 - sizeMod) := by
  rw [svscanNetstring_eq_ok_iff_tests]
  simp only [scanLength_iff hsv]
  constructor
  · rintro ⟨len, colon, ⟨hlt, hpre, rfl⟩, hcomma, hle, rfl, rfl⟩
    have hcolon := length_le_of_prefix_drop hpre (by simp)
    simp only [List.length_append, List.length_singleton] at hcolon
    rw [addW_addW] at hcomma ⊢
    have hcolon1 : addW (start + (decimal len).length) 1 = start + (decimal len).length + 1 :=
      addW_eq (by omega)
    rw [hcolon1]
    by_cases hw : sizeMod ≤ start + (decimal len).length + len + 1
    · right
      rw [Nat.mod_eq_sub_mod hw, Nat.mod_eq_of_lt (by omega)] at hcomma
      refine ⟨len, ⟨hlt, hpre, hw, hcomma⟩, rfl, ?_⟩
      rw [Nat.mod_eq_sub_mod (by omega)]
      have hidx : start + (decimal len).length + len + 1 - sizeMod < sv.length := by
        by_contra hge
        rw [List.getElem?_eq_none (by omega)] at hcomma
        simp at hcomma
      rw [Nat.mod_eq_of_lt (by omega)]
    · left
      rw [Nat.mod_eq_of_lt (by omega)] at hcomma
      obtain ⟨p, hlen, hp, hat⟩ := isNetstringAt_of_comma hpre hcomma
      subst hlen
      have hend := length_le_of_prefix_drop hat (netstring_ne_nil p)
      rw [netstring_length] at hend
      refine ⟨p, hat, by rw [← hp], ?_⟩
      rw [Nat.mod_eq_of_lt (by omega), netstring_length]
      omega
  · rintro (⟨p, hat, rfl, rfl⟩ | ⟨len, ⟨hlt, hpre, hw, hcomma⟩, rfl, he⟩)
    · have hend := length_le_of_prefix_drop hat (netstring_ne_nil p)
      rw [netstring_length] at hend
      have hpre : decimal p.length ++ [ch ':'] <+: sv.drop start :=
        List.IsPrefix.trans ⟨p ++ [ch ','], by simp [netstring]⟩ hat
      refine ⟨p.length, _, ⟨by omega, hpre, rfl⟩, ?_, ?_, ?_, ?_⟩
      · rw [addW_addW, Nat.mod_eq_of_lt (by omega)]
        have := getElem?_of_prefix_drop hat
          (i := (decimal p.length).length + p.length + 1) (by rw [netstring_length]; omega)
        rw [show start + (decimal p.length).length + p.length + 1
          = start + ((decimal p.length).length + p.length + 1) from by omega, this, netstring]
        rw [List.getElem?_append_right (by simp; omega)]
        simp [Nat.add_assoc]
      · rw [addW_eq (by omega)]
        omega
      · rw [addW_eq (by omega), slice_of_isNetstringAt hat]
      · rw [addW_addW, Nat.mod_eq_of_lt (by omega), netstring_length]
        omega
    · have hcolon := length_le_of_prefix_drop hpre (by simp)
      simp only [List.length_append, List.length_singleton] at hcolon
      have hidx : start + (decimal len).length + len + 1 - sizeMod < sv.length := by
        by_contra hge
        rw [List.getElem?_eq_none (by omega)] at hcomma
        simp at hcomma
      refine ⟨len, _, ⟨hlt, hpre, rfl⟩, ?_, ?_, ?_, ?_⟩
      · rw [addW_addW, Nat.mod_eq_sub_mod hw, Nat.mod_eq_of_lt (by omega)]
        exact hcomma
      · rw [addW_eq (by omega)]
        omega
      · rw [addW_eq (by omega)]
      · rw [he, addW_addW, Nat.mod_eq_sub_mod (by omega), Nat.mod_eq_of_lt (by omega)]

/-! ## Progress -/

/-- A scan of a netstring ends after its first byte and inside the string. -/
theorem IsNetstringAt.end_bounds {sv p : Bytes} {start : ℕ} (h : IsNetstringAt sv start p) :
    start < start + (netstring p).length ∧ start + (netstring p).length ≤ sv.length := by
  have := List.length_pos_iff.mpr (netstring_ne_nil p)
  exact ⟨by omega, length_le_of_prefix_drop h (netstring_ne_nil p)⟩

theorem digitByte_ne_comma {d : ℕ} (h : d < 10) : digitByte d ≠ ch ',' := by
  interval_cases d <;> decide

/-- The digits of a length and its colon are no commas. -/
theorem comma_not_mem_length (len : ℕ) : ch ',' ∉ decimal len ++ [ch ':'] := by
  simp only [List.mem_append, List.mem_singleton, decimal, List.mem_map, not_or]
  refine ⟨?_, by decide⟩
  rintro ⟨d, hd, heq⟩
  exact digitByte_ne_comma (decimalDigits_lt hd) heq

/-- A wrapped scan returns an offset that is not past its scan point. -/
theorem WrapsAt.end_le {sv : Bytes} {start len : ℕ} (h : WrapsAt sv start len) :
    start + (decimal len).length + len + 2 - sizeMod ≤ start := by
  have hlt := h.len_lt
  have hw := h.wraps
  by_contra hgt
  -- Otherwise the comma would be one of the digits or the colon.
  obtain ⟨i, hi⟩ : ∃ i, start + (decimal len).length + len + 1 - sizeMod = start + i :=
    ⟨start + (decimal len).length + len + 1 - sizeMod - start, by omega⟩
  have hi' : i < (decimal len ++ [ch ':']).length := by
    simp only [List.length_append, List.length_singleton]
    omega
  have hcomma := h.comma
  rw [hi, getElem?_of_prefix_drop h.text hi'] at hcomma
  exact comma_not_mem_length len (List.mem_of_getElem? hcomma)

/-- A netstring at the scan point is read as it was written; there is no whitespace in front of it. -/
theorem svscanNetstring_netstring {sv p : Bytes} (hsv : sv.length < sizeMod) {start : ℕ}
    (h : IsNetstringAt sv start p) : svscanNetstring true sv start
      = .ok (⟨start + (decimal p.length).length + 1, p⟩, start + (netstring p).length) := by
  obtain ⟨rest, hrest⟩ := h
  have hwhite : svscanWhite sv start = start := by
    have hle := (IsNetstringAt.end_bounds ⟨rest, hrest⟩).2
    unfold svscanWhite
    rw [if_neg (by omega)]
    refine @skipWhite_decimal p.length _ _ ([ch ':'] ++ p ++ [ch ','] ++ rest) ?_
    rw [← hrest, netstring]
    simp
  have hskip : svscanNetstring true sv start = svscanNetstring false sv (svscanWhite sv start) := rfl
  rw [hskip, hwhite]
  exact (svscanNetstring_eq_ok_iff hsv _ _ _).mpr (.inl ⟨p, ⟨rest, hrest⟩, rfl, rfl⟩)

end Fs123
