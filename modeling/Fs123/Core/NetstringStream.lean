import Fs123.Core.IStream
import Fs123.Core.Netstring

/-!
# Netstrings on streams

`sget_netstring` reads the length of a netstring with a loop of its own. `sgetNetstring_eq_true_iff` says what it
accepts: the digits may be missing, and a length is only found to be too large when the loop sees its value drop
(`LengthStep`). Whether it agrees with `svscan_netstring` is decided in `netstring_readers`.
-/

namespace Fs123

open Cxx

/-! ## Writing and reading -/

/-- `sput_netstring(out, sv)`: the text in `out` afterwards. -/
def sputNetstring (out sv : Bytes) : Bytes := out ++ decimal sv.length ++ [ch ':'] ++ sv ++ [ch ',']

/-- The loop of `sget_netstring` over the length, with the text that is left in a good stream. -/
def sgetLength : Bytes → Bool → ℕ → Res (ℕ × Bytes)
  | [], _, _ => throwE .runtimeError (bytes "sget_netstring:  reading from inp failed before end of digits")
  | c :: rest, firstTime, sz =>
    if c = ch ':' then .ok (sz, rest)
    else if firstTime = false ∧ sz = 0 then
      throwE .runtimeError (bytes "sget_netstring:  leading zeros not allowed on length")
    else
      -- `c-'0'` may be negative, and is then a large `size_t`.
      let digit := subW c.toNat 48
      if 10 ≤ digit then throwE .runtimeError (bytes "sget_netstring: expected a digit or colon")
      else
        let next := addW (sz * 10) digit
        if next < sz then throwE .runtimeError (bytes "sget_netstring: length doesn't fit in a size_t")
        else sgetLength rest false next

/-- What `sget_netstring` does when it is not at the end of the input. -/
def sgetParse (inp : IStream) (sp : Bytes) (maxSize : ℕ) : Bytes × Res (Bool × IStream) :=
  if inp.good then
    match sgetLength inp.rest true 0 with
    | .error e => (sp, .error e)
    | .ok (sz, rest) =>
      if maxSize < sz then (sp, throwE .runtimeError (bytes "sget_netstring: length exceeds max_size argument"))
      -- `std::string s(sz, '\0')`
      else if 2 ^ 63 ≤ sz then (sp, throwE .lengthError (bytes "basic_string::_M_create"))
      else
        let (s, inp) := IStream.read { inp with rest := rest } sz
        if inp.good then
          let (c, inp) := inp.get
          if c = some (ch ',') then (s, .ok (true, inp))
          else (sp, throwE .runtimeError (bytes "sget_netstring: did not get terminal comma"))
        else (sp, throwE .runtimeError (bytes "sget_netstring: failed to read " ++ decimal sz ++ bytes " bytes"))
  else (sp, throwE .runtimeError (bytes "sget_netstring:  reading from inp failed before end of digits"))

/-- `sget_netstring(inp, sp, skip_white, max_size)`: `*sp` afterwards, and the result with the stream. -/
def sgetNetstring (inp : IStream) (sp : Bytes) (skip : Bool) (maxSize : ℕ) : Bytes × Res (Bool × IStream) :=
  let inp := if skip then inp.ws else inp
  if inp.eof then (sp, .ok (false, inp)) else sgetParse inp sp maxSize

/-- `svscan_netstring<skip_white>(sv, svp, start)`: `*svp` afterwards, and the result. -/
def svscanNetstringTo (skip : Bool) (sv : Bytes) (start : ℕ) (svp : View) : View × Res ℕ :=
  match svscanNetstring skip sv start with
  | .ok (v, e) => (v, .ok e)
  | .error e => (svp, .error e)

@[simp] theorem sputNetstring_eq (out p : Bytes) : sputNetstring out p = out ++ netstring p := by
  simp [sputNetstring, netstring]

/-! ## The length -/

theorem subW_digitByte {d : ℕ} (h : d < 10) : subW (digitByte d).toNat 48 = d := by
  rw [digitByte_toNat h, subW_eq (by omega) (by unfold sizeMod; omega)]
  omega

theorem digitByte_subW {c : UInt8} (h : subW c.toNat 48 < 10) : digitByte (subW c.toNat 48) = c := by
  apply UInt8.toNat_inj.mp
  rw [digitByte_toNat h]
  have hc := c.toNat_lt
  unfold subW sizeMod at h ⊢
  omega

theorem digitByte_ne_colon {d : ℕ} (h : d < 10) : digitByte d ≠ ch ':' := by
  interval_cases d <;> decide

/-- The two checks of the loop when it comes to the digit `d` behind the digits `pre`. -/
structure LengthStep (pre : List ℕ) (d : ℕ) : Prop where
  leading : pre ≠ [] → digitsVal 10 pre % sizeMod ≠ 0
  grows : digitsVal 10 pre % sizeMod ≤ digitsVal 10 (pre ++ [d]) % sizeMod

theorem sgetLength_cons {c : UInt8} {l : Bytes} {pre : List ℕ} {r : ℕ × Bytes} (hc : c ≠ ch ':') :
    sgetLength (c :: l) pre.isEmpty (digitsVal 10 pre % sizeMod) = .ok r
      ↔ ∃ d < 10, c = digitByte d ∧ LengthStep pre d
        ∧ sgetLength l false (digitsVal 10 (pre ++ [d]) % sizeMod) = .ok r := by
  have hnext : ∀ d, addW (digitsVal 10 pre % sizeMod * 10) d = digitsVal 10 (pre ++ [d]) % sizeMod := by
    intro d
    rw [digitsVal_append, addW, Nat.add_mod, Nat.mod_mul_mod, ← Nat.add_mod]
  rw [sgetLength, if_neg hc]
  dsimp only
  constructor
  · intro h
    split at h
    · exact absurd h (throwE_ne_ok _ _ _)
    next hlead =>
    split at h
    · exact absurd h (throwE_ne_ok _ _ _)
    next hdigit =>
    split at h
    · exact absurd h (throwE_ne_ok _ _ _)
    next hgrow =>
    rw [hnext] at hgrow h
    refine ⟨subW c.toNat 48, not_le.mp hdigit, (digitByte_subW (not_le.mp hdigit)).symm, ⟨?_, not_lt.mp hgrow⟩, h⟩
    intro hpre hzero
    exact hlead ⟨List.isEmpty_eq_false_iff.mpr hpre, hzero⟩
  · rintro ⟨d, hd, rfl, hstep, h⟩
    rw [subW_digitByte hd, hnext, if_neg, if_neg (not_le.mpr hd), if_neg (not_lt.mpr hstep.grows)]
    · exact h
    · rintro ⟨hpre, hzero⟩
      exact hstep.leading (List.isEmpty_eq_false_iff.mp hpre) hzero

/-- The loop takes digits up to a colon as long as its checks pass, also no digits at all. -/
theorem sgetLength_eq_ok_iff {l : Bytes} {pre : List ℕ} {n : ℕ} {rest : Bytes} :
    sgetLength l pre.isEmpty (digitsVal 10 pre % sizeMod) = .ok (n, rest)
      ↔ ∃ ds, (∀ d ∈ ds, d < 10) ∧ (∀ mid d, mid ++ [d] <+: ds → LengthStep (pre ++ mid) d)
        ∧ l = ds.map digitByte ++ ch ':' :: rest ∧ n = digitsVal 10 (pre ++ ds) % sizeMod := by
  induction l generalizing pre with
  | nil => simp [sgetLength]
  | cons c l ih =>
    by_cases hc : c = ch ':'
    · rw [sgetLength, if_pos hc, Except.ok.injEq, Prod.mk.injEq]
      constructor
      · rintro ⟨rfl, rfl⟩
        refine ⟨[], by simp, by simp, by rw [hc]; rfl, by rw [List.append_nil]⟩
      · rintro ⟨ds, hds, -, hl, rfl⟩
        cases ds with
        | nil => exact ⟨by rw [List.append_nil], (List.cons.inj hl).2⟩
        | cons d ds =>
          have hd := (List.cons.inj hl).1
          exact absurd (hd.symm.trans hc) (digitByte_ne_colon (hds d List.mem_cons_self))
    · rw [sgetLength_cons hc]
      have hempty : ∀ d, (pre ++ [d]).isEmpty = false := fun d => by simp
      constructor
      · rintro ⟨d, hd, rfl, hstep, h⟩
        rw [← hempty d] at h
        obtain ⟨ds, hds, hsteps, rfl, rfl⟩ := ih.mp h
        refine ⟨d :: ds, List.forall_mem_cons.mpr ⟨hd, hds⟩, ?_, rfl, by rw [List.append_assoc]; rfl⟩
        intro mid d' hmid
        cases mid with
        | nil =>
          obtain ⟨rfl, -⟩ := List.cons_prefix_cons.mp hmid
          rwa [List.append_nil]
        | cons m mid =>
          obtain ⟨rfl, htail⟩ := List.cons_prefix_cons.mp hmid
          have hlast := hsteps mid d' htail
          rwa [List.append_assoc] at hlast
      · rintro ⟨ds, hds, hsteps, hl, rfl⟩
        cases ds with
        | nil => exact absurd (List.cons.inj hl).1 hc
        | cons d ds =>
          obtain ⟨hd, hds⟩ := List.forall_mem_cons.mp hds
          obtain ⟨rfl, rfl⟩ := List.cons.inj hl
          have hfirst := hsteps [] d ⟨ds, rfl⟩
          rw [List.append_nil] at hfirst
          refine ⟨d, hd, rfl, hfirst, ?_⟩
          rw [← hempty d]
          refine ih.mpr ⟨ds, hds, ?_, rfl, by rw [List.append_assoc]; rfl⟩
          intro mid d' hmid
          have hlast := hsteps (d :: mid) d' (List.cons_prefix_cons.mpr ⟨rfl, hmid⟩)
          rwa [List.append_cons] at hlast

/-- More digits never make the value smaller. -/
theorem digitsVal_le_append (pre ds : List ℕ) : digitsVal 10 pre ≤ digitsVal 10 (pre ++ ds) := by
  unfold digitsVal
  rw [List.foldl_append]
  exact le_foldl_digits (by norm_num) _ _

theorem head_le_digitsVal (d : ℕ) (ds : List ℕ) : d ≤ digitsVal 10 (d :: ds) := by
  have h := digitsVal_le_append [d] ds
  simpa [digitsVal] using h

/-- Where the value fits, the checks pass for the decimal text of a length, and for no digits. -/
theorem lengthStep_iff {ds : List ℕ} (hds : ∀ d ∈ ds, d < 10) (hlt : digitsVal 10 ds < sizeMod) :
    (∀ pre d, pre ++ [d] <+: ds → LengthStep pre d) ↔ ds = [] ∨ ds = decimalDigits (digitsVal 10 ds) := by
  have hmod : ∀ pre, pre <+: ds → digitsVal 10 pre % sizeMod = digitsVal 10 pre := by
    rintro pre ⟨t, rfl⟩
    exact Nat.mod_eq_of_lt ((digitsVal_le_append pre t).trans_lt hlt)
  constructor
  · intro hsteps
    cases ds with
    | nil => exact .inl rfl
    | cons d ds =>
      refine .inr (decimalDigits_digitsVal hds ?_).symm
      rintro rfl
      cases ds with
      | nil => rfl
      | cons e ds =>
        have hstep := hsteps [0] e ⟨ds, rfl⟩
        exact absurd (by rfl) (hstep.leading (List.cons_ne_nil _ _))
  · rintro (rfl | hdec) pre d hpre
    · simp at hpre
    · have hpre' : pre <+: ds := (List.prefix_append pre [d]).trans hpre
      constructor
      · intro hne
        rw [hmod pre hpre']
        cases pre with
        | nil => exact absurd rfl hne
        | cons x pre =>
          obtain ⟨t, ht⟩ := hpre
          have hhead : decimalDigits (digitsVal 10 ds) = x :: (pre ++ [d] ++ t) := by
            rw [← hdec, ← ht]
            rfl
          have hne0 : digitsVal 10 ds ≠ 0 := by
            intro hzero
            rw [hzero] at hhead
            have htail := (List.cons.inj hhead).2
            simp at htail
          have hx := decimalDigits_head_ne_zero hne0 hhead
          have hle := head_le_digitsVal x pre
          omega
      · rw [hmod _ hpre, hmod _ hpre']
        exact digitsVal_le_append pre [d]

/-! ## What the stream reader accepts -/

/-- The text that is read, behind the whitespace. -/
def sgetText (skip : Bool) (text : Bytes) : Bytes := if skip then text.dropWhile isspace else text

theorem sgetText_length_le (skip : Bool) (text : Bytes) : (sgetText skip text).length ≤ text.length := by
  unfold sgetText
  split
  · exact (List.dropWhile_sublist _).length_le
  · exact le_rfl

/-- A text of digits, a colon, a payload and a comma that passes the checks. -/
structure SgetAccepts (text : Bytes) (maxSize : ℕ) (ds : List ℕ) (p rest : Bytes) : Prop where
  digits : ∀ d ∈ ds, d < 10
  steps : ∀ pre d, pre ++ [d] <+: ds → LengthStep pre d
  text_eq : text = ds.map digitByte ++ ch ':' :: (p ++ ch ',' :: rest)
  length_eq : p.length = digitsVal 10 ds % sizeMod
  length_le : p.length ≤ maxSize

variable {text s sp : Bytes} {skip : Bool} {maxSize : ℕ} {inp : IStream}

theorem sgetLength_start_iff {n : ℕ} {rest : Bytes} :
    sgetLength text true 0 = .ok (n, rest)
      ↔ ∃ ds, (∀ d ∈ ds, d < 10) ∧ (∀ mid d, mid ++ [d] <+: ds → LengthStep mid d)
        ∧ text = ds.map digitByte ++ ch ':' :: rest ∧ n = digitsVal 10 ds % sizeMod :=
  @sgetLength_eq_ok_iff text [] n rest

theorem sgetParse_of_accepts {ds : List ℕ} {rest : Bytes} (h : SgetAccepts text maxSize ds s rest)
    (hs : s.length < 2 ^ 63) : sgetParse (.of text) sp maxSize = (s, .ok (true, .of rest)) := by
  obtain ⟨hds, hsteps, htext, hpayload, hmax⟩ := h
  have hn : sgetLength (IStream.of text).rest true 0 = .ok (s.length, s ++ ch ',' :: rest) :=
    sgetLength_start_iff.mpr ⟨ds, hds, hsteps, htext, hpayload⟩
  have hstream : ({ (IStream.of text) with rest := s ++ ch ',' :: rest } : IStream) = .of (s ++ ch ',' :: rest) := rfl
  unfold sgetParse
  rw [if_pos IStream.good_of, hn]
  dsimp only
  rw [if_neg (not_lt.mpr hmax), if_neg (not_le.mpr hs), hstream, IStream.read_of_append]
  simp

theorem sgetParse_eq_true_iff (hlen : text.length < 2 ^ 63) :
    sgetParse (.of text) sp maxSize = (s, .ok (true, inp))
      ↔ ∃ ds rest, SgetAccepts text maxSize ds s rest ∧ inp = .of rest := by
  constructor
  · intro h
    unfold sgetParse at h
    rw [if_pos IStream.good_of] at h
    have hstream : ∀ rest, ({ (IStream.of text) with rest := rest } : IStream) = .of rest := fun _ => rfl
    simp only [hstream] at h
    split at h
    · exact absurd (congrArg Prod.snd h) (by simp)
    next n rest hn =>
    obtain ⟨ds, hds, hsteps, htext, rfl⟩ := sgetLength_start_iff.mp hn
    split at h
    · exact absurd (congrArg Prod.snd h) (throwE_ne_ok _ _ _)
    next hmax =>
    split at h
    · exact absurd (congrArg Prod.snd h) (throwE_ne_ok _ _ _)
    split at h
    swap
    · exact absurd (congrArg Prod.snd h) (throwE_ne_ok _ _ _)
    next hgood =>
    obtain ⟨left, hleft, hread, hinp⟩ := IStream.read_good (Prod.mk.eta ..).symm hgood
    rw [hinp] at h
    split at h
    swap
    · exact absurd (congrArg Prod.snd h) (throwE_ne_ok _ _ _)
    next hcomma =>
    obtain ⟨rest', rfl, -⟩ := IStream.get_of_eq_some (Prod.ext hcomma rfl)
    cases h
    exact ⟨ds, rest', ⟨hds, hsteps, htext.trans (by rw [← hleft]), hread, by rw [hread]; exact not_lt.mp hmax⟩, rfl⟩
  · rintro ⟨ds, rest, haccepts, rfl⟩
    have hs : s.length < 2 ^ 63 := by
      have := congrArg List.length haccepts.text_eq
      simp only [List.length_append, List.length_cons] at this
      omega
    exact sgetParse_of_accepts haccepts hs

/-- `sget_netstring` on a good stream. It is at the end of the input when only whitespace is left. -/
theorem sgetNetstring_eq (text sp : Bytes) (skip : Bool) (maxSize : ℕ) :
    sgetNetstring (.of text) sp skip maxSize = if skip = true ∧ sgetText skip text = []
      then (sp, .ok (false, ⟨[], true, false⟩)) else sgetParse (.of (sgetText skip text)) sp maxSize := by
  cases skip with
  | false => rfl
  | true =>
    rw [sgetNetstring, if_pos rfl, IStream.ws_of, sgetText, if_pos rfl]
    cases htext : text.dropWhile isspace with
    | nil => rfl
    | cons c l => rfl

theorem sgetNetstring_eq_true_iff (hlen : text.length < 2 ^ 63) :
    sgetNetstring (.of text) sp skip maxSize = (s, .ok (true, inp))
      ↔ ∃ ds rest, SgetAccepts (sgetText skip text) maxSize ds s rest ∧ inp = .of rest := by
  have hle := sgetText_length_le skip text
  rw [sgetNetstring_eq]
  split
  · next hend =>
    rw [hend.2]
    constructor
    · intro h
      simp at h
    · rintro ⟨ds, rest, haccepts, -⟩
      have htext := haccepts.text_eq
      simp at htext
  · exact sgetParse_eq_true_iff (hle.trans_lt hlen)

/-- What is accepted is an empty length, a length that does not fit, or a netstring. -/
theorem SgetAccepts.kinds {ds : List ℕ} {p rest : Bytes} (h : SgetAccepts text maxSize ds p rest) :
    bytes ":," <+: text ∨ sizeMod ≤ digitsVal 10 ds ∨ text = netstring p ++ rest := by
  by_cases hlt : digitsVal 10 ds < sizeMod
  · have hlength := h.length_eq
    rw [Nat.mod_eq_of_lt hlt] at hlength
    rcases (lengthStep_iff h.digits hlt).mp h.steps with rfl | hdec
    · left
      obtain rfl : p = [] := List.length_eq_zero_iff.mp hlength
      exact ⟨rest, h.text_eq.symm⟩
    · right
      right
      rw [h.text_eq, netstring, hlength, decimal, ← hdec]
      simp
  · exact .inr (.inl (not_lt.mp hlt))

theorem sgetAccepts_netstring {p rest : Bytes} (hp : p.length < sizeMod) (hmax : p.length ≤ maxSize) :
    SgetAccepts (netstring p ++ rest) maxSize (decimalDigits p.length) p rest := by
  have hval := digitsVal_decimalDigits p.length
  refine ⟨fun d hd => decimalDigits_lt hd, ?_, ?_, by rw [hval, Nat.mod_eq_of_lt hp], hmax⟩
  · refine (lengthStep_iff (fun d hd => decimalDigits_lt hd) ?_).mpr (.inr ?_)
    · rwa [hval]
    · rw [hval]
  · rw [netstring, decimal]
    simp

/-! ## The point where the scan begins -/

/-- The scan point behind the whitespace that `skip_white` allows. -/
def scanPoint (skip : Bool) (sv : Bytes) (start : ℕ) : ℕ := if skip then svscanWhite sv start else start

variable {sv : Bytes} {start : ℕ}

theorem isspace_of_isWhite {c : UInt8} (h : isWhite c = true) : isspace c = true := by
  unfold isWhite at h
  simp only [Bool.or_eq_true, decide_eq_true_eq] at h
  rcases h with (((rfl | rfl) | rfl) | rfl) | rfl <;> decide

/-- The vertical tab is white for a stream only. -/
theorem eq_vtab {c : UInt8} (h : isspace c = true) (hwhite : isWhite c = false) : c = 11 := by
  unfold isspace at h
  unfold isWhite at hwhite
  simp only [Bool.or_eq_true, Bool.and_eq_true, decide_eq_true_eq] at h
  simp only [Bool.or_eq_false_iff, decide_eq_false_iff_not] at hwhite
  obtain ⟨⟨⟨⟨hspace, hnl⟩, htab⟩, hff⟩, hcr⟩ := hwhite
  rcases h with h | ⟨hlo, hhi⟩
  · exact absurd h hspace
  · have hlo' := UInt8.le_iff_toNat_le.mp hlo
    have hhi' := UInt8.le_iff_toNat_le.mp hhi
    have hne : ∀ k : UInt8, c ≠ k → c.toNat ≠ k.toNat := fun k hk heq => hk (UInt8.toNat_inj.mp heq)
    have h9 : c.toNat ≠ 9 := hne _ htab
    have h10 : c.toNat ≠ 10 := hne _ hnl
    have h12 : c.toNat ≠ 12 := hne _ hff
    have h13 : c.toNat ≠ 13 := hne _ hcr
    have h9' : (9 : UInt8).toNat = 9 := rfl
    have h13' : (13 : UInt8).toNat = 13 := rfl
    apply UInt8.toNat_inj.mp
    have h11 : (11 : UInt8).toNat = 11 := rfl
    omega

/-- Behind the start, the scanner has passed over a part of what the stream reader passes over. -/
theorem drop_scanPoint (sv : Bytes) (start : ℕ) :
    sv.drop (scanPoint true sv start) = (sv.drop start).dropWhile isWhite := by
  rw [scanPoint, if_pos rfl, svscanWhite]
  split
  · next hlt => rw [List.drop_length, List.drop_eq_nil_of_le hlt.le, List.dropWhile_nil]
  · rw [skipWhite, ← List.drop_drop]
    nth_rewrite 2 [← List.takeWhile_append_dropWhile (p := isWhite) (l := sv.drop start)]
    rw [List.drop_left]

theorem sgetText_scanPoint (skip : Bool) (sv : Bytes) (start : ℕ) :
    sgetText skip (sv.drop start) = sgetText skip (sv.drop (scanPoint skip sv start)) := by
  cases skip with
  | false => rfl
  | true =>
    rw [drop_scanPoint, sgetText, sgetText, if_pos rfl, if_pos rfl]
    nth_rewrite 1 [← List.takeWhile_append_dropWhile (p := isWhite) (l := sv.drop start)]
    exact List.dropWhile_append_of_pos fun c hc => isspace_of_isWhite (List.mem_takeWhile_imp hc)

/-- A netstring begins with a digit. -/
theorem netstring_cons (p : Bytes) : ∃ d < 10, ∃ l, netstring p = digitByte d :: l := by
  obtain ⟨d, ds, hdec, hd, -, -⟩ := decimal_cons p.length
  refine ⟨d, hd, ds ++ [ch ':'] ++ p ++ [ch ','], ?_⟩
  rw [netstring, hdec]
  simp

theorem sgetText_netstring (skip : Bool) (p rest : Bytes) :
    sgetText skip (netstring p ++ rest) = netstring p ++ rest := by
  obtain ⟨d, hd, l, hl⟩ := netstring_cons p
  cases skip with
  | false => rfl
  | true =>
    rw [sgetText, if_pos rfl, hl, List.cons_append, List.dropWhile_cons_of_neg (by simp [IStream.isspace_digitByte hd])]

/-- The stream reader reads a netstring whatever stands behind it. -/
theorem sgetNetstring_append {p : Bytes} (hp : p.length < 2 ^ 63) (hmax : p.length ≤ maxSize) (sp rest : Bytes)
    (skip : Bool) : sgetNetstring (.of (netstring p ++ rest)) sp skip maxSize = (p, .ok (true, .of rest)) := by
  rw [sgetNetstring_eq, sgetText_netstring, if_neg]
  · exact sgetParse_of_accepts (sgetAccepts_netstring (by unfold sizeMod; omega) hmax) hp
  · rintro ⟨-, hnil⟩
    exact netstring_ne_nil p (List.append_eq_nil_iff.mp hnil).1

/-- At a netstring the two readers begin at the same byte. -/
theorem sgetText_of_isNetstringAt {p : Bytes} (h : IsNetstringAt sv (scanPoint skip sv start) p) :
    sgetText skip (sv.drop start) = netstring p ++ sv.drop (scanPoint skip sv start + (netstring p).length) := by
  obtain ⟨rest, hrest⟩ := h
  rw [sgetText_scanPoint, ← hrest, sgetText_netstring, ← List.drop_drop, ← hrest, List.drop_left]

/-- A netstring that only the stream reader sees stands behind a vertical tab. -/
theorem isNetstringAt_or_vtab {p : Bytes} (h : netstring p <+: sgetText skip (sv.drop start)) :
    IsNetstringAt sv (scanPoint skip sv start) p
      ∨ skip = true ∧ sv[scanPoint skip sv start]? = some 11 := by
  rw [sgetText_scanPoint] at h
  cases skip with
  | false => exact .inl h
  | true =>
    rw [sgetText, if_pos rfl] at h
    cases htext : sv.drop (scanPoint true sv start) with
    | nil =>
      rw [htext, List.dropWhile_nil] at h
      exact absurd (List.prefix_nil.mp h) (netstring_ne_nil p)
    | cons c l =>
      have hwhite : isWhite c = false := by
        have hhead := List.head?_dropWhile_not isWhite (sv.drop start)
        rw [← drop_scanPoint, htext] at hhead
        simpa using hhead
      by_cases hspace : isspace c = true
      · refine .inr ⟨rfl, ?_⟩
        rw [getElem?_of_drop htext, eq_vtab hspace hwhite]
      · left
        rw [htext, List.dropWhile_cons_of_neg hspace, ← htext] at h
        exact h

/-! ## The string scanner -/

theorem svscanNetstring_scanPoint (skip : Bool) (sv : Bytes) (start : ℕ) :
    svscanNetstring skip sv start = svscanNetstring false sv (scanPoint skip sv start) := by
  cases skip <;> rfl

theorem svscanNetstring_inBounds (skip : Bool) (sv : Bytes) (start : ℕ) :
    InBounds (svscanNetstring skip sv start) := by
  rw [svscanNetstring_scanPoint]
  unfold svscanNetstring
  simp only [Bool.false_eq_true, if_false]
  refine (scanintU_ten_inBounds 64 sv _).bind fun r _ => (at?_inBounds sv _).bind fun first _ => ?_
  split
  · exact InBounds.throwE _ _
  refine (at?_inBounds sv _).bind fun c _ => ?_
  split
  · exact InBounds.throwE _ _
  refine (at?_inBounds sv _).bind fun e _ => ?_
  split
  · exact InBounds.throwE _ _
  · exact ((substr_inBounds sv _ _).bind fun _ _ => InBounds.ok _).bind fun _ _ => InBounds.ok _

theorem svscanNetstringTo_eq_ok_iff {svp v : View} {e : ℕ} :
    svscanNetstringTo skip sv start svp = (v, .ok e)
      ↔ svscanNetstring false sv (scanPoint skip sv start) = .ok (v, e) := by
  rw [← svscanNetstring_scanPoint, svscanNetstringTo]
  rcases svscanNetstring skip sv start with f | ⟨v', e'⟩ <;> simp

/-! ## The two readers -/

/-- What the two readers are for: on a string at an offset, and on a stream that holds the text from there on. -/
structure NetstringsRead (skip : Bool) (sv : Bytes) (start maxSize : ℕ) : Prop where
  /-- The scanner succeeds exactly on a netstring, with its payload and the offset behind it. -/
  scan_ok : ∀ svp v e, svscanNetstringTo skip sv start svp = (v, .ok e)
    ↔ ∃ p, IsNetstringAt sv (scanPoint skip sv start) p
      ∧ v = ⟨scanPoint skip sv start + (decimal p.length).length + 1, p⟩
      ∧ e = scanPoint skip sv start + (netstring p).length
  scan_inside : ∀ svp v e, svscanNetstringTo skip sv start svp = (v, .ok e) →
    v.Inside sv ∧ start < e ∧ e ≤ sv.length
  scan_throws : ∀ svp, (∀ e, (svscanNetstringTo skip sv start svp).2 ≠ .ok e) →
    Throws (svscanNetstringTo skip sv start svp).2 ∧ (svscanNetstringTo skip sv start svp).1 = svp
  /-- The stream reader succeeds on the same netstrings, if they are not too long. -/
  get_ok : ∀ sp s inp, sgetNetstring (.of (sv.drop start)) sp skip maxSize = (s, .ok (true, inp))
    ↔ IsNetstringAt sv (scanPoint skip sv start) s ∧ s.length ≤ maxSize
      ∧ inp = .of (sv.drop (scanPoint skip sv start + (netstring s).length))
  get_end : ∀ sp s inp, sgetNetstring (.of (sv.drop start)) sp skip maxSize = (s, .ok (false, inp)) →
    s = sp ∧ sgetText skip (sv.drop start) = []
  get_throws : ∀ sp, (∀ r, (sgetNetstring (.of (sv.drop start)) sp skip maxSize).2 ≠ .ok r) →
    Throws (sgetNetstring (.of (sv.drop start)) sp skip maxSize).2
      ∧ (sgetNetstring (.of (sv.drop start)) sp skip maxSize).1 = sp

/-- The inputs on which one of the readers accepts something else than a netstring. -/
inductive Misread (skip : Bool) (sv : Bytes) (start maxSize : ℕ) : Prop
  /-- The place where the scanner looks for the comma wraps round. -/
  | wraps {len : ℕ} (h : WrapsAt sv (scanPoint skip sv start) len)
  /-- The stream reader takes a missing length for zero. -/
  | empty (h : bytes ":," <+: sgetText skip (sv.drop start))
  /-- The length does not fit in a `size_t`, and the stream reader does not notice. -/
  | overflow {ds : List ℕ} {p rest : Bytes} (h : SgetAccepts (sgetText skip (sv.drop start)) maxSize ds p rest)
      (hlarge : sizeMod ≤ digitsVal 10 ds)
  /-- A vertical tab is white for the stream reader only. -/
  | vtab {p : Bytes} (hskip : skip = true) (htab : sv[scanPoint skip sv start]? = some 11)
      (hp : netstring p <+: sgetText skip (sv.drop start)) (hmax : p.length ≤ maxSize)

theorem IsNetstringAt.inside {p : Bytes} {n : ℕ} (h : IsNetstringAt sv n p) :
    View.Inside ⟨n + (decimal p.length).length + 1, p⟩ sv := by
  have hend := h.end_bounds.2
  rw [netstring_length] at hend
  exact ⟨by dsimp only; omega, slice_of_isNetstringAt h⟩

theorem digitRun_netstring (p rest : Bytes) : digitRun 10 (netstring p ++ rest) = decimalDigits p.length := by
  have hassoc : netstring p ++ rest = decimal p.length ++ (ch ':' :: (p ++ ch ',' :: rest)) := by
    rw [netstring]
    simp
  rw [hassoc, digitRun_decimal]
  rw [digitRun, if_pos digitcvt_colon]

theorem IsNetstringAt.getElem?_digit {p : Bytes} {n : ℕ} (h : IsNetstringAt sv n p) :
    ∃ d < 10, sv[n]? = some (digitByte d) := by
  obtain ⟨rest, hrest⟩ := h
  obtain ⟨d, hd, l, hl⟩ := netstring_cons p
  rw [hl] at hrest
  exact ⟨d, hd, getElem?_of_drop hrest.symm⟩

theorem IsNetstringAt.le_scanPoint {p : Bytes} (h : IsNetstringAt sv (scanPoint skip sv start) p) :
    start ≤ scanPoint skip sv start := by
  cases skip with
  | false => exact le_rfl
  | true =>
    have hend := h.end_bounds
    rw [scanPoint, if_pos rfl, svscanWhite] at hend ⊢
    split at hend
    · omega
    · next hge =>
      rw [if_neg hge, skipWhite]
      exact Nat.le_add_right _ _

theorem sgetLength_inBounds (l : Bytes) (firstTime : Bool) (sz : ℕ) : InBounds (sgetLength l firstTime sz) := by
  induction l generalizing firstTime sz with
  | nil => exact InBounds.throwE _ _
  | cons c l ih =>
    rw [sgetLength]
    dsimp only
    split_ifs
    · exact InBounds.ok _
    · exact InBounds.throwE _ _
    · exact InBounds.throwE _ _
    · exact InBounds.throwE _ _
    · exact ih _ _

/-- The ways in which the parse ends: it has stored the payload, or it throws and has not. -/
theorem sgetParse_cases (inp : IStream) (sp : Bytes) (maxSize : ℕ) :
    (∃ inp', (sgetParse inp sp maxSize).2 = .ok (true, inp') ∧ inp'.good = true)
      ∨ Throws (sgetParse inp sp maxSize).2 ∧ (sgetParse inp sp maxSize).1 = sp := by
  unfold sgetParse
  split
  · have hin := sgetLength_inBounds inp.rest true 0
    split
    · next e he =>
      rw [he] at hin
      exact .inr ⟨hin.throws_error, rfl⟩
    · dsimp only
      split
      · exact .inr ⟨throws_throwE _ _, rfl⟩
      split
      · exact .inr ⟨throws_throwE _ _, rfl⟩
      split
      · split
        · next hcomma => exact .inl ⟨_, rfl, IStream.get_good (Prod.ext hcomma rfl)⟩
        · exact .inr ⟨throws_throwE _ _, rfl⟩
      · exact .inr ⟨throws_throwE _ _, rfl⟩
  · exact .inr ⟨throws_throwE _ _, rfl⟩

theorem sgetParse_ne_false (inp inp' : IStream) (sp : Bytes) (maxSize : ℕ) :
    (sgetParse inp sp maxSize).2 ≠ .ok (false, inp') := by
  intro h
  rcases sgetParse_cases inp sp maxSize with ⟨_, hok, -⟩ | ⟨⟨_, hthrow⟩, -⟩
  · rw [h] at hok
    cases hok
  · rw [h] at hthrow
    cases hthrow

theorem sgetParse_throws (inp : IStream) (sp : Bytes) (maxSize : ℕ)
    (hnot : ∀ r, (sgetParse inp sp maxSize).2 ≠ .ok r) :
    Throws (sgetParse inp sp maxSize).2 ∧ (sgetParse inp sp maxSize).1 = sp := by
  rcases sgetParse_cases inp sp maxSize with ⟨_, hok, -⟩ | hthrows
  · exact absurd hok (hnot _)
  · exact hthrows

/-- A netstring that has been read leaves the stream good. -/
theorem sgetNetstring_cases (inp : IStream) (sp : Bytes) (skip : Bool) (maxSize : ℕ) :
    (∃ inp', (sgetNetstring inp sp skip maxSize).2 = .ok (true, inp') ∧ inp'.good = true)
      ∨ (∃ inp', (sgetNetstring inp sp skip maxSize).2 = .ok (false, inp'))
      ∨ Throws (sgetNetstring inp sp skip maxSize).2 := by
  unfold sgetNetstring
  generalize (if skip then inp.ws else inp) = start
  dsimp only
  split
  · exact .inr (.inl ⟨_, rfl⟩)
  · rcases sgetParse_cases start sp maxSize with hok | ⟨hthrow, -⟩
    · exact .inl hok
    · exact .inr (.inr hthrow)

section Reads

variable (hsv : sv.length < 2 ^ 63)
include hsv

theorem drop_length_lt (n : ℕ) : (sv.drop n).length < 2 ^ 63 := by
  rw [List.length_drop]
  omega

/-- Without a misreading the stream reader accepts exactly the netstrings. -/
theorem sgetNetstring_iff_of_not_misread (hmis : ¬ Misread skip sv start maxSize) :
    sgetNetstring (.of (sv.drop start)) sp skip maxSize = (s, .ok (true, inp))
      ↔ IsNetstringAt sv (scanPoint skip sv start) s ∧ s.length ≤ maxSize
        ∧ inp = .of (sv.drop (scanPoint skip sv start + (netstring s).length)) := by
  rw [sgetNetstring_eq_true_iff (drop_length_lt hsv start)]
  constructor
  · rintro ⟨ds, rest, haccepts, rfl⟩
    rcases haccepts.kinds with hempty | hlarge | htext
    · exact absurd (.empty hempty) hmis
    · exact absurd (.overflow haccepts hlarge) hmis
    · rcases isNetstringAt_or_vtab ⟨rest, htext.symm⟩ with hat | ⟨hskip, htab⟩
      · refine ⟨hat, haccepts.length_le, ?_⟩
        have heq := sgetText_of_isNetstringAt hat
        rw [htext] at heq
        rw [List.append_cancel_left heq]
      · exact absurd (.vtab hskip htab ⟨rest, htext.symm⟩ haccepts.length_le) hmis
  · rintro ⟨hat, hmax, rfl⟩
    have hend := hat.end_bounds.2
    rw [netstring_length] at hend
    refine ⟨decimalDigits s.length, _, ?_, rfl⟩
    rw [sgetText_of_isNetstringAt hat]
    exact sgetAccepts_netstring (by unfold sizeMod; omega) hmax

theorem netstringsRead_of_not_misread (hmis : ¬ Misread skip sv start maxSize) :
    NetstringsRead skip sv start maxSize := by
  have hscan : ∀ svp v e, svscanNetstringTo skip sv start svp = (v, .ok e)
      ↔ ∃ p, IsNetstringAt sv (scanPoint skip sv start) p
        ∧ v = ⟨scanPoint skip sv start + (decimal p.length).length + 1, p⟩
        ∧ e = scanPoint skip sv start + (netstring p).length := by
    intro svp v e
    rw [svscanNetstringTo_eq_ok_iff, svscanNetstring_eq_ok_iff (by unfold sizeMod; omega)]
    refine or_iff_left ?_
    rintro ⟨len, hwraps, -⟩
    exact hmis (.wraps hwraps)
  refine ⟨hscan, ?_, ?_, fun sp s inp => sgetNetstring_iff_of_not_misread hsv hmis, ?_, ?_⟩
  · intro svp v e h
    obtain ⟨p, hat, rfl, rfl⟩ := (hscan svp v e).mp h
    have hstart := hat.le_scanPoint
    have hend := hat.end_bounds
    exact ⟨hat.inside, by omega, hend.2⟩
  · intro svp hnot
    have hin := svscanNetstring_inBounds skip sv start
    unfold svscanNetstringTo at hnot ⊢
    rcases hres : svscanNetstring skip sv start with f | ⟨v, e⟩
    · rw [hres] at hin
      exact ⟨hin.throws_error, rfl⟩
    · rw [hres] at hnot
      exact absurd rfl (hnot e)
  · intro sp s inp h
    rw [sgetNetstring_eq] at h
    split at h
    · next hend =>
      cases h
      exact ⟨rfl, hend.2⟩
    · exact absurd (congrArg Prod.snd h) (sgetParse_ne_false _ _ _ _)
  · intro sp hnot
    rw [sgetNetstring_eq] at hnot ⊢
    split at hnot
    · exact absurd rfl (hnot _)
    · next hend =>
      rw [if_neg hend]
      exact sgetParse_throws _ _ _ hnot

theorem not_misread_of_netstringsRead (h : NetstringsRead skip sv start maxSize) :
    ¬ Misread skip sv start maxSize := by
  have hget : ∀ {ds p rest}, SgetAccepts (sgetText skip (sv.drop start)) maxSize ds p rest →
      sgetText skip (sv.drop start) = netstring p ++ rest := by
    intro ds p rest haccepts
    have hok : sgetNetstring (.of (sv.drop start)) [] skip maxSize = (p, .ok (true, .of rest)) :=
      (sgetNetstring_eq_true_iff (drop_length_lt hsv start)).mpr ⟨ds, rest, haccepts, rfl⟩
    obtain ⟨hat, -, hrest⟩ := (h.get_ok _ _ _).mp hok
    rw [sgetText_of_isNetstringAt hat]
    exact congrArg (netstring p ++ ·) (congrArg IStream.rest hrest).symm
  intro hmis
  cases hmis with
  | @wraps len hwraps =>
    have hscan := (svscanNetstring_eq_ok_iff (by unfold sizeMod; omega) _ _ _).mpr (.inr ⟨len, hwraps, rfl, rfl⟩)
    obtain ⟨p, hat, -, he⟩ := (h.scan_ok ⟨0, []⟩ _ _).mp (svscanNetstringTo_eq_ok_iff.mpr hscan)
    have hle := hwraps.end_le
    have hlt := hat.end_bounds.1
    omega
  | empty hempty =>
    obtain ⟨rest, hrest⟩ := hempty
    have haccepts : SgetAccepts (sgetText skip (sv.drop start)) maxSize [] [] rest :=
      ⟨by simp, by simp, hrest.symm, rfl, Nat.zero_le _⟩
    have htext := hget haccepts
    rw [← hrest] at htext
    exact absurd (List.cons.inj htext).1 (by decide)
  | @overflow ds p rest haccepts hlarge =>
    -- The digits are not those of the length of the payload, which fits.
    have htext := hget haccepts
    have hdigits : digitRun 10 (sgetText skip (sv.drop start)) = ds := by
      rw [haccepts.text_eq, digitRun_map_digitByte ds haccepts.digits, digitRun, if_pos digitcvt_colon,
        List.append_nil]
    rw [htext, digitRun_netstring] at hdigits
    have hval := digitsVal_decimalDigits p.length
    have hlt := Nat.mod_lt (digitsVal 10 ds) (by decide : 0 < sizeMod)
    rw [hdigits] at hval
    rw [← haccepts.length_eq] at hlt
    omega
  | @vtab p hskip htab hp hmax =>
    obtain ⟨rest, hrest⟩ := hp
    have hlt : p.length < sizeMod := by
      have hle := (List.IsPrefix.length_le ⟨rest, hrest⟩).trans (sgetText_length_le skip (sv.drop start))
      have htext := drop_length_lt hsv start
      rw [netstring_length] at hle
      unfold sizeMod
      omega
    have haccepts : SgetAccepts (netstring p ++ rest) maxSize _ p rest := sgetAccepts_netstring hlt hmax
    rw [hrest] at haccepts
    have hok : sgetNetstring (.of (sv.drop start)) [] skip maxSize = (p, .ok (true, .of rest)) :=
      (sgetNetstring_eq_true_iff (drop_length_lt hsv start)).mpr ⟨_, rest, haccepts, rfl⟩
    obtain ⟨hat, -, -⟩ := (h.get_ok _ _ _).mp hok
    obtain ⟨d, hd, hfirst⟩ := hat.getElem?_digit
    rw [htab, Option.some.injEq] at hfirst
    exact absurd hfirst (by interval_cases d <;> decide)

/-- What is written is read back, whatever stands in front of it or behind it. -/
theorem read_netstring {pre p post : Bytes} (h : sv = pre ++ netstring p ++ post) (skip : Bool) :
    (∀ svp, svscanNetstringTo skip sv pre.length svp
        = (⟨pre.length + (decimal p.length).length + 1, p⟩, .ok (pre.length + (netstring p).length)))
      ∧ ∀ sp maxSize, p.length ≤ maxSize →
        sgetNetstring (.of (sv.drop pre.length)) sp skip maxSize = (p, .ok (true, .of post)) := by
  have hdrop : sv.drop pre.length = netstring p ++ post := by rw [h, List.append_assoc, List.drop_left]
  have hat : IsNetstringAt sv pre.length p := ⟨post, hdrop.symm⟩
  have hend := hat.end_bounds.2
  rw [netstring_length] at hend
  constructor
  · intro svp
    have hpoint : scanPoint skip sv pre.length = pre.length := by
      have hle : ¬ sv.length < pre.length := by omega
      cases skip with
      | false => rfl
      | true =>
        obtain ⟨d, hd, l, hl⟩ := netstring_cons p
        rw [scanPoint, if_pos rfl, svscanWhite, if_neg hle, skipWhite, hdrop, hl, List.cons_append,
          List.takeWhile_cons_of_neg (by simp [isWhite_digitByte hd])]
        rfl
    rw [svscanNetstringTo_eq_ok_iff, hpoint]
    exact (svscanNetstring_eq_ok_iff (by unfold sizeMod; omega) _ _ _).mpr (.inl ⟨p, hat, rfl, rfl⟩)
  · intro sp maxSize hmax
    rw [hdrop]
    exact sgetNetstring_append (by omega) hmax sp post skip

end Reads

/-- The readers invert the writers. They accept the same netstrings, and fail on all else, exactly when the input
is none of those that one of them misreads. No string has `2^63` bytes. -/
theorem netstring_readers {sv : Bytes} (hsv : sv.length < 2 ^ 63) :
    (∀ pre p post, sv = pre ++ netstring p ++ post ∨ sv = sputNetstring pre p ++ post → ∀ skip,
      (∀ svp, svscanNetstringTo skip sv pre.length svp
          = (⟨pre.length + (decimal p.length).length + 1, p⟩, .ok (pre.length + (netstring p).length)))
        ∧ ∀ sp maxSize, p.length ≤ maxSize →
          sgetNetstring (.of (sv.drop pre.length)) sp skip maxSize = (p, .ok (true, .of post)))
      ∧ ∀ skip start maxSize, NetstringsRead skip sv start maxSize ↔ ¬ Misread skip sv start maxSize := by
  constructor
  · intro pre p post h skip
    rw [sputNetstring_eq, or_self] at h
    exact read_netstring hsv h skip
  · intro skip start maxSize
    exact ⟨not_misread_of_netstringsRead hsv, netstringsRead_of_not_misread hsv⟩

/-- A netstring between other text. -/
theorem netstring_readers_abc :
    sgetNetstring (.of ((bytes "x3:abc,y").drop 1)) [] true 3 = (bytes "abc", .ok (true, .of (bytes "y"))) := by
  have hsv : (bytes "x3:abc,y").length < 2 ^ 63 := by decide
  exact ((netstring_readers hsv).1 (bytes "x") (bytes "abc") (bytes "y") (.inl (by decide)) true).2 [] 3 (by decide)

/-- A colon and a comma are no netstring, and are read as one with no payload. -/
theorem sgetNetstring_empty_length :
    sgetNetstring (.of (bytes ":,")) [] true 999999999 = ([], .ok (true, .of []))
      ∧ (∀ svp, Throws (svscanNetstringTo true (bytes ":,") 0 svp).2)
      ∧ ¬ NetstringsRead true (bytes ":,") 0 999999999 := by
  refine ⟨by decide, fun svp => ⟨_, rfl⟩, fun h => ?_⟩
  exact not_misread_of_netstringsRead (by decide) h (.empty (List.prefix_refl _))

end Fs123
