import Fs123.Core.Exn

/-!
# Percent-escapes

The model of `urlescape` and `urlunescape` of `strutils.hpp`, and of the decoder of the http library.

`urlescape` leaves `/` alone, so it can be applied to a whole path. Both decoders undo it
(`urlunescape_urlescape`, `percentDecode_urlescape`); they differ on texts that it does not produce: a
malformed escape makes `urlunescape` throw, and `percentDecode` keeps it as it is.
-/

namespace Fs123

open Cxx

/-- The bytes that `urlescape` keeps. -/
def urlSafe (c : UInt8) : Bool :=
  (ch 'a' ≤ c && c ≤ ch 'z') || (ch 'A' ≤ c && c ≤ ch 'Z') || (ch '0' ≤ c && c ≤ ch '9')
    || c = ch '-' || c = ch '.' || c = ch '_' || c = ch '~' || c = ch '/'

/-- The digits of an escape. -/
def upperHex (n : ℕ) : UInt8 := (bytes "0123456789ABCDEF").getD n 0

/-- What `urlescape` appends for one byte. -/
def escapeByte (c : UInt8) : Bytes :=
  if urlSafe c then [c] else [ch '%', upperHex (c.toNat / 16), upperHex (c.toNat % 16)]

/-- `urlescape(in)`. -/
def urlescape (sv : Bytes) : Bytes := sv.flatMap escapeByte

/-- The value of a hexadecimal digit. -/
def hexval (x : UInt8) : Option ℕ :=
  if ch '0' ≤ x && x ≤ ch '9' then some (x.toNat - 48)
  else if ch 'a' ≤ x && x ≤ ch 'f' then some (10 + x.toNat - 97)
  else if ch 'A' ≤ x && x ≤ ch 'F' then some (10 + x.toNat - 65)
  else none

/-- `urlunescape(in)`. -/
def urlunescape : Bytes → Res Bytes
  | [] => .ok []
  | c :: rest =>
    if c = ch '%' then
      match rest with
      | x :: y :: rest =>
        match hexval x, hexval y with
        | some hi, some lo => do
          let ret ← urlunescape rest
          .ok (UInt8.ofNat (16 * hi + lo) :: ret)
        | _, _ =>
          throwE .invalidArgument (bytes "urlunescape:  non-hex digit in %-escape")
      | _ => throwE .invalidArgument (bytes "urlunescape: end-of-string in middle of %-escape")
    else do
      let ret ← urlunescape rest
      .ok (c :: ret)

/-- The documented effect of `evhttp_uridecode` without plus-decoding: an escape with two digits is
decoded, every other byte is kept. -/
def percentDecode : Bytes → Bytes
  | c :: x :: y :: rest =>
    if c = ch '%' then
      match hexval x, hexval y with
      | some hi, some lo => UInt8.ofNat (16 * hi + lo) :: percentDecode rest
      | _, _ => c :: percentDecode (x :: y :: rest)
    else c :: percentDecode (x :: y :: rest)
  | sv => sv

/-! ## The bytes of an escaped text -/

theorem hexval_upperHex {n : ℕ} (h : n < 16) : hexval (upperHex n) = some n := by
  interval_cases n <;> decide

theorem urlSafe_upperHex {n : ℕ} (h : n < 16) : urlSafe (upperHex n) = true := by
  interval_cases n <;> decide

/-- Escaping produces kept bytes and percent signs only. -/
theorem mem_urlescape {sv : Bytes} {c : UInt8} (h : c ∈ urlescape sv) :
    urlSafe c = true ∨ c = ch '%' := by
  obtain ⟨b, -, hc⟩ := List.mem_flatMap.mp h
  have hb := UInt8.toNat_lt b
  unfold escapeByte at hc
  split at hc
  · next hsafe =>
    rw [List.mem_singleton.mp hc]
    exact Or.inl hsafe
  · simp only [List.mem_cons, List.not_mem_nil, or_false] at hc
    rcases hc with hc | hc | hc
    · exact Or.inr hc
    · rw [hc]
      exact Or.inl (urlSafe_upperHex (by omega))
    · rw [hc]
      exact Or.inl (urlSafe_upperHex (by omega))

/-- A byte that is neither kept nor a percent sign does not occur in an escaped text. -/
theorem not_mem_urlescape {c : UInt8} (hsafe : urlSafe c = false) (hc : c ≠ ch '%') (sv : Bytes) :
    c ∉ urlescape sv := by
  intro hmem
  rcases mem_urlescape hmem with h | h
  · rw [hsafe] at h
    exact absurd h (by decide)
  · exact hc h

/-- A safe byte that is no digit occurs in an escaped text only where it stood before. -/
theorem mem_urlescape_iff {c : UInt8} (hsafe : urlSafe c = true) (hhex : hexval c = none) (sv : Bytes) :
    c ∈ urlescape sv ↔ c ∈ sv := by
  unfold urlescape
  rw [List.mem_flatMap]
  constructor
  · intro h
    obtain ⟨b, hb, hc⟩ := h
    have hlt := UInt8.toNat_lt b
    unfold escapeByte at hc
    split at hc
    · rwa [List.mem_singleton.mp hc]
    · simp only [List.mem_cons, List.not_mem_nil, or_false] at hc
      rcases hc with hc | hc | hc
      · rw [hc] at hsafe
        exact absurd hsafe (by decide)
      · rw [hc, hexval_upperHex (by omega)] at hhex
        simp at hhex
      · rw [hc, hexval_upperHex (by omega)] at hhex
        simp at hhex
  · intro h
    exact ⟨c, h, by simp [escapeByte, hsafe]⟩

@[simp] theorem urlescape_nil : urlescape [] = [] := rfl

theorem urlescape_cons (c : UInt8) (sv : Bytes) : urlescape (c :: sv) = escapeByte c ++ urlescape sv :=
  rfl

theorem escapeByte_length_pos (c : UInt8) : 0 < (escapeByte c).length := by
  unfold escapeByte
  split <;> simp

theorem length_le_urlescape (sv : Bytes) : sv.length ≤ (urlescape sv).length := by
  induction sv with
  | nil => exact le_rfl
  | cons c sv ih =>
    have := escapeByte_length_pos c
    rw [urlescape_cons, List.length_append, List.length_cons]
    omega

/-- Escaping changes exactly the texts with a byte that is not kept. -/
theorem urlescape_eq_self_iff (sv : Bytes) : urlescape sv = sv ↔ ∀ c ∈ sv, urlSafe c = true := by
  constructor
  · intro h
    induction sv with
    | nil => simp
    | cons c sv ih =>
      have hlen := congrArg List.length h
      have hle := length_le_urlescape sv
      rw [urlescape_cons] at h
      by_cases hsafe : urlSafe c = true
      · simp only [escapeByte, hsafe, if_true, List.singleton_append, List.cons.injEq, true_and] at h
        simpa [hsafe] using ih h
      · -- An escape is two bytes longer than what it stands for.
        exfalso
        rw [urlescape_cons, escapeByte, if_neg hsafe] at hlen
        simp only [List.length_append, List.length_cons, List.length_nil] at hlen
        omega
  · intro h
    induction sv with
    | nil => rfl
    | cons c sv ih =>
      rw [urlescape_cons, escapeByte, if_pos (h c (by simp)), ih (fun b hb => h b (by simp [hb]))]
      rfl

/-! ## Decoding -/

theorem urlunescape_cons {c : UInt8} (h : c ≠ ch '%') (sv : Bytes) :
    urlunescape (c :: sv) = (do let ret ← urlunescape sv; .ok (c :: ret)) := by
  rw [urlunescape.eq_def]
  simp only [if_neg h]

theorem urlunescape_escape {x y : UInt8} {hi lo : ℕ} (hx : hexval x = some hi) (hy : hexval y = some lo)
    (sv : Bytes) :
    urlunescape (ch '%' :: x :: y :: sv)
      = (do let ret ← urlunescape sv; .ok (UInt8.ofNat (16 * hi + lo) :: ret)) := by
  rw [urlunescape.eq_def]
  simp only [if_true, hx, hy]

theorem percentDecode_cons {c : UInt8} (h : c ≠ ch '%') (sv : Bytes) :
    percentDecode (c :: sv) = c :: percentDecode sv := by
  match sv with
  | [] => rfl
  | [_] => rfl
  | x :: y :: rest => rw [percentDecode, if_neg h]

theorem percentDecode_escape {x y : UInt8} {hi lo : ℕ} (hx : hexval x = some hi)
    (hy : hexval y = some lo) (sv : Bytes) :
    percentDecode (ch '%' :: x :: y :: sv) = UInt8.ofNat (16 * hi + lo) :: percentDecode sv := by
  rw [percentDecode, if_pos rfl]
  simp only [hx, hy]

theorem ne_percent_of_urlSafe {c : UInt8} (h : urlSafe c = true) : c ≠ ch '%' := by
  rintro rfl
  exact absurd h (by decide)

/-- The value of the escape of a byte is the byte. -/
theorem ofNat_nibbles (c : UInt8) : UInt8.ofNat (16 * (c.toNat / 16) + c.toNat % 16) = c := by
  rw [Nat.div_add_mod]
  exact UInt8.ofNat_toNat

/-- `urlunescape` inverts `urlescape`, whatever follows. -/
theorem urlunescape_urlescape_append (sv : Bytes) {rest ret : Bytes} (h : urlunescape rest = .ok ret) :
    urlunescape (urlescape sv ++ rest) = .ok (sv ++ ret) := by
  induction sv with
  | nil => exact h
  | cons c sv ih =>
    have hc := UInt8.toNat_lt c
    rw [urlescape_cons, escapeByte]
    split
    · next hsafe =>
      rw [List.singleton_append, List.cons_append, urlunescape_cons (ne_percent_of_urlSafe hsafe), ih]
      rfl
    · simp only [List.cons_append, List.nil_append]
      rw [urlunescape_escape (hexval_upperHex (by omega)) (hexval_upperHex (by omega)), ih,
        ofNat_nibbles]
      rfl

theorem urlunescape_urlescape (sv : Bytes) : urlunescape (urlescape sv) = .ok sv := by
  have h : urlunescape (urlescape sv ++ []) = .ok (sv ++ []) := urlunescape_urlescape_append sv rfl
  simpa using h

/-- Decoding never makes a text longer, and an escape makes it shorter. -/
theorem urlunescape_length {sv ret : Bytes} (h : urlunescape sv = .ok ret) :
    ret.length ≤ sv.length ∧ (ch '%' ∈ sv → ret.length < sv.length) := by
  induction sv using urlunescape.induct generalizing ret with
  | case1 =>
    obtain rfl : [] = ret := by simpa [urlunescape] using h
    simp
  | case2 x y rest hi lo hy hx ih =>
    rw [urlunescape_escape hx hy] at h
    obtain ⟨ret', hret, h⟩ := bind_eq_ok_iff.mp h
    obtain rfl : _ :: ret' = ret := by simpa using h
    have := (ih hret).1
    simp only [List.length_cons]
    omega
  | case3 x y rest hno =>
    rw [urlunescape.eq_def] at h
    simp at h
  | case4 rest hno =>
    rw [urlunescape.eq_def] at h
    simp at h
  | case5 c rest hc ih =>
    rw [urlunescape_cons hc] at h
    obtain ⟨ret', hret, h⟩ := bind_eq_ok_iff.mp h
    obtain rfl : c :: ret' = ret := by simpa using h
    have := ih hret
    simp only [List.length_cons, List.mem_cons]
    refine ⟨by omega, ?_⟩
    intro hmem
    rcases hmem with hmem | hmem
    · exact absurd hmem.symm hc
    · have := this.2 hmem
      omega

/-- A byte that is neither a hexadecimal digit nor the percent sign is never swallowed by an escape. -/
theorem urlunescape_count {sv ret : Bytes} {c : UInt8} (hc : hexval c = none) (hp : c ≠ ch '%')
    (h : urlunescape sv = .ok ret) : sv.count c ≤ ret.count c := by
  induction sv using urlunescape.induct generalizing ret with
  | case1 => simp
  | case2 x y rest hi lo hy hx ih =>
    rw [urlunescape_escape hx hy] at h
    obtain ⟨ret', hret, h⟩ := bind_eq_ok_iff.mp h
    obtain rfl : _ :: ret' = ret := by simpa using h
    have hxc : x ≠ c := by
      rintro rfl
      rw [hc] at hx
      simp at hx
    have hyc : y ≠ c := by
      rintro rfl
      rw [hc] at hy
      simp at hy
    rw [List.count_cons_of_ne hp.symm, List.count_cons_of_ne hxc, List.count_cons_of_ne hyc]
    exact (ih hret).trans List.count_le_count_cons
  | case3 x y rest hno =>
    rw [urlunescape.eq_def] at h
    simp at h
  | case4 rest hno =>
    rw [urlunescape.eq_def] at h
    simp at h
  | case5 a rest ha ih =>
    rw [urlunescape_cons ha] at h
    obtain ⟨ret', hret, h⟩ := bind_eq_ok_iff.mp h
    obtain rfl : a :: ret' = ret := by simpa using h
    rw [List.count_cons, List.count_cons]
    exact Nat.add_le_add_right (ih hret) _

/-- `urlunescape` leaves exactly the texts without a percent sign alone. -/
theorem urlunescape_eq_self_iff (sv : Bytes) : urlunescape sv = .ok sv ↔ ch '%' ∉ sv := by
  constructor
  · intro h hmem
    exact absurd ((urlunescape_length h).2 hmem) (lt_irrefl _)
  · intro h
    induction sv with
    | nil => rfl
    | cons c sv ih =>
      simp only [List.mem_cons, not_or] at h
      rw [urlunescape_cons (Ne.symm h.1), ih h.2]
      rfl

/-- The http library's decoder inverts `urlescape`, whatever follows. -/
theorem percentDecode_urlescape_append (sv rest : Bytes) :
    percentDecode (urlescape sv ++ rest) = sv ++ percentDecode rest := by
  induction sv with
  | nil => rfl
  | cons c sv ih =>
    have hc := UInt8.toNat_lt c
    rw [urlescape_cons, escapeByte]
    split
    · next hsafe =>
      rw [List.singleton_append, List.cons_append, percentDecode_cons (ne_percent_of_urlSafe hsafe), ih,
        List.cons_append]
    · simp only [List.cons_append, List.nil_append]
      rw [percentDecode_escape (hexval_upperHex (by omega)) (hexval_upperHex (by omega)), ih,
        ofNat_nibbles]

theorem percentDecode_urlescape (sv : Bytes) : percentDecode (urlescape sv) = sv := by
  have := percentDecode_urlescape_append sv []
  simpa [percentDecode] using this

/-- A first part without percent signs is kept. -/
theorem percentDecode_append_of_not_mem {a : Bytes} (h : ch '%' ∉ a) (rest : Bytes) :
    percentDecode (a ++ rest) = a ++ percentDecode rest := by
  induction a with
  | nil => rfl
  | cons c a ih =>
    simp only [List.mem_cons, not_or] at h
    rw [List.cons_append, percentDecode_cons (Ne.symm h.1), ih h.2, List.cons_append]

theorem percentDecode_eq_self {a : Bytes} (h : ch '%' ∉ a) : percentDecode a = a := by
  have := percentDecode_append_of_not_mem h []
  simpa [percentDecode] using this

end Fs123
