import Fs123.Core.ScanInt
import Mathlib.Data.List.TakeWhile

/-!
# Decimal numerals

A `Numeral` is what a sender writes for a number: decimal digits, at least one of them, and zeros in front if
it likes. In base 10 the scanners read its value. When they find out the base by themselves, a zero in front
makes it octal (`svtoS_numeral_iff`).
-/

namespace Fs123

open Cxx

/-- A digit in base 8 is one in base 10 that is below 8. -/
theorem digitcvt_eight_digitByte {d : ℕ} (h : d < 10) : digitcvt 8 (digitByte d) = if d < 8 then d else 8 := by
  interval_cases d <;> decide

theorem EndsNumber.digitcvt_eight {c : UInt8} {l : Bytes} (h : EndsNumber (c :: l)) : digitcvt 8 c = 8 := by
  obtain ⟨hten, -, -⟩ := h c rfl
  by_contra height
  unfold digitcvt at height hten
  dsimp only at height hten
  split_ifs at height hten <;> omega

/-- A text of decimal digits. -/
structure Numeral where
  digits : List ℕ
  ne_nil : digits ≠ []
  lt_ten : ∀ d ∈ digits, d < 10

namespace Numeral

/-- The digits of `std::to_string`. -/
def ofNat (n : ℕ) : Numeral := ⟨decimalDigits n, decimalDigits_ne_nil n, fun _ hd => decimalDigits_lt hd⟩

variable (m : Numeral)

def text : Bytes := m.digits.map digitByte

def value : ℕ := digitsVal 10 m.digits

/-- There are digits in front of which no zero stands, or the number is that of its last digit, at most
seven. -/
def Plain : Prop := m.digits.head m.ne_nil ≠ 0 ∨ m.value ≤ 7

instance : Decidable m.Plain := inferInstanceAs (Decidable (_ ∨ _))

@[simp] theorem text_ofNat (n : ℕ) : (ofNat n).text = decimal n := rfl

@[simp] theorem value_ofNat (n : ℕ) : (ofNat n).value = n := digitsVal_decimalDigits n

theorem text_length : m.text.length = m.digits.length := List.length_map _

theorem text_ne_nil : m.text ≠ [] := by
  rw [text, ne_eq, List.map_eq_nil_iff]
  exact m.ne_nil

theorem text_cons : ∃ d ds, m.digits = d :: ds ∧ d < 10 ∧ m.text = digitByte d :: ds.map digitByte := by
  cases hds : m.digits with
  | nil => exact absurd hds m.ne_nil
  | cons d ds =>
    exact ⟨d, ds, rfl, m.lt_ten d (hds ▸ List.mem_cons_self), by rw [text, hds, List.map_cons]⟩

theorem mem_text {c : UInt8} (h : c ∈ m.text) : ∃ d < 10, c = digitByte d := by
  obtain ⟨d, hd, rfl⟩ := List.mem_map.mp h
  exact ⟨d, m.lt_ten d hd, rfl⟩

theorem digitRun_text {rest : Bytes} (hrest : digitRun 10 rest = []) :
    digitRun 10 (m.text ++ rest) = m.digits := by
  rw [text, digitRun_map_digitByte _ m.lt_ten, hrest, List.append_nil]

variable {m} {w start e : ℕ} {z : ℤ} {sv rest : Bytes}

/-- No white space is skipped in front of a numeral. -/
theorem skipWhite_text (hsv : sv.drop start = m.text ++ rest) : skipWhite sv start = start := by
  obtain ⟨d, ds, -, hd, htext⟩ := m.text_cons
  rw [skipWhite, hsv, htext, List.cons_append, List.takeWhile_cons, isWhite_digitByte hd]
  rfl

theorem getElem?_text (hsv : sv.drop start = m.text ++ rest) : ∃ d < 10, sv[start]? = some (digitByte d) := by
  obtain ⟨d, ds, -, hd, htext⟩ := m.text_cons
  refine ⟨d, hd, ?_⟩
  have := congrArg List.head? hsv
  rw [htext] at this
  simpa using this

/-- What the signed scanners make of the unsigned one: there is no sign in front of a numeral. -/
theorem scanintS_text_iff {base : ℕ} {skip : Bool} (hsv : sv.drop start = m.text ++ rest) :
    scanintS w base skip sv start = .ok (z, e)
      ↔ ∃ u : ℕ, scanintU w base false sv start = .ok (u, e) ∧ u < 2 ^ (w - 1) ∧ z = u := by
  have hpow := Nat.two_pow_pos (w - 1)
  obtain ⟨d, hd, hget⟩ := getElem?_text hsv
  have hneg : digitByte d ≠ ch '-' := by interval_cases d <;> decide
  have hskip : (if skip then skipWhite sv start else start) = start := by
    rw [skipWhite_text hsv, ite_self]
  unfold scanintS
  rw [hskip, catchE_eq_ok_iff (fun _ => scanintRethrow_ne_ok _ _ _ _)]
  simp only [hget, if_neg hneg, Nat.add_zero, Nat.sub_zero, Nat.zero_ne_one, if_false]
  rw [bind_eq_ok_iff]
  constructor
  · rintro ⟨⟨u, r⟩, hscan, hrest⟩
    dsimp only at hrest
    split at hrest
    · next h0 =>
      cases hrest
      exact ⟨u, hscan, by omega, by omega⟩
    · split at hrest
      · exact absurd hrest (throwE_ne_ok _ _ _)
      · cases hrest
        exact ⟨u, hscan, by omega, rfl⟩
  · rintro ⟨u, hscan, hlt, rfl⟩
    refine ⟨(u, e), hscan, ?_⟩
    dsimp only
    split
    · next h0 => simp [h0]
    · rw [if_neg (by omega)]

/-- In base 10 the signed scan reads the value, if it fits. -/
theorem scanintS_ten_text_iff {skip : Bool} (hw : 0 < w) (hsv : sv.drop start = m.text ++ rest)
    (hrest : digitRun 10 rest = []) :
    scanintS w 10 skip sv start = .ok (z, e)
      ↔ m.value < 2 ^ (w - 1) ∧ z = m.value ∧ e = start + m.text.length := by
  have hpow : 2 ^ w = 2 * 2 ^ (w - 1) := by
    rw [← Nat.pow_succ', Nat.succ_eq_add_one, Nat.sub_add_cancel hw]
  simp only [scanintS_text_iff hsv, scanintU_ten_eq_ok_iff, hsv, m.digitRun_text hrest, ← m.text_length]
  constructor
  · rintro ⟨u, ⟨-, rfl, -, he⟩, hlt, hz⟩
    exact ⟨hlt, hz, he⟩
  · rintro ⟨hlt, hz, he⟩
    exact ⟨m.value, ⟨m.ne_nil, rfl, by omega, he⟩, hlt, hz⟩

/-! ## Reading a numeral when the base is found out -/

theorem digitRun_eight {ds : List ℕ} (hds : ∀ d ∈ ds, d < 10) (hrest : EndsNumber rest) :
    digitRun 8 (ds.map digitByte ++ rest) = ds.takeWhile (· < 8) := by
  induction ds with
  | nil =>
    cases rest with
    | nil => rfl
    | cons c l => simp [digitRun, hrest.digitcvt_eight]
  | cons d ds ih =>
    have hd := hds d List.mem_cons_self
    rw [List.map_cons, List.cons_append, digitRun, digitcvt_eight_digitByte hd, List.takeWhile_cons]
    by_cases h : d < 8
    · simp only [h, if_true, decide_true]
      rw [if_neg (by omega), ih fun d' hd' => hds d' (List.mem_cons_of_mem _ hd')]
    · simp [h]

/-- A zero in front: the octal digits behind it are the number. -/
theorem scanintDetect_zero_iff {ds : List ℕ} {u : ℕ} (hds : ∀ d ∈ ds, d < 10) (hrest : EndsNumber rest)
    (hsv : sv.drop start = ch '0' :: (ds.map digitByte ++ rest)) :
    scanintDetect w sv start = .ok (u, e)
      ↔ u = digitsVal 8 (ds.takeWhile (· < 8)) ∧ u < 2 ^ w ∧ e = start + 1 + (ds.takeWhile (· < 8)).length := by
  have hrun := digitRun_eight hds hrest
  have hdrop : sv.drop (start + 1) = ds.map digitByte ++ rest := by
    rw [← List.drop_drop, hsv]
    rfl
  have hnone : ds.takeWhile (· < 8) = [] → ((.ok (0, start + 1) : Res (ℕ × ℕ)) = .ok (u, e)
      ↔ u = digitsVal 8 (ds.takeWhile (· < 8)) ∧ u < 2 ^ w
        ∧ e = start + 1 + (ds.takeWhile (· < 8)).length) := by
    intro hnil
    have hpow := Nat.two_pow_pos w
    rw [hnil, Except.ok.injEq, Prod.mk.injEq]
    constructor
    · rintro ⟨rfl, rfl⟩
      exact ⟨rfl, hpow, rfl⟩
    · rintro ⟨rfl, -, rfl⟩
      exact ⟨rfl, rfl⟩
  unfold scanintDetect
  rw [hsv]
  simp only [if_true]
  cases htail : ds.map digitByte ++ rest with
  | nil =>
    obtain ⟨hmap, -⟩ := List.append_eq_nil_iff.mp htail
    rw [List.map_eq_nil_iff] at hmap
    exact hnone (by rw [hmap]; rfl)
  | cons x l =>
    have hx : x ≠ ch 'x' ∧ x ≠ ch 'X' := by
      cases ds with
      | nil =>
        have hrest' : rest = x :: l := htail
        exact (hrest x (by rw [hrest']; rfl)).2
      | cons d ds =>
        have hd := hds d List.mem_cons_self
        obtain ⟨rfl, -⟩ := List.cons.inj htail
        constructor <;> interval_cases d <;> decide
    dsimp only
    rw [if_neg (by rw [not_or]; exact hx)]
    by_cases h8 : digitcvt 8 x = 8
    · rw [if_pos h8]
      refine hnone ?_
      rw [← hrun, htail, digitRun, if_pos h8]
    · rw [if_neg h8, scanuint_eq_ok_iff (by norm_num), hdrop, hrun]
      refine and_iff_right ?_
      rw [← hrun, htail, digitRun, if_neg h8]
      exact List.cons_ne_nil _ _

/-- `svto` accepts white space behind the number, and nothing else. -/
theorem svtoEnd_eq_ok_iff {α : Type} {v v' : α} {t rest : Bytes} :
    svtoEnd (t ++ rest) (v, t.length) = .ok v' ↔ v' = v ∧ ∀ c ∈ rest, isWhite c = true := by
  have hwhite : svscanWhite (t ++ rest) t.length = (t ++ rest).length ↔ ∀ c ∈ rest, isWhite c = true := by
    rw [svscanWhite, if_neg (by simp), skipWhite, List.drop_left, List.length_append,
      Nat.add_left_cancel_iff]
    rw [← List.takeWhile_eq_self_iff]
    constructor
    · intro h
      exact (List.takeWhile_prefix _).eq_of_length h
    · intro h
      rw [h]
  unfold svtoEnd
  dsimp only
  by_cases h : ∀ c ∈ rest, isWhite c = true
  · rw [if_neg (fun hne => hne.2 (hwhite.mpr h)), Except.ok.injEq]
    exact ⟨fun hv => ⟨hv.symm, h⟩, fun hv => hv.1.symm⟩
  · have hne : t.length ≠ (t ++ rest).length := by
      intro hlen
      rw [List.length_append] at hlen
      have hnil : rest = [] := List.length_eq_zero_iff.mp (by omega)
      rw [hnil] at h
      simp at h
    rw [if_pos ⟨hne, fun heq => h (hwhite.mp heq)⟩]
    simp only [h, and_false, iff_false]
    intro hbind
    obtain ⟨tail, -, hthrow⟩ := bind_eq_ok_iff.mp hbind
    exact throwE_ne_ok _ _ _ hthrow

theorem EndsNumber.of_isWhite (h : ∀ c ∈ rest, isWhite c = true) : EndsNumber rest := by
  intro c hc
  have hwhite := h c (List.mem_of_mem_head? hc)
  unfold isWhite at hwhite
  simp only [Bool.or_eq_true, decide_eq_true_eq] at hwhite
  rcases hwhite with (((rfl | rfl) | rfl) | rfl) | rfl <;> decide

/-! ### Octal and decimal values -/

theorem digitsVal_eight_le (ds : List ℕ) : digitsVal 8 ds ≤ digitsVal 10 ds := by
  induction ds using List.reverseRecOn with
  | nil => exact le_rfl
  | append_singleton ds d ih =>
    rw [digitsVal_append, digitsVal_append]
    omega

theorem le_digitsVal {ds : List ℕ} {d : ℕ} (h : d ∈ ds) : d ≤ digitsVal 10 ds := by
  induction ds using List.reverseRecOn with
  | nil => exact absurd h List.not_mem_nil
  | append_singleton ds d' ih =>
    rw [digitsVal_append]
    rcases List.mem_append.mp h with h | h
    · have := ih h
      omega
    · rw [List.mem_singleton.mp h]
      omega

/-- Digits mean the same in base 8 as in base 10 only for the numbers of one octal digit. -/
theorem octal_eq_decimal_iff (ds : List ℕ) :
    ((∀ d ∈ ds, d < 8) ∧ digitsVal 8 ds = digitsVal 10 ds) ↔ digitsVal 10 ds ≤ 7 := by
  constructor
  · rintro ⟨hds, heq⟩
    induction ds using List.reverseRecOn with
    | nil => exact Nat.zero_le _
    | append_singleton ds d _ =>
      have hle := digitsVal_eight_le ds
      have hd := hds d (List.mem_append_right _ List.mem_cons_self)
      rw [digitsVal_append, digitsVal_append] at heq
      rw [digitsVal_append]
      omega
  · intro hle
    refine ⟨fun d hd => Nat.lt_succ_of_le ((le_digitsVal hd).trans hle), ?_⟩
    induction ds using List.reverseRecOn with
    | nil => rfl
    | append_singleton ds d _ =>
      have hle' := digitsVal_eight_le ds
      rw [digitsVal_append] at hle
      rw [digitsVal_append, digitsVal_append]
      omega

/-- A zero in front of a numeral does not change its value. -/
theorem value_zero_cons {ds : List ℕ} (h : m.digits = 0 :: ds) : m.value = digitsVal 10 ds := by
  rw [value, h]
  rfl

/-- What is left behind the octal digits is white only when it is no digit. -/
theorem all_white_iff {ds : List ℕ} (hds : ∀ d ∈ ds, d < 10) (hrest : ∀ c ∈ rest, isWhite c = true) :
    (∀ c ∈ (ds.dropWhile (· < 8)).map digitByte ++ rest, isWhite c = true) ↔ ∀ d ∈ ds, d < 8 := by
  constructor
  · intro h d hd
    rw [← List.takeWhile_append_dropWhile (p := (· < 8)) (l := ds)] at hd
    rcases List.mem_append.mp hd with htake | hdrop
    · have hlt := List.mem_takeWhile_imp htake
      simpa using hlt
    · have hwhite := h (digitByte d) (List.mem_append_left _ (List.mem_map_of_mem hdrop))
      rw [isWhite_digitByte (hds d ((List.dropWhile_sublist _).mem hdrop))] at hwhite
      exact absurd hwhite Bool.false_ne_true
  · intro h
    rw [List.dropWhile_eq_nil_iff.mpr fun d hd => decide_eq_true (h d hd)]
    exact hrest

/-- What the scanner that finds out the base reads, when that is the value. -/
theorem detect_value_iff (hsv : sv = m.text ++ rest) (hrest : ∀ c ∈ rest, isWhite c = true)
    (hlt : m.value < 2 ^ w) :
    (∃ e, scanintDetect w sv 0 = .ok (m.value, e) ∧ svtoEnd sv ((m.value : ℤ), e) = .ok m.value)
      ↔ m.Plain := by
  have hends := EndsNumber.of_isWhite hrest
  obtain ⟨d, ds, hdigits, hd, htext⟩ := m.text_cons
  have hhead : m.digits.head m.ne_nil = d := by simp [hdigits]
  rw [Plain, hhead]
  by_cases hd0 : d = 0
  · subst hd0
    have hds : ∀ x ∈ ds, x < 10 := fun x hx => m.lt_ten x (hdigits ▸ List.mem_cons_of_mem _ hx)
    have hdrop : sv.drop 0 = ch '0' :: (ds.map digitByte ++ rest) := by
      rw [List.drop_zero, hsv, htext]
      rfl
    have hsplit : sv = (ch '0' :: (ds.takeWhile (· < 8)).map digitByte)
        ++ ((ds.dropWhile (· < 8)).map digitByte ++ rest) := by
      rw [← List.drop_zero (l := sv), hdrop, List.cons_append, ← List.append_assoc, ← List.map_append,
        List.takeWhile_append_dropWhile]
    simp only [scanintDetect_zero_iff hds hends hdrop, ne_eq, not_true, false_or]
    rw [value_zero_cons hdigits] at hlt ⊢
    rw [← octal_eq_decimal_iff ds]
    have hlen : 0 + 1 + (ds.takeWhile (· < 8)).length
        = (ch '0' :: (ds.takeWhile (· < 8)).map digitByte).length := by
      rw [List.length_cons, List.length_map]
      omega
    constructor
    · rintro ⟨e, ⟨heq, -, rfl⟩, hend⟩
      rw [hlen, hsplit, svtoEnd_eq_ok_iff] at hend
      have height := (all_white_iff hds hrest).mp hend.2
      refine ⟨height, ?_⟩
      rw [heq, List.takeWhile_eq_self_iff.mpr fun x hx => decide_eq_true (height x hx)]
    · rintro ⟨height, heq⟩
      have htake : ds.takeWhile (· < 8) = ds :=
        List.takeWhile_eq_self_iff.mpr fun x hx => decide_eq_true (height x hx)
      refine ⟨_, ⟨by rw [htake, heq], hlt, rfl⟩, ?_⟩
      rw [hlen, hsplit, svtoEnd_eq_ok_iff]
      exact ⟨rfl, (all_white_iff hds hrest).mpr height⟩
  · have hdrop : sv.drop 0 = m.text ++ rest := by rw [List.drop_zero, hsv]
    have hten : scanintDetect w sv 0 = scanuint w 10 sv 0 := by
      have hne : digitByte d ≠ ch '0' := by
        interval_cases d <;> first | exact absurd rfl hd0 | decide
      unfold scanintDetect
      rw [hdrop, htext, List.cons_append]
      dsimp only
      rw [if_neg hne]
    refine ⟨fun _ => Or.inl hd0, fun _ => ⟨m.text.length, ?_, ?_⟩⟩
    · rw [hten, scanuint_eq_ok_iff (by norm_num), hdrop, m.digitRun_text hends.digitRun_eq_nil]
      exact ⟨m.ne_nil, rfl, hlt, by rw [Nat.zero_add, m.text_length]⟩
    · rw [hsv, svtoEnd_eq_ok_iff]
      exact ⟨rfl, hrest⟩

/-- `svto` reads the value of a numeral that is plain and fits, and of no other. -/
theorem svtoS_text_iff (hw : 0 < w) (hrest : ∀ c ∈ rest, isWhite c = true) :
    svtoS w (m.text ++ rest) = .ok m.value ↔ m.value < 2 ^ (w - 1) ∧ m.Plain := by
  have hpow : 2 ^ w = 2 * 2 ^ (w - 1) := by
    rw [← Nat.pow_succ', Nat.succ_eq_add_one, Nat.sub_add_cancel hw]
  have hdrop : (m.text ++ rest).drop 0 = m.text ++ rest := List.drop_zero
  have hdetect : ∀ u e, scanintU w 0 false (m.text ++ rest) 0 = .ok (u, e)
      ↔ scanintDetect w (m.text ++ rest) 0 = .ok (u, e) := by
    intro u e
    simp only [scanintU, if_true, Bool.false_eq_true, if_false]
    exact catchE_eq_ok_iff (fun _ => scanintRethrow_ne_ok _ _ _ _)
  unfold svtoS
  rw [bind_eq_ok_iff]
  constructor
  · rintro ⟨⟨z, e⟩, hscan, hend⟩
    obtain ⟨u, hu, hlt, rfl⟩ := (scanintS_text_iff hdrop).mp hscan
    obtain rfl : u = m.value := by
      unfold svtoEnd at hend
      split at hend
      · obtain ⟨tail, -, hthrow⟩ := bind_eq_ok_iff.mp hend
        exact absurd hthrow (throwE_ne_ok _ _ _)
      · have heq : (u : ℤ) = m.value := Except.ok.inj hend
        exact_mod_cast heq
    exact ⟨hlt, (detect_value_iff rfl hrest (by omega)).mp ⟨e, (hdetect _ _).mp hu, hend⟩⟩
  · rintro ⟨hlt, hplain⟩
    obtain ⟨e, hscan, hend⟩ := (detect_value_iff (w := w) rfl hrest (by omega)).mpr hplain
    exact ⟨(m.value, e), (scanintS_text_iff hdrop).mpr ⟨m.value, (hdetect _ _).mpr hscan, hlt, rfl⟩, hend⟩

end Numeral

end Fs123
