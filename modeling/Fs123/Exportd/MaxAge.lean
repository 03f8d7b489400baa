import Fs123.Common.Leftmost
import Fs123.Core.Numeral
import Fs123.Exportd.CcRules
import Mathlib.Data.ENat.Lattice

/-!
# The bound on `max-age`

`bounded_max_age` looks for the first `max-age` of a cache-control text (`FirstMaxAge`), and writes other
digits there when the file has changed more recently than that. It keeps its promise (`BoundsMaxAge`) as
long as the time since the change can be computed (`boundedMaxAge_iff`).
-/

namespace Fs123

open Cxx Leftmost

/-! ## The first `max-age` -/

/-- What the name may stand behind. -/
def endsDirective (c : UInt8) : Bool := c = ch ',' || c = ch ' '

/-- The name and the sign, with white space around the sign. -/
def IsMaxAgeHead (head : Bytes) : Prop :=
  ∃ w w', head = bytes "max-age" ++ w ++ ch '=' :: w' ∧ (∀ c ∈ w, isSpace c = true)
    ∧ ∀ c ∈ w', isSpace c = true

/-- A text that begins with a `max-age`: what stands before its digits, the digits, and the rest. -/
structure MaxAgeText (text head : Bytes) (m : Numeral) (post : Bytes) : Prop where
  isHead : IsMaxAgeHead head
  split : text = head ++ m.text ++ post
  stop : ∀ c, post.head? = some c → isDigit c = false

def BeginsMaxAge (text : Bytes) : Prop := ∃ head m post, MaxAgeText text head m post

/-- The first `max-age` of `cc`: `pre` ends where its digits begin. -/
def FirstMaxAge (cc pre : Bytes) (m : Numeral) (post : Bytes) : Prop :=
  ∃ lead head, pre = lead ++ head ∧ Hit endsDirective BeginsMaxAge true cc lead (head ++ m.text ++ post)
    ∧ MaxAgeText (head ++ m.text ++ post) head m post

def NoMaxAge (cc : Bytes) : Prop := Miss endsDirective BeginsMaxAge true cc

/-! ### Bytes that are digits -/

theorem isDigit_digitByte {d : ℕ} (h : d < 10) : isDigit (digitByte d) = true := by
  interval_cases d <;> decide

theorem isDigit_iff {c : UInt8} : isDigit c = true ↔ 48 ≤ c.toNat ∧ c.toNat ≤ 57 := by
  rw [isDigit, Bool.and_eq_true, decide_eq_true_eq, decide_eq_true_eq]
  exact Iff.rfl

theorem digitcvt_of_not_isDigit {c : UInt8} (h : isDigit c = false) : digitcvt 10 c = 10 := by
  have hnot : ¬ (48 ≤ c.toNat ∧ c.toNat ≤ 57) := by
    rw [← isDigit_iff, h]
    exact Bool.false_ne_true
  unfold digitcvt
  dsimp only
  rw [if_neg (by omega), if_pos le_rfl]

/-- A text of digits is that of a numeral. -/
theorem exists_numeral {l : Bytes} (hne : l ≠ []) (h : ∀ c ∈ l, isDigit c = true) :
    ∃ m : Numeral, m.text = l := by
  refine ⟨⟨l.map fun c => c.toNat - 48, by simpa using hne, ?_⟩, ?_⟩
  · intro d hd
    obtain ⟨c, hc, rfl⟩ := List.mem_map.mp hd
    have := isDigit_iff.mp (h c hc)
    omega
  · rw [Numeral.text, List.map_map]
    refine (List.map_congr_left fun c hc => ?_).trans (List.map_id l)
    have := isDigit_iff.mp (h c hc)
    refine UInt8.toNat_inj.mp ?_
    rw [Function.comp_apply, digitByte_toNat (by omega)]
    exact Nat.add_sub_cancel' this.1

/-! ### What the regular expression matches -/

theorem takeWhile_append_stop {p : UInt8 → Bool} {a b : Bytes} (ha : ∀ c ∈ a, p c = true)
    (hb : ∀ c, b.head? = some c → p c = false) : (a ++ b).takeWhile p = a := by
  rw [List.takeWhile_append_of_pos ha]
  cases b with
  | nil => exact List.append_nil a
  | cons c b => rw [List.takeWhile_cons, hb c rfl]; exact List.append_nil a

theorem exists_takeWhile (p : UInt8 → Bool) (l : Bytes) :
    ∃ a b, l = a ++ b ∧ (∀ c ∈ a, p c = true) ∧ ∀ c, b.head? = some c → p c = false := by
  refine ⟨l.takeWhile p, l.dropWhile p, List.takeWhile_append_dropWhile.symm, ?_, ?_⟩
  · exact fun c hc => List.mem_takeWhile_imp hc
  · intro c hc
    have := List.head?_dropWhile_not p l
    rw [hc] at this
    simpa using this

/-- The offset and the number of the digits, when the parts of the text are known. -/
theorem maxAgeDigits_eq {w w' ds post : Bytes} (hw : ∀ c ∈ w, isSpace c = true)
    (hw' : ∀ c ∈ w', isSpace c = true) (hstop' : ∀ c, (ds ++ post).head? = some c → isSpace c = false)
    (hds : ∀ c ∈ ds, isDigit c = true) (hstop : ∀ c, post.head? = some c → isDigit c = false) :
    maxAgeDigits (bytes "max-age" ++ w ++ ch '=' :: w' ++ ds ++ post)
      = if ds.length = 0 then none
        else some ((bytes "max-age" ++ w ++ ch '=' :: w').length, ds.length) := by
  have hname : (bytes "max-age").length = 7 := by decide
  have hlen : (bytes "max-age" ++ w).length = 7 + w.length := by rw [List.length_append, hname]
  have htext : bytes "max-age" ++ w ++ ch '=' :: w' ++ ds ++ post
      = bytes "max-age" ++ (w ++ (ch '=' :: (w' ++ (ds ++ post)))) := by simp
  have hsign : bytes "max-age" ++ w ++ ch '=' :: w' ++ ds ++ post
      = (bytes "max-age" ++ w) ++ (ch '=' :: (w' ++ (ds ++ post))) := by simp
  have hdigits : bytes "max-age" ++ w ++ ch '=' :: w' ++ ds ++ post
      = (bytes "max-age" ++ w ++ ch '=' :: w') ++ (ds ++ post) := by simp
  have hb : 7 + w.length + 1 + w'.length = (bytes "max-age" ++ w ++ ch '=' :: w').length := by
    rw [List.length_append, hlen, List.length_cons]
    omega
  have hspace : ((bytes "max-age" ++ w ++ ch '=' :: w' ++ ds ++ post).drop 7).takeWhile isSpace = w := by
    rw [htext, ← hname, List.drop_left]
    refine takeWhile_append_stop hw fun c hc => ?_
    cases hc
    decide
  have hget : (bytes "max-age" ++ w ++ ch '=' :: w' ++ ds ++ post)[7 + w.length]? = some (ch '=') := by
    rw [hsign, ← hlen, List.getElem?_append_right le_rfl, Nat.sub_self, List.getElem?_cons_zero]
  have hspace' : ((bytes "max-age" ++ w ++ ch '=' :: w' ++ ds ++ post).drop (7 + w.length + 1)).takeWhile isSpace
      = w' := by
    rw [hsign, ← hlen, ← List.drop_drop, List.drop_left, List.drop_succ_cons, List.drop_zero]
    exact takeWhile_append_stop hw' hstop'
  have hrun : ((bytes "max-age" ++ w ++ ch '=' :: w' ++ ds ++ post).drop
      (7 + w.length + 1 + w'.length)).takeWhile isDigit = ds := by
    rw [hdigits, hb, List.drop_left]
    exact takeWhile_append_stop hds hstop
  have hbegin : bytes "max-age" <+: bytes "max-age" ++ w ++ ch '=' :: w' ++ ds ++ post := by
    rw [htext]
    exact List.prefix_append _ _
  unfold maxAgeDigits
  simp only [if_pos hbegin, hspace, if_pos hget, hspace', hrun]
  rw [hb]

theorem isSpace_digitByte {d : ℕ} (h : d < 10) : isSpace (digitByte d) = false := by
  interval_cases d <;> decide

theorem MaxAgeText.maxAgeDigits {text head post : Bytes} {m : Numeral} (h : MaxAgeText text head m post) :
    maxAgeDigits text = some (head.length, m.text.length) := by
  obtain ⟨⟨w, w', rfl, hw, hw'⟩, rfl, hstop⟩ := h
  rw [maxAgeDigits_eq hw hw' ?_ ?_ hstop, if_neg (by simpa using m.text_ne_nil)]
  · intro c hc
    obtain ⟨d, ds, -, hd, htext⟩ := m.text_cons
    rw [htext] at hc
    cases hc
    exact isSpace_digitByte hd
  · intro c hc
    obtain ⟨d, hd, rfl⟩ := m.mem_text hc
    exact isDigit_digitByte hd

/-- What the regular expression matches at the front of a text. -/
theorem maxAgeDigits_eq_some_iff {text : Bytes} {b n : ℕ} :
    maxAgeDigits text = some (b, n)
      ↔ ∃ head m post, MaxAgeText text head m post ∧ b = head.length ∧ n = m.text.length := by
  constructor
  · intro h
    by_cases hbegin : bytes "max-age" <+: text
    · obtain ⟨t, rfl⟩ := hbegin
      obtain ⟨w, t, rfl, hw, hstop⟩ := exists_takeWhile isSpace t
      by_cases hsign : t.head? = some (ch '=')
      · obtain ⟨t, rfl⟩ : ∃ t', t = ch '=' :: t' := by
          cases t with
          | nil => exact absurd hsign (by simp)
          | cons c t => exact ⟨t, by rw [Option.some.inj hsign]⟩
        obtain ⟨w', t, rfl, hw', hstop'⟩ := exists_takeWhile isSpace t
        obtain ⟨ds, post, rfl, hds, hend⟩ := exists_takeWhile isDigit t
        have htext : bytes "max-age" ++ (w ++ ch '=' :: (w' ++ (ds ++ post)))
            = bytes "max-age" ++ w ++ ch '=' :: w' ++ ds ++ post := by simp
        rw [htext, maxAgeDigits_eq hw hw' hstop' hds hend] at h
        split at h
        · cases h
        · next hne =>
          cases h
          obtain ⟨m, rfl⟩ := exists_numeral (fun hnil => hne (by rw [hnil]; rfl)) hds
          exact ⟨_, m, post, ⟨⟨w, w', rfl, hw, hw'⟩, htext, hend⟩, rfl, rfl⟩
      · have hspace : ((bytes "max-age" ++ (w ++ t)).drop 7).takeWhile isSpace = w := by
          have hname : (bytes "max-age").length = 7 := by decide
          rw [← hname, List.drop_left]
          exact takeWhile_append_stop hw hstop
        have hget : (bytes "max-age" ++ (w ++ t))[7 + w.length]? = t.head? := by
          have hlen : (bytes "max-age" ++ w).length = 7 + w.length := by
            rw [List.length_append]
            rfl
          rw [← List.append_assoc, ← hlen, List.getElem?_append_right le_rfl, Nat.sub_self,
            List.head?_eq_getElem?]
        unfold maxAgeDigits at h
        simp only [hspace, hget, if_neg hsign, ite_self, reduceCtorEq] at h
    · unfold maxAgeDigits at h
      rw [if_neg hbegin] at h
      cases h
  · rintro ⟨head, m, post, htext, rfl, rfl⟩
    exact htext.maxAgeDigits

theorem isSome_maxAgeDigits : (fun text => (maxAgeDigits text).isSome = true) = BeginsMaxAge := by
  funext text
  rw [eq_iff_iff, Option.isSome_iff_exists]
  constructor
  · rintro ⟨⟨b, n⟩, h⟩
    obtain ⟨head, m, post, htext, -⟩ := maxAgeDigits_eq_some_iff.mp h
    exact ⟨head, m, post, htext⟩
  · rintro ⟨head, m, post, htext⟩
    exact ⟨_, htext.maxAgeDigits⟩

/-- `regex_search` is the search from the left. -/
theorem searchMaxAge_eq (boundary : Bool) (pos : ℕ) (text : Bytes) :
    searchMaxAge boundary pos text
      = (search endsDirective maxAgeDigits boundary text).map fun r => (pos + r.1 + r.2.1, r.2.2) := by
  induction text generalizing boundary pos with
  | nil => rfl
  | cons c text ih =>
    rw [searchMaxAge, search]
    cases (if boundary = true then maxAgeDigits (c :: text) else none) with
    | some r => rfl
    | none =>
      have hends : (decide (c = ch ',') || decide (c = ch ' ')) = endsDirective c := rfl
      dsimp only
      rw [hends, ih, Option.map_map]
      congr 1
      funext r
      simp only [Function.comp_apply, Prod.mk.injEq, and_true]
      omega

theorem searchMaxAge_eq_some_iff {cc : Bytes} {b n : ℕ} :
    searchMaxAge true 0 cc = some (b, n)
      ↔ ∃ pre m post, FirstMaxAge cc pre m post ∧ b = pre.length ∧ n = m.text.length := by
  rw [searchMaxAge_eq, Option.map_eq_some_iff]
  constructor
  · rintro ⟨⟨i, j, k⟩, hsearch, heq⟩
    obtain ⟨lead, rest, hhit, rfl, hrest⟩ := (search_eq_some_iff rfl).mp hsearch
    obtain ⟨head, m, post, htext, rfl, rfl⟩ := maxAgeDigits_eq_some_iff.mp hrest
    rw [isSome_maxAgeDigits, htext.split] at hhit
    refine ⟨lead ++ head, m, post, ⟨lead, head, rfl, hhit, htext.split ▸ htext⟩, ?_, ?_⟩
    · rw [← (Prod.mk.inj heq).1, List.length_append, Nat.zero_add]
    · exact (Prod.mk.inj heq).2.symm
  · rintro ⟨pre, m, post, ⟨lead, head, rfl, hhit, htext⟩, rfl, rfl⟩
    refine ⟨(lead.length, head.length, m.text.length), ?_, ?_⟩
    · refine (search_eq_some_iff rfl).mpr ⟨lead, _, ?_, rfl, htext.maxAgeDigits⟩
      rw [isSome_maxAgeDigits]
      exact hhit
    · rw [Nat.zero_add, List.length_append]

theorem searchMaxAge_eq_none_iff {cc : Bytes} : searchMaxAge true 0 cc = none ↔ NoMaxAge cc := by
  rw [searchMaxAge_eq, Option.map_eq_none_iff, search_eq_none_iff rfl, isSome_maxAgeDigits]
  exact Iff.rfl

theorem FirstMaxAge.split {cc pre post : Bytes} {m : Numeral} (h : FirstMaxAge cc pre m post) :
    cc = pre ++ m.text ++ post := by
  obtain ⟨lead, head, rfl, hhit, -⟩ := h
  rw [hhit.split]
  simp

/-- There is one first `max-age`. -/
theorem FirstMaxAge.unique {cc pre pre' post post' : Bytes} {m m' : Numeral} (h : FirstMaxAge cc pre m post)
    (h' : FirstMaxAge cc pre' m' post') : pre = pre' ∧ m.text = m'.text ∧ post = post' := by
  have hsearch := searchMaxAge_eq_some_iff.mpr ⟨pre, m, post, h, rfl, rfl⟩
  rw [searchMaxAge_eq_some_iff.mpr ⟨pre', m', post', h', rfl, rfl⟩, Option.some.injEq, Prod.mk.injEq]
    at hsearch
  have hsplit := h.split.symm.trans h'.split
  obtain ⟨hleft, hpost⟩ := List.append_inj hsplit (by
    rw [List.length_append, List.length_append, hsearch.1, hsearch.2])
  obtain ⟨hpre, hm⟩ := List.append_inj hleft hsearch.1.symm
  exact ⟨hpre, hm, hpost⟩

theorem FirstMaxAge.not_noMaxAge {cc pre post : Bytes} {m : Numeral} (h : FirstMaxAge cc pre m post) :
    ¬ NoMaxAge cc := by
  obtain ⟨lead, head, -, hhit, -⟩ := h
  exact hhit.not_miss

/-! ### Other digits in the same place -/

/-- A `max-age` has one `m`, at its front. -/
theorem MaxAgeText.not_mem_tail {text head post : Bytes} {m : Numeral} (h : MaxAgeText text head m post)
    {a b : Bytes} (hsplit : head ++ m.text = a ++ ch 'm' :: b) : a = [] := by
  obtain ⟨⟨w, w', rfl, hw, hw'⟩, -, -⟩ := h
  cases a with
  | nil => rfl
  | cons x a =>
    have hname : bytes "max-age" = ch 'm' :: bytes "ax-age" := by decide
    have hspace : ∀ {l : Bytes}, (∀ c ∈ l, isSpace c = true) → ch 'm' ∉ l :=
      fun hl hm => absurd (hl _ hm) (by decide)
    rw [hname, List.cons_append, List.cons_append, List.cons_append, List.cons_append] at hsplit
    obtain ⟨-, htail⟩ := List.cons.inj hsplit
    have hmem : ch 'm' ∈ bytes "ax-age" ++ w ++ ch '=' :: w' ++ m.text := by
      rw [htail]
      simp
    rw [List.mem_append, List.mem_append, List.mem_append, List.mem_cons] at hmem
    rcases hmem with ((hmem | hmem) | hmem | hmem) | hmem
    · exact absurd hmem (by decide)
    · exact absurd hmem (hspace hw)
    · exact absurd hmem (by decide)
    · exact absurd hmem (hspace hw')
    · obtain ⟨d, hd, heq⟩ := m.mem_text hmem
      interval_cases d <;> exact absurd heq (by decide)

/-- What begins before an `m` does not depend on what is behind the `m`. -/
theorem BeginsMaxAge.before_m {a t t' : Bytes} (ha : a ≠ []) (h : BeginsMaxAge (a ++ ch 'm' :: t')) :
    BeginsMaxAge (a ++ ch 'm' :: t) := by
  obtain ⟨head, m, post, htext⟩ := h
  rcases List.append_eq_append_iff.mp htext.split with ⟨x, hx, hpost⟩ | ⟨x, rfl, rfl⟩
  · cases x with
    | nil =>
      rw [List.append_nil] at hx
      refine ⟨head, m, ch 'm' :: t, htext.isHead, by rw [hx], ?_⟩
      intro c hc
      cases hc
      decide
    | cons y x =>
      obtain ⟨rfl, -⟩ := List.cons.inj hpost
      exact absurd (htext.not_mem_tail hx) ha
  · refine ⟨head, m, x ++ ch 'm' :: t, htext.isHead, by simp, ?_⟩
    intro c hc
    refine htext.stop c ?_
    cases x with
    | nil => exact hc
    | cons y x => exact hc

/-- With other digits it is still the first. -/
theorem FirstMaxAge.replace {cc pre post : Bytes} {m : Numeral} (h : FirstMaxAge cc pre m post)
    (m' : Numeral) : FirstMaxAge (pre ++ m'.text ++ post) pre m' post := by
  obtain ⟨lead, head, rfl, hhit, htext⟩ := h
  have htext' : MaxAgeText (head ++ m'.text ++ post) head m' post := ⟨htext.isHead, rfl, htext.stop⟩
  have hm : ∀ l, ∃ t, head ++ l ++ post = ch 'm' :: t := by
    intro l
    obtain ⟨w, w', rfl, -, -⟩ := htext.isHead
    exact ⟨_, rfl⟩
  refine ⟨lead, head, rfl, ?_, htext'⟩
  have hlocal : ∀ a, a ≠ [] → BeginsMaxAge (a ++ (head ++ m'.text ++ post)) →
      BeginsMaxAge (a ++ (head ++ m.text ++ post)) := by
    intro a ha hbegins
    obtain ⟨t, ht⟩ := hm m.text
    obtain ⟨t', ht'⟩ := hm m'.text
    rw [ht'] at hbegins
    rw [ht]
    exact hbegins.before_m ha
  have hreplace := hhit.replace ⟨head, m', post, htext'⟩ hlocal
  have hassoc : lead ++ head ++ m'.text ++ post = lead ++ (head ++ m'.text ++ post) := by simp
  rw [hassoc]
  exact hreplace

/-! ## The digits that are written -/

/-- The value of a `max-age`: a number that is too large for a `time_t` counts as infinite. -/
def Numeral.maxAge (m : Numeral) : ℕ∞ := if m.value < 2 ^ 63 then m.value else ⊤

theorem Numeral.value_eq {m m' : Numeral} (h : m.text = m'.text) : m.value = m'.value := by
  have hrun : digitRun 10 (m.text ++ []) = m.digits := m.digitRun_text rfl
  rw [h, m'.digitRun_text rfl] at hrun
  rw [value, value, hrun]

/-- The `time_t` that the code reads. -/
def Numeral.timeT (m : Numeral) : ℤ := if m.value < 2 ^ 63 then m.value else 2 ^ 63 - 1

/-- The value that is left when the time since the change comes out as `u`. -/
noncomputable def Numeral.boundTo (m : Numeral) (u : ℤ) : ℕ∞ :=
  if 2 ^ 63 ≤ m.value ∧ u = 2 ^ 63 - 1 then ⊤ else min m.maxAge (u.toNat : ℕ∞)

/-- Digits that are left as they are. -/
theorem Numeral.boundTo_of_le {m : Numeral} {u : ℤ} (hu : u < 2 ^ 63) (h : m.timeT ≤ u) :
    m.boundTo u = m.maxAge := by
  unfold Numeral.timeT at h
  unfold Numeral.boundTo Numeral.maxAge
  by_cases hfits : m.value < 2 ^ 63
  · rw [if_pos hfits] at h
    rw [if_neg (by omega), if_pos hfits, min_eq_left]
    exact_mod_cast (by omega : m.value ≤ u.toNat)
  · rw [if_neg hfits] at h
    rw [if_pos ⟨by omega, by omega⟩, if_neg hfits]

/-- Digits that are replaced. -/
theorem Numeral.boundTo_of_lt {m : Numeral} {u : ℤ} (hu : 0 ≤ u) (h : u < m.timeT) :
    m.boundTo u = (u.toNat : ℕ∞) := by
  unfold Numeral.timeT at h
  unfold Numeral.boundTo Numeral.maxAge
  by_cases hfits : m.value < 2 ^ 63
  · rw [if_pos hfits] at h
    rw [if_neg (by omega), if_pos hfits, min_eq_right]
    exact_mod_cast (by omega : u.toNat ≤ m.value)
  · rw [if_neg hfits] at h
    rw [if_neg (by omega), if_neg hfits, min_eq_right le_top]

variable {cc pre post : Bytes} {m : Numeral} {sb : Stat} {now : ℤ}

theorem timeT_lt (z : ℤ) : timeT z < 2 ^ 63 := by
  have := Int.bmod_lt (x := z) (m := 2 ^ 64) (by norm_num)
  rw [timeT]
  omega

/-- What `bounded_max_age` does to the first `max-age`. -/
theorem boundedMaxAge_eq (h : FirstMaxAge cc pre m post) (sb : Stat) (now : ℤ) :
    boundedMaxAge cc sb now
      = if max 1 (timeT (now - sb.mtime.toInt)) < m.timeT
        then pre ++ decimalInt (max 1 (timeT (now - sb.mtime.toInt))) ++ post else cc := by
  have hsearch := searchMaxAge_eq_some_iff.mpr ⟨pre, m, post, h, rfl, rfl⟩
  have hdrop : cc.drop pre.length = m.text ++ post := by
    rw [h.split, List.append_assoc, List.drop_left]
  have hpost : cc.drop (pre.length + m.text.length) = post := by
    rw [← List.drop_drop, hdrop, List.drop_left]
  have hpre : cc.take pre.length = pre := by
    rw [h.split, List.append_assoc, List.take_left]
  have hrun : digitRun 10 post = [] := by
    obtain ⟨lead, head, -, -, htext⟩ := h
    cases post with
    | nil => rfl
    | cons c post => rw [digitRun, if_pos (digitcvt_of_not_isDigit (htext.stop c rfl))]
  have hif : ∀ u t : ℤ, (if min u t ≠ t then pre ++ decimalInt (min u t) ++ post else cc)
      = if u < t then pre ++ decimalInt u ++ post else cc := by
    intro u t
    by_cases hlt : u < t
    · rw [min_eq_left hlt.le, if_pos hlt.ne, if_pos hlt]
    · rw [min_eq_right (not_lt.mp hlt), if_neg (not_not.mpr rfl), if_neg hlt]
  unfold boundedMaxAge
  rw [hsearch]
  dsimp only
  rw [hpre, hpost, Numeral.timeT, ← hif]
  cases hscan : scanintS 64 10 true cc pre.length with
  | ok r =>
    obtain ⟨z, e⟩ := r
    obtain ⟨hlt, rfl, -⟩ := (Numeral.scanintS_ten_text_iff (by norm_num) hdrop hrun).mp hscan
    rw [if_pos hlt]
  | error e =>
    have hge : ¬ m.value < 2 ^ 63 := by
      intro hlt
      have := (@Numeral.scanintS_ten_text_iff m 64 pre.length _ _ cc post true (by norm_num) hdrop hrun).mpr
        ⟨hlt, rfl, rfl⟩
      rw [hscan] at this
      cases this
    rw [if_neg hge]

/-- The text stays as it is but for the digits. -/
theorem boundedMaxAge_digits (h : FirstMaxAge cc pre m post) (sb : Stat) (now : ℤ) :
    ∃ m' : Numeral, boundedMaxAge cc sb now = pre ++ m'.text ++ post
      ∧ m'.maxAge = m.boundTo (max 1 (timeT (now - sb.mtime.toInt)))
      ∧ boundedMaxAge (pre ++ m'.text ++ post) sb now = pre ++ m'.text ++ post := by
  have hlt := timeT_lt (now - sb.mtime.toInt)
  have heq := boundedMaxAge_eq h sb now
  generalize hu : max 1 (timeT (now - sb.mtime.toInt)) = u at heq ⊢
  have hu1 : 1 ≤ u := hu ▸ le_max_left _ _
  by_cases hchange : u < m.timeT
  · rw [if_pos hchange] at heq
    have hnat : u = (u.toNat : ℤ) := (Int.toNat_of_nonneg (by omega)).symm
    have htext : decimalInt u = (Numeral.ofNat u.toNat).text := by
      rw [hnat]
      rfl
    rw [htext] at heq
    have hfits : u.toNat < 2 ^ 63 := by omega
    refine ⟨Numeral.ofNat u.toNat, heq, ?_, ?_⟩
    · rw [Numeral.boundTo_of_lt (by omega) hchange, Numeral.maxAge, Numeral.value_ofNat, if_pos hfits]
    · rw [boundedMaxAge_eq (h.replace _) sb now, hu, if_neg]
      rw [Numeral.timeT, Numeral.value_ofNat, if_pos hfits]
      omega
  · rw [if_neg hchange] at heq
    refine ⟨m, heq.trans h.split, ?_, by rw [← h.split]; exact heq⟩
    exact (Numeral.boundTo_of_le (by omega) (not_lt.mp hchange)).symm

/-! ## The promise -/

/-- The first `max-age` is bounded by the time since the change, or by one second; nothing else changes, and
nothing changes when that is done again. -/
structure BoundsMaxAge (cc : Bytes) (sb : Stat) (now : ℤ) : Prop where
  absent : NoMaxAge cc → boundedMaxAge cc sb now = cc
  bounded : ∀ pre m post, FirstMaxAge cc pre m post →
    ∃ m' : Numeral, boundedMaxAge cc sb now = pre ++ m'.text ++ post
      ∧ m'.maxAge = min m.maxAge ((max 1 (now - sb.mtime.toInt)).toNat : ℕ∞)
  again : boundedMaxAge (boundedMaxAge cc sb now) sb now = boundedMaxAge cc sb now

/-- When there is a `max-age` above one second, the time since the change is a `time_t`, or wraps around to
the one second that it is bounded by; and it is not the largest `time_t` when the `max-age` is larger. -/
def ChangeFits (cc : Bytes) (sb : Stat) (now : ℤ) : Prop :=
  ∀ pre m post, FirstMaxAge cc pre m post → 1 < m.value →
    (-2 ^ 63 ≤ now - sb.mtime.toInt ∧ now - sb.mtime.toInt < 2 ^ 63 ∨ now - sb.mtime.toInt = 1 - 2 ^ 64)
      ∧ (2 ^ 63 ≤ m.value → now - sb.mtime.toInt ≠ 2 ^ 63 - 1)

theorem timeT_eq {d : ℤ} (hlo : -2 ^ 64 < d) (hhi : d < 2 ^ 64) :
    timeT d = if d < -2 ^ 63 then d + 2 ^ 64 else if d < 2 ^ 63 then d else d - 2 ^ 64 := by
  rw [timeT, Int.bmod_def]
  split_ifs <;> omega

theorem min_natCast (a b : ℕ) : min (a : ℕ∞) (b : ℕ∞) = ((min a b : ℕ) : ℕ∞) := Nat.mono_cast.map_min.symm

/-- The code's bound is the right one exactly when nothing wraps around, or it makes no difference. -/
theorem Numeral.boundTo_eq_iff (m : Numeral) {d : ℤ} (hlo : -2 ^ 64 < d) (hhi : d < 2 ^ 64) :
    m.boundTo (max 1 (Fs123.timeT d)) = min m.maxAge ((max 1 d).toNat : ℕ∞)
      ↔ (1 < m.value → (-2 ^ 63 ≤ d ∧ d < 2 ^ 63 ∨ d = 1 - 2 ^ 64) ∧ (2 ^ 63 ≤ m.value → d ≠ 2 ^ 63 - 1)) := by
  have hwrap := timeT_eq hlo hhi
  unfold Numeral.boundTo Numeral.maxAge
  by_cases hfits : m.value < 2 ^ 63
  · rw [if_neg (fun h => absurd hfits (not_lt.mpr h.1)), if_pos hfits, min_natCast, min_natCast, Nat.cast_inj]
    split_ifs at hwrap <;> omega
  · rw [if_neg hfits, min_eq_right le_top, min_eq_right le_top]
    by_cases hmax : max 1 (Fs123.timeT d) = 2 ^ 63 - 1
    · rw [if_pos ⟨not_lt.mp hfits, hmax⟩]
      have hne : (⊤ : ℕ∞) ≠ ((max 1 d).toNat : ℕ∞) := (ENat.natCast_ne_top _).symm
      simp only [hne, false_iff]
      split_ifs at hwrap <;> omega
    · rw [if_neg (fun h => hmax h.2), Nat.cast_inj]
      split_ifs at hwrap <;> omega

theorem firstMaxAge_or_noMaxAge (cc : Bytes) :
    (∃ pre m post, FirstMaxAge cc pre m post) ∨ NoMaxAge cc := by
  cases h : searchMaxAge true 0 cc with
  | none => exact Or.inr (searchMaxAge_eq_none_iff.mp h)
  | some r =>
    obtain ⟨pre, m, post, hfirst, -⟩ := searchMaxAge_eq_some_iff.mp h
    exact Or.inl ⟨pre, m, post, hfirst⟩

theorem boundedMaxAge_of_noMaxAge (h : NoMaxAge cc) (sb : Stat) (now : ℤ) : boundedMaxAge cc sb now = cc := by
  unfold boundedMaxAge
  rw [searchMaxAge_eq_none_iff.mpr h]

/-- One call keeps the promise exactly when the time since the change fits. -/
theorem boundsMaxAge_iff (cc : Bytes) (sb : Stat) (now : Int64) :
    BoundsMaxAge cc sb now.toInt ↔ ChangeFits cc sb now.toInt := by
  have hlo : -2 ^ 64 < now.toInt - sb.mtime.toInt := by
    have := now.le_toInt
    have := sb.mtime.toInt_lt
    omega
  have hhi : now.toInt - sb.mtime.toInt < 2 ^ 64 := by
    have := now.toInt_lt
    have := sb.mtime.le_toInt
    omega
  constructor
  · intro h pre m post hfirst
    rw [← m.boundTo_eq_iff hlo hhi]
    obtain ⟨m', htext, hvalue, -⟩ := boundedMaxAge_digits hfirst sb now.toInt
    obtain ⟨m'', htext'', hvalue''⟩ := h.bounded pre m post hfirst
    have hsame : m'.text = m''.text := by
      have := htext.symm.trans htext''
      rwa [List.append_left_inj, List.append_right_inj] at this
    rw [← hvalue, ← hvalue'', Numeral.maxAge, Numeral.maxAge, Numeral.value_eq hsame]
  · intro h
    refine ⟨fun hno => boundedMaxAge_of_noMaxAge hno sb now.toInt, ?_, ?_⟩
    · intro pre m post hfirst
      obtain ⟨m', htext, hvalue, -⟩ := boundedMaxAge_digits hfirst sb now.toInt
      exact ⟨m', htext, hvalue.trans ((m.boundTo_eq_iff hlo hhi).mpr (h pre m post hfirst))⟩
    · rcases firstMaxAge_or_noMaxAge cc with ⟨pre, m, post, hfirst⟩ | hno
      · obtain ⟨m', htext, -, hagain⟩ := boundedMaxAge_digits hfirst sb now.toInt
        rw [htext, hagain]
      · rw [boundedMaxAge_of_noMaxAge hno, boundedMaxAge_of_noMaxAge hno]

/-- The `max-age` of a result that keeps the promise. -/
theorem BoundsMaxAge.maxAge_eq (h : BoundsMaxAge cc sb now) (hcc : FirstMaxAge cc pre m post)
    {pre' post' : Bytes} {m' : Numeral} (hfirst : FirstMaxAge (boundedMaxAge cc sb now) pre' m' post') :
    m'.maxAge = min m.maxAge ((max 1 (now - sb.mtime.toInt)).toNat : ℕ∞) := by
  obtain ⟨m'', htext, hvalue⟩ := h.bounded pre m post hcc
  rw [htext] at hfirst
  obtain ⟨-, hsame, -⟩ := (hcc.replace m'').unique hfirst
  rw [← hvalue, Numeral.maxAge, Numeral.maxAge, Numeral.value_eq hsame]

/-- The calls keep the promise, and a longer time since the change gives no smaller `max-age`, exactly when
the times since the change fit. -/
theorem boundedMaxAge_iff (cc : Bytes) (sb sb' : Stat) (now now' : Int64)
    (hle : now.toInt - sb.mtime.toInt ≤ now'.toInt - sb'.mtime.toInt) :
    (BoundsMaxAge cc sb now.toInt ∧ BoundsMaxAge cc sb' now'.toInt
      ∧ ∀ pre m post pre' m' post', FirstMaxAge (boundedMaxAge cc sb now.toInt) pre m post →
        FirstMaxAge (boundedMaxAge cc sb' now'.toInt) pre' m' post' → m.maxAge ≤ m'.maxAge)
      ↔ ChangeFits cc sb now.toInt ∧ ChangeFits cc sb' now'.toInt := by
  rw [boundsMaxAge_iff, boundsMaxAge_iff]
  constructor
  · exact fun h => ⟨h.1, h.2.1⟩
  · intro h
    refine ⟨h.1, h.2, ?_⟩
    intro pre m post pre' m' post' hfirst hfirst'
    rcases firstMaxAge_or_noMaxAge cc with ⟨pre₀, m₀, post₀, hcc⟩ | hno
    · rw [((boundsMaxAge_iff cc sb now).mpr h.1).maxAge_eq hcc hfirst,
        ((boundsMaxAge_iff cc sb' now').mpr h.2).maxAge_eq hcc hfirst']
      refine min_le_min_left _ ?_
      exact_mod_cast (by omega :
        (max 1 (now.toInt - sb.mtime.toInt)).toNat ≤ (max 1 (now'.toInt - sb'.mtime.toInt)).toNat)
    · rw [boundedMaxAge_of_noMaxAge hno] at hfirst
      exact absurd hno hfirst.not_noMaxAge

/-- A regular file that was last modified at `mtime`. -/
def Stat.modifiedAt (mtime : Int64) : Stat := ⟨0o100644, 1, 0, 0, 5, mtime, mtime, mtime, 2, 0, 0, 0, 3, 8, 4096, 0⟩

/-- A file that was modified a minute ago, and an hour later. -/
theorem boundedMaxAge_modified :
    BoundsMaxAge (bytes "public,max-age=86400") (.modifiedAt 1000) (1060 : Int64).toInt
      ∧ BoundsMaxAge (bytes "public,max-age=86400") (.modifiedAt 1000) (4660 : Int64).toInt
      ∧ ∀ pre m post pre' m' post',
        FirstMaxAge (boundedMaxAge (bytes "public,max-age=86400") (.modifiedAt 1000) (1060 : Int64).toInt) pre m post →
        FirstMaxAge (boundedMaxAge (bytes "public,max-age=86400") (.modifiedAt 1000) (4660 : Int64).toInt)
          pre' m' post' →
        m.maxAge ≤ m'.maxAge := by
  have hfits : ∀ now : Int64, 0 ≤ now.toInt → now.toInt < 2 ^ 62 →
      ChangeFits (bytes "public,max-age=86400") (.modifiedAt 1000) now.toInt := by
    intro now hlo hhi pre m post _ _
    have hmtime : (Stat.modifiedAt 1000).mtime.toInt = 1000 := by decide
    rw [hmtime]
    exact ⟨Or.inl ⟨by omega, by omega⟩, fun _ => by omega⟩
  exact (boundedMaxAge_iff (bytes "public,max-age=86400") (.modifiedAt 1000) (.modifiedAt 1000) 1060 4660
    (by decide)).mpr ⟨hfits 1060 (by decide) (by decide), hfits 4660 (by decide) (by decide)⟩

/-- A file with the earliest modification time there is loses the `max-age` of a day. -/
theorem boundedMaxAge_earliest :
    ¬ ∀ (cc : Bytes) (sb : Stat) (now : Int64), BoundsMaxAge cc sb now.toInt := by
  intro hclaim
  have hbounds := hclaim (bytes "max-age=86400") (.modifiedAt Int64.minValue) 1700000000
  have htext : MaxAgeText (bytes "max-age=86400") (bytes "max-age=") (.ofNat 86400) [] :=
    ⟨⟨[], [], by decide, by simp, by simp⟩, by decide, by simp⟩
  have hsplit : bytes "max-age=86400" = bytes "max-age=" ++ (Numeral.ofNat 86400).text ++ [] := htext.split
  have hfirst : FirstMaxAge (bytes "max-age=86400") (bytes "max-age=") (.ofNat 86400) [] :=
    ⟨[], bytes "max-age=", rfl, hsplit ▸ hit_here rfl ⟨_, _, _, htext⟩, hsplit ▸ htext⟩
  obtain ⟨m', heq, hvalue⟩ := hbounds.bounded _ _ _ hfirst
  have hresult : boundedMaxAge (bytes "max-age=86400") (.modifiedAt Int64.minValue) (1700000000 : Int64).toInt
      = bytes "max-age=" ++ (Numeral.ofNat 1).text ++ [] := by
    decide +kernel
  have hone : m'.text = (Numeral.ofNat 1).text := by
    have := heq.symm.trans hresult
    rwa [List.append_left_inj, List.append_right_inj] at this
  rw [Numeral.maxAge, Numeral.maxAge, Numeral.value_eq hone, Numeral.value_ofNat, Numeral.value_ofNat,
    if_pos (by norm_num), if_pos (by norm_num), min_natCast, Nat.cast_inj] at hvalue
  exact absurd hvalue (by decide)

end Fs123
