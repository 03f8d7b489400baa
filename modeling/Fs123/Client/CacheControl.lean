import Fs123.Common.Leftmost
import Fs123.Core.Numeral
import Fs123.Client.Getreply

/-!
# What the client reads from `Cache-control`

`get_max_age` and `get_stale_while_revalidate` look for the name of a directive in the text of the header. On
the text of a list of directives (`listText`) they find the one with that name, unless the quoted argument of
one before it has the name too (`getKeyFromString_of_clear`, `getKeyFromString_of_hides`).
-/

namespace Fs123

open Cxx Leftmost

/-! ## Directives -/

/-- A character of a name or of an argument that is not quoted. -/
def argChar (c : UInt8) : Bool := c ≠ ch ',' && c ≠ ch '"' && !isspace c

/-- The argument of a directive: as it is, or between quotes, where commas and spaces may stand. -/
inductive Argument where
  | token (t : Bytes) (h : ∀ c ∈ t, argChar c = true)
  | quoted (q : Bytes) (h : ch '"' ∉ q)

def Argument.text : Argument → Bytes
  | .token t _ => t
  | .quoted q _ => ch '"' :: q ++ [ch '"']

/-- The white space around a directive. -/
def IsOws (t : Bytes) : Prop := ∀ c ∈ t, c = ch ' ' ∨ c = ch '\t'

instance (t : Bytes) : Decidable (IsOws t) := List.decidableBAll (fun c => c = ch ' ' ∨ c = ch '\t') t

/-- A name is a text of such characters, without a sign. -/
def isName (t : Bytes) : Bool := t.all fun c => argChar c && c ≠ ch '='

theorem mem_of_isName {t : Bytes} (h : isName t = true) {c : UInt8} (hc : c ∈ t) : argChar c = true ∧ c ≠ ch '=' := by
  have := List.all_eq_true.mp h c hc
  simpa using this

/-- A directive, with the white space around it. -/
structure Directive where
  lead : Bytes
  name : Bytes
  arg : Option Argument
  trail : Bytes
  lead_ows : IsOws lead
  name_token : isName name = true
  trail_ows : IsOws trail

namespace Directive

variable (d : Directive)

/-- The directive itself. -/
def core : Bytes := d.name ++ (match d.arg with | none => [] | some a => ch '=' :: a.text)

def text : Bytes := d.lead ++ d.core ++ d.trail

/-- The quoted argument has `key`, behind a comma or white space. -/
def Hides (key : Bytes) : Prop :=
  ∃ q h, d.arg = some (.quoted q h) ∧ ∃ a c b, q = a ++ c :: (key ++ b) ∧ (c = ch ',' ∨ isspace c = true)

end Directive

/-- The text of the header. -/
def listText : List Directive → Bytes
  | [] => []
  | [d] => d.text
  | d :: ds => d.text ++ ch ',' :: listText ds

/-- The directives in front of others, with the commas behind them. -/
def frontText (ds : List Directive) : Bytes := ds.flatMap fun d => d.text ++ [ch ',']

/-- The directives behind another, with the comma before them. -/
def backText (ds : List Directive) : Bytes := if ds = [] then [] else ch ',' :: listText ds

theorem listText_cons (d : Directive) (ds : List Directive) : listText (d :: ds) = d.text ++ backText ds := by
  cases ds with
  | nil => exact (List.append_nil _).symm
  | cons d' ds => rfl

theorem listText_append (ds : List Directive) (d : Directive) (ds' : List Directive) :
    listText (ds ++ d :: ds') = frontText ds ++ (d.text ++ backText ds') := by
  induction ds with
  | nil => exact listText_cons d ds'
  | cons d₀ ds ih =>
    have hne : ds ++ d :: ds' ≠ [] := by simp
    rw [List.cons_append, listText_cons, backText, if_neg hne, ih, frontText, frontText, List.flatMap_cons]
    simp

/-! ## The search for a key -/

/-- What a key may stand behind. -/
def endsToken (c : UInt8) : Bool := c = ch ',' || isspace c

/-- What follows the key at the front of a text, when something does. -/
def afterKey (key l : Bytes) : Option Bytes :=
  if key <+: l ∧ key.length < l.length then some (l.drop key.length) else none

/-- `findKey` is the search from the left. -/
theorem findKey_eq (key : Bytes) (prev : Option UInt8) (l : Bytes) :
    findKey key prev l = (search endsToken (afterKey key) (prev.all endsToken) l).map (·.2) := by
  have hnil : afterKey key [] = none := if_neg (by simp)
  induction l generalizing prev with
  | nil => rfl
  | cons c l ih =>
    have hends : (prev.all fun p => decide (p = ch ',') || isspace p) = prev.all endsToken := rfl
    rw [findKey, hends]
    by_cases hkey : key <+: c :: l
    · rw [if_pos hkey]
      by_cases hlen : (c :: l).length ≤ key.length
      · have hmiss : search endsToken (afterKey key) (prev.all endsToken) (c :: l) = none := by
          refine (search_eq_none_iff hnil).mpr fun lead rest hsplit _ hsome => ?_
          have hshort := congrArg List.length hsplit
          rw [List.length_append] at hshort
          have hnone : afterKey key rest = none := if_neg (by omega)
          simp [hnone] at hsome
        rw [if_pos hlen, hmiss]
        rfl
      · have hafter : afterKey key (c :: l) = some ((c :: l).drop key.length) :=
          if_pos ⟨hkey, not_le.mp hlen⟩
        rw [if_neg hlen, search, hafter]
        cases prev.all endsToken with
        | true => rfl
        | false =>
          rw [ih]
          simp [Option.map_map, Function.comp_def]
    · have hnone : afterKey key (c :: l) = none := if_neg fun h => hkey h.1
      rw [if_neg hkey, ih, search_cons_of_none fun _ => hnone, Option.map_map]
      rfl

/-- The directives that the client reads. -/
inductive AgeKey where
  | maxAge
  | staleWhileRevalidate

namespace AgeKey

def name : AgeKey → Bytes
  | .maxAge => bytes "max-age"
  | .staleWhileRevalidate => bytes "stale-while-revalidate"

variable (k : AgeKey)

/-- The name with the sign behind it. -/
def key : Bytes := k.name ++ [ch '=']

/-- What follows the key where it is found first. -/
def lookup (b : Bool) (l : Bytes) : Option Bytes := (search endsToken (afterKey k.key) b l).map (·.2)

theorem findKey_key (l : Bytes) : findKey k.key none l = k.lookup true l := findKey_eq k.key none l

theorem isName_name : isName k.name = true := by cases k <;> decide

theorem mem_name {c : UInt8} (h : c ∈ k.name) : argChar c = true ∧ c ≠ ch '=' := mem_of_isName k.isName_name h

theorem mem_key {c : UInt8} (h : c ∈ k.key) : argChar c = true := by
  rcases List.mem_append.mp h with h | h
  · exact (k.mem_name h).1
  · rw [List.mem_singleton.mp h]
    decide

theorem key_ne_nil : k.key ≠ [] := by simp [key]

variable {k} {b : Bool} {c : UInt8} {t l : Bytes}

theorem argChar_of_isPrefix (h : k.key <+: c :: l) : argChar c = true := by
  obtain ⟨t, ht⟩ := h
  cases hkey : k.key with
  | nil => exact absurd hkey k.key_ne_nil
  | cons x key =>
    rw [hkey, List.cons_append] at ht
    obtain ⟨rfl, -⟩ := List.cons.inj ht
    exact k.mem_key (hkey ▸ List.mem_cons_self)

/-- The key does not go on into what begins with another character. -/
theorem prefix_of_prefix_append (hl : ∀ c, l.head? = some c → argChar c = false) (h : k.key <+: t ++ l) :
    k.key <+: t := by
  obtain ⟨x, hx⟩ := h
  rcases List.append_eq_append_iff.mp hx with ⟨y, rfl, -⟩ | ⟨y, hy, rfl⟩
  · exact List.prefix_append _ _
  · cases y with
    | nil => exact (List.append_nil t ▸ hy) ▸ List.prefix_refl _
    | cons z y =>
      have hmem := k.mem_key (hy ▸ List.mem_append_right t List.mem_cons_self : z ∈ k.key)
      rw [hl z rfl] at hmem
      exact absurd hmem Bool.false_ne_true

theorem lookup_key {v : Bytes} (hv : v ≠ []) : k.lookup true (k.key ++ v) = some v := by
  have hafter : afterKey k.key (k.key ++ v) = some v := by
    rw [afterKey, if_pos ⟨List.prefix_append _ _, by simp [List.length_pos_iff.mpr hv]⟩, List.drop_left]
  have hhit : Hit endsToken (fun rest => (afterKey k.key rest).isSome = true) true (k.key ++ v) [] (k.key ++ v) :=
    hit_here rfl (by rw [hafter]; rfl)
  rw [lookup, (search_eq_some_iff (if_neg (by simp))).mpr ⟨[], _, hhit, rfl, hafter⟩]
  rfl

theorem lookup_append (hclear : ∀ a c, t = a ++ c → c ≠ [] → opens endsToken b a = true → ¬ k.key <+: c ++ l) :
    k.lookup b (t ++ l) = k.lookup (opens endsToken b t) l := by
  rw [lookup, search_append fun a c ht hc hopen => if_neg fun h => hclear a c ht hc hopen h.1, Option.map_map]
  rfl

theorem lookup_cons (h : b = true → ¬ k.key <+: c :: l) : k.lookup b (c :: l) = k.lookup (endsToken c) l := by
  rw [lookup, search_cons_of_none fun hb => if_neg fun hkey => h hb hkey.1, Option.map_map]
  rfl

/-- The key does not begin with a comma, a quote or white space. -/
theorem lookup_cons_of_not_argChar (h : argChar c = false) : k.lookup b (c :: l) = k.lookup (endsToken c) l := by
  refine lookup_cons fun _ hkey => ?_
  rw [argChar_of_isPrefix hkey] at h
  cases h

theorem endsToken_of_argChar (h : argChar c = true) : endsToken c = false := by
  unfold argChar at h
  unfold endsToken
  simp only [Bool.and_eq_true, ne_eq, Bool.not_eq_true', decide_eq_true_eq] at h
  simp [h.1.1, h.2]

/-- The key does not begin inside a token. -/
theorem lookup_closed (h : ∀ c ∈ t, argChar c = true) : k.lookup false (t ++ l) = k.lookup false l := by
  induction t with
  | nil => rfl
  | cons c t ih =>
    rw [List.cons_append, lookup_cons (fun hb => absurd hb Bool.false_ne_true),
      endsToken_of_argChar (h c List.mem_cons_self)]
    exact ih fun c hc => h c (List.mem_cons_of_mem _ hc)

/-- Nor at the front of one that does not begin with it. -/
theorem lookup_token (h : ∀ c ∈ t, argChar c = true) (hne : t ≠ []) (hfront : ¬ k.key <+: t ++ l) :
    k.lookup true (t ++ l) = k.lookup false l := by
  cases t with
  | nil => exact absurd rfl hne
  | cons c t =>
    have hcons : true = true → ¬ k.key <+: c :: (t ++ l) := fun _ => hfront
    rw [List.cons_append, lookup_cons hcons, endsToken_of_argChar (h c List.mem_cons_self)]
    exact lookup_closed fun c hc => h c (List.mem_cons_of_mem _ hc)

theorem ows_char (h : c = ch ' ' ∨ c = ch '\t') : argChar c = false ∧ endsToken c = true := by
  rcases h with rfl | rfl <;> decide

theorem lookup_ows (h : IsOws t) : k.lookup true (t ++ l) = k.lookup true l := by
  induction t with
  | nil => rfl
  | cons c t ih =>
    obtain ⟨harg, hends⟩ := ows_char (h c List.mem_cons_self)
    rw [List.cons_append, lookup_cons_of_not_argChar harg, hends]
    exact ih fun c hc => h c (List.mem_cons_of_mem _ hc)

/-- Behind a directive the search begins again after the comma. -/
theorem lookup_comma (h : IsOws t) : k.lookup b (t ++ ch ',' :: l) = k.lookup true l := by
  cases t with
  | nil => exact lookup_cons_of_not_argChar (by decide)
  | cons c t =>
    obtain ⟨harg, hends⟩ := ows_char (h c List.mem_cons_self)
    rw [List.cons_append, lookup_cons_of_not_argChar harg, hends,
      lookup_ows fun c hc => h c (List.mem_cons_of_mem _ hc)]
    exact lookup_cons_of_not_argChar (by decide)

theorem lookup_end (h : IsOws t) : k.lookup b t = none := by
  induction t generalizing b with
  | nil => rfl
  | cons c t ih =>
    rw [lookup_cons_of_not_argChar (ows_char (h c List.mem_cons_self)).1]
    exact ih fun c hc => h c (List.mem_cons_of_mem _ hc)

/-! ### The search through a directive -/

variable {d : Directive}

theorem eq_of_append_sign {a b x y : Bytes} (ha : ch '=' ∉ a) (hb : ch '=' ∉ b)
    (h : a ++ ch '=' :: x = b ++ ch '=' :: y) : a = b := by
  rcases List.append_eq_append_iff.mp h with ⟨z, rfl, hz⟩ | ⟨z, rfl, hz⟩
  all_goals
    cases z with
    | nil => simp
    | cons c z =>
      obtain ⟨rfl, -⟩ := List.cons.inj hz
      simp at ha hb

/-- At its front a directive with another name does not have the key. -/
theorem not_prefix_core (h : d.name ≠ k.name) : ¬ k.key <+: d.core := by
  rintro ⟨x, hx⟩
  have hk : ch '=' ∉ k.name := fun hmem => (k.mem_name hmem).2 rfl
  have hd : ch '=' ∉ d.name := fun hmem => (mem_of_isName d.name_token hmem).2 rfl
  unfold key Directive.core at hx
  cases harg : d.arg with
  | none =>
    rw [harg, List.append_nil] at hx
    exact hd (hx ▸ by simp)
  | some a =>
    rw [harg, List.append_assoc] at hx
    exact h (eq_of_append_sign hk hd hx).symm

/-- Nor does it have it in its quoted argument, unless it hides it there. -/
theorem lookup_quoted {q : Bytes} {hq : ch '"' ∉ q} (harg : d.arg = some (.quoted q hq))
    (hclear : ¬ d.Hides k.key) : k.lookup false (ch '"' :: q ++ [ch '"'] ++ l) = k.lookup false l := by
  have hquote : endsToken (ch '"') = false := by decide
  rw [List.append_assoc, lookup_append]
  · rw [List.singleton_append, lookup_cons_of_not_argChar (by decide), hquote]
  · intro a c hsplit hc hopen hkey
    obtain ⟨x, rfl⟩ := prefix_of_prefix_append (l := [ch '"'] ++ l) (by intro c hc; cases hc; decide) hkey
    cases a with
    | nil => exact absurd hopen Bool.false_ne_true
    | cons y a =>
      obtain ⟨rfl, hq⟩ := List.cons.inj hsplit
      rw [opens_cons, hquote] at hopen
      rcases List.eq_nil_or_concat a with rfl | ⟨a, z, rfl⟩
      · exact absurd hopen Bool.false_ne_true
      · rw [List.concat_eq_append] at hq hopen
        rw [opens_append, opens_cons, opens_nil] at hopen
        exact hclear ⟨q, _, harg, a, z, x, by simpa using hq, by simpa [endsToken] using hopen⟩

/-- The search passes over a directive with another name that does not hide the key. -/
theorem lookup_core (hname : d.name ≠ k.name) (hclear : ¬ d.Hides k.key)
    (hl : ∀ c, l.head? = some c → argChar c = false) : ∃ b, k.lookup true (d.core ++ l) = k.lookup b l := by
  have hfront : ¬ k.key <+: d.core ++ l := fun h => not_prefix_core hname (prefix_of_prefix_append hl h)
  have hsign : argChar (ch '=') = true := by decide
  have hchars : ∀ c ∈ d.name, argChar c = true := fun c hc => (mem_of_isName d.name_token hc).1
  cases harg : d.arg with
  | none =>
    have hcore : d.core = d.name := by rw [Directive.core, harg, List.append_nil]
    rw [hcore] at hfront ⊢
    by_cases hnil : d.name = []
    · exact ⟨true, by rw [hnil, List.nil_append]⟩
    · exact ⟨false, lookup_token hchars hnil hfront⟩
  | some a =>
    cases a with
    | token t ht =>
      have hcore : d.core = d.name ++ ch '=' :: t := by rw [Directive.core, harg]; rfl
      rw [hcore] at hfront ⊢
      refine ⟨false, lookup_token (fun c hc => ?_) (by simp) hfront⟩
      rcases List.mem_append.mp hc with hc | hc
      · exact hchars c hc
      · rcases List.mem_cons.mp hc with rfl | hc
        · exact hsign
        · exact ht c hc
    | quoted q hq =>
      have hcore : d.core ++ l = (d.name ++ [ch '=']) ++ (ch '"' :: q ++ [ch '"'] ++ l) := by
        rw [Directive.core, harg]
        simp [Argument.text]
      rw [hcore] at hfront ⊢
      refine ⟨false, (lookup_token (fun c hc => ?_) (by simp) hfront).trans (lookup_quoted harg hclear)⟩
      rcases List.mem_append.mp hc with hc | hc
      · exact hchars c hc
      · rw [List.mem_singleton.mp hc]
        exact hsign

theorem head_ows_comma (h : IsOws t) : ∀ c, (t ++ ch ',' :: l).head? = some c → argChar c = false := by
  intro c hc
  cases t with
  | nil =>
    cases hc
    decide
  | cons x t =>
    cases hc
    exact (ows_char (h c List.mem_cons_self)).1

theorem lookup_text_comma (hname : d.name ≠ k.name) (hclear : ¬ d.Hides k.key) :
    k.lookup true (d.text ++ ch ',' :: l) = k.lookup true l := by
  obtain ⟨b, hb⟩ := lookup_core hname hclear (head_ows_comma (l := l) d.trail_ows)
  rw [Directive.text, List.append_assoc, List.append_assoc, lookup_ows d.lead_ows, hb]
  exact lookup_comma d.trail_ows

theorem lookup_text_end (hname : d.name ≠ k.name) (hclear : ¬ d.Hides k.key) :
    k.lookup true d.text = none := by
  have hl : ∀ c, d.trail.head? = some c → argChar c = false :=
    fun c hc => (ows_char (d.trail_ows c (List.mem_of_mem_head? hc))).1
  obtain ⟨b, hb⟩ := lookup_core hname hclear hl
  rw [Directive.text, List.append_assoc, lookup_ows d.lead_ows, hb]
  exact lookup_end d.trail_ows

variable {ds : List Directive}

theorem lookup_frontText (h : ∀ d ∈ ds, d.name ≠ k.name ∧ ¬ d.Hides k.key) :
    k.lookup true (frontText ds ++ l) = k.lookup true l := by
  induction ds with
  | nil => rfl
  | cons d ds ih =>
    obtain ⟨hname, hclear⟩ := h d List.mem_cons_self
    have hsplit : frontText (d :: ds) ++ l = d.text ++ ch ',' :: (frontText ds ++ l) := by
      rw [frontText, List.flatMap_cons]
      simp [frontText]
    rw [hsplit, lookup_text_comma hname hclear]
    exact ih fun d hd => h d (List.mem_cons_of_mem _ hd)

/-- Nothing is found when no directive has the name. -/
theorem lookup_listText_none (h : ∀ d ∈ ds, d.name ≠ k.name ∧ ¬ d.Hides k.key) :
    k.lookup true (listText ds) = none := by
  induction ds with
  | nil => rfl
  | cons d ds ih =>
    obtain ⟨hname, hclear⟩ := h d List.mem_cons_self
    rw [listText_cons, backText]
    split
    · rw [List.append_nil]
      exact lookup_text_end hname hclear
    · rw [lookup_text_comma hname hclear]
      exact ih fun d hd => h d (List.mem_cons_of_mem _ hd)

/-! ### A key that is hidden -/

theorem afterKey_append {key l r : Bytes} (S : Bytes) (h : afterKey key l = some r) :
    afterKey key (l ++ S) = some (r ++ S) := by
  unfold afterKey at h ⊢
  split at h
  · next hkey =>
    cases h
    rw [if_pos ⟨hkey.1.trans (List.prefix_append l S), by rw [List.length_append]; omega⟩,
      List.drop_append_of_le_length hkey.2.le]
  · cases h

theorem frontText_concat (hne : ds ≠ []) : ∃ x, frontText ds = x ++ [ch ','] := by
  rcases List.eq_nil_or_concat ds with rfl | ⟨ds, d, rfl⟩
  · exact absurd rfl hne
  · refine ⟨frontText ds ++ d.text, ?_⟩
    rw [List.concat_eq_append, frontText, List.flatMap_append]
    simp [frontText]

/-- Where a directive hides the key, there is a place to find it. -/
theorem frontText_of_hides (hd : d ∈ ds) (h : d.Hides k.key) :
    ∃ a c b, frontText ds = a ++ [c] ++ (k.key ++ b) ∧ endsToken c = true ∧ b ≠ [] := by
  obtain ⟨q, hq, harg, a, c, b, rfl, hc⟩ := h
  obtain ⟨ds₁, ds₂, rfl⟩ := List.append_of_mem hd
  refine ⟨frontText ds₁ ++ d.lead ++ d.name ++ [ch '=', ch '"'] ++ a, c,
    b ++ [ch '"'] ++ d.trail ++ [ch ','] ++ frontText ds₂, ?_, by simpa [endsToken] using hc, by simp⟩
  have hsplit : frontText (ds₁ ++ d :: ds₂) = frontText ds₁ ++ (d.text ++ [ch ','] ++ frontText ds₂) := by
    simp [frontText]
  rw [hsplit, Directive.text, Directive.core, harg]
  simp [Argument.text]

/-- What is found there does not depend on what comes later. -/
theorem lookup_of_hides (hd : d ∈ ds) (h : d.Hides k.key) :
    ∃ v, ch ',' ∈ v ∧ ∀ S, k.lookup true (frontText ds ++ S) = some (v ++ S) := by
  have hnil : afterKey k.key [] = none := if_neg (by simp)
  obtain ⟨a, c, b, hplace, hends, hb⟩ := frontText_of_hides hd h
  cases hsearch : search endsToken (afterKey k.key) true (frontText ds) with
  | none =>
    have hmiss := (search_eq_none_iff hnil).mp hsearch (a ++ [c]) (k.key ++ b) hplace (by simp [hends])
    refine absurd ?_ hmiss
    have hafter : afterKey k.key (k.key ++ b) = some b := by
      rw [afterKey, if_pos ⟨List.prefix_append _ _, by simp [List.length_pos_iff.mpr hb]⟩, List.drop_left]
    simp [hafter]
  | some r =>
    obtain ⟨i, v⟩ := r
    obtain ⟨lead, rest, hhit, -, hafter⟩ := (search_eq_some_iff hnil).mp hsearch
    refine ⟨v, ?_, ?_⟩
    · -- The text ends with a comma, and `v` is its end.
      obtain ⟨x, hx⟩ := frontText_concat (List.ne_nil_of_mem hd)
      have hv : rest = k.key ++ v ∧ v ≠ [] := by
        unfold afterKey at hafter
        split at hafter
        · next hkey =>
          obtain ⟨⟨y, rfl⟩, hlen⟩ := hkey
          rw [List.drop_left] at hafter
          cases hafter
          exact ⟨rfl, by rintro rfl; simp at hlen⟩
        · cases hafter
      rcases List.eq_nil_or_concat v with rfl | ⟨v, z, rfl⟩
      · exact absurd rfl hv.2
      · have hlast := hhit.split
        rw [hx, hv.1, List.concat_eq_append, ← List.append_assoc, ← List.append_assoc] at hlast
        have hz := (List.append_inj' hlast rfl).2
        rw [List.concat_eq_append, ← List.singleton_inj.mp hz]
        exact List.mem_append_right _ List.mem_cons_self
    · intro S
      have hnone : ∀ c l, (search endsToken (afterKey k.key) (endsToken c) l).isSome →
          afterKey k.key (c :: l) = none → afterKey k.key (c :: l ++ S) = none := by
        intro c l hsome hmiss
        obtain ⟨⟨j, w⟩, hw⟩ := Option.isSome_iff_exists.mp hsome
        obtain ⟨lead', rest', hhit', -, hafter'⟩ := (search_eq_some_iff hnil).mp hw
        have hlen : k.key.length < rest'.length := by
          unfold afterKey at hafter'
          split at hafter'
          · next hkey => exact hkey.2
          · cases hafter'
        have hle := congrArg List.length hhit'.split
        rw [List.length_append] at hle
        have hlen' : k.key.length < (c :: l).length := by
          rw [List.length_cons]
          omega
        refine if_neg fun hkey => ?_
        have hbegin := List.prefix_of_prefix_length_le hkey.1 (List.prefix_append (c :: l) S) hlen'.le
        rw [afterKey, if_pos ⟨hbegin, hlen'⟩] at hmiss
        cases hmiss
      rw [lookup, search_append_of_some (· ++ S) (fun _ _ => afterKey_append S) hnone hsearch]
      rfl

/-! ## The values that are read -/

/-- `get_max_age()` and `get_stale_while_revalidate()`. -/
def get (k : AgeKey) (resp : HttpResponse) : Res ℤ :=
  match k with
  | .maxAge => resp.getMaxAge
  | .staleWhileRevalidate => resp.getStaleWhileRevalidate

theorem get_eq_ok_iff {resp : HttpResponse} {cc : Bytes} (h : resp.hdr (bytes "cache-control") = some cc)
    (z : ℤ) :
    k.get resp = .ok z ↔ (if getKeyFromString cc k.key = [] then .ok 0
      else svtoS 64 (getKeyFromString cc k.key) : Res ℤ) = .ok z := by
  cases k with
  | maxAge =>
    have hkey : maxAge.key = bytes "max-age=" := by decide
    rw [get, HttpResponse.getMaxAge, renest, catchE_eq_ok_iff (fun _ => by simp), h, hkey]
  | staleWhileRevalidate =>
    have hkey : staleWhileRevalidate.key = bytes "stale-while-revalidate=" := by decide
    rw [get, HttpResponse.getStaleWhileRevalidate, renest, catchE_eq_ok_iff (fun _ => by simp), h, hkey]

end AgeKey

/-- What a value is made of. -/
def inValue (c : UInt8) : Bool := c ≠ ch ',' && c ≠ ch ' '

theorem getKeyFromString_eq {k : AgeKey} {cc v : Bytes} (h : k.lookup true cc = some v) :
    getKeyFromString cc k.key = v.takeWhile inValue := by
  rw [getKeyFromString, k.findKey_key, h]
  rfl

/-- The digits as an argument. -/
def Numeral.argument (m : Numeral) : Argument :=
  .token m.text fun c hc => by
    obtain ⟨d, hd, rfl⟩ := m.mem_text hc
    interval_cases d <;> decide

/-- A numeral that the client can read: it fits a `time_t`, and is not taken for another number. -/
def Numeral.Readable (m : Numeral) : Prop := m.value < 2 ^ 63 ∧ m.Plain

/-- A list of directives but for the value of the first one with the name of `k`. -/
structure AgeList (k : AgeKey) where
  before : List Directive
  lead : Bytes
  trail : Bytes
  after : List Directive
  lead_ows : IsOws lead
  trail_ows : IsOws trail
  first : ∀ d ∈ before, d.name ≠ k.name

namespace AgeList

variable {k : AgeKey} (L : AgeList k)

/-- The directive itself, with the value `m`. -/
def directive (m : Numeral) : Directive :=
  ⟨L.lead, k.name, some m.argument, L.trail, L.lead_ows, k.isName_name, L.trail_ows⟩

def text (m : Numeral) : Bytes := listText (L.before ++ L.directive m :: L.after)

theorem text_eq (m : Numeral) :
    L.text m = frontText L.before ++ (L.lead ++ (k.key ++ (m.text ++ (L.trail ++ backText L.after)))) := by
  rw [text, listText_append, Directive.text, Directive.core]
  simp [directive, AgeKey.key, Numeral.argument, Argument.text]

variable {L}

/-- The value of the directive is cut out, with tabs behind it at most. -/
theorem getKeyFromString_of_clear (h : ∀ d ∈ L.before, ¬ d.Hides k.key) (m : Numeral) :
    ∃ w, getKeyFromString (L.text m) k.key = m.text ++ w ∧ ∀ c ∈ w, isWhite c = true := by
  have hlookup : k.lookup true (L.text m) = some (m.text ++ (L.trail ++ backText L.after)) := by
    rw [text_eq, AgeKey.lookup_frontText fun d hd => ⟨L.first d hd, h d hd⟩, AgeKey.lookup_ows L.lead_ows]
    exact AgeKey.lookup_key (by simp [m.text_ne_nil])
  have hdigits : ∀ c ∈ m.text, inValue c = true := by
    intro c hc
    obtain ⟨d, hd, rfl⟩ := m.mem_text hc
    interval_cases d <;> decide
  refine ⟨(L.trail ++ backText L.after).takeWhile inValue, ?_, ?_⟩
  · rw [getKeyFromString_eq hlookup, List.takeWhile_append_of_pos hdigits]
  · intro c hc
    have hall : ∀ t : Bytes, IsOws t → c ∈ (t ++ backText L.after).takeWhile inValue → isWhite c = true := by
      intro t ht hmem
      induction t with
      | nil =>
        rw [List.nil_append, backText] at hmem
        split at hmem
        · cases hmem
        · rw [List.takeWhile_cons] at hmem
          cases hmem
      | cons x t ih =>
        rw [List.cons_append, List.takeWhile_cons] at hmem
        split at hmem
        · rcases List.mem_cons.mp hmem with rfl | hmem
          · rcases ht c List.mem_cons_self with rfl | rfl <;> decide
          · exact ih (fun c hc => ht c (List.mem_cons_of_mem _ hc)) hmem
        · cases hmem
    exact hall L.trail L.trail_ows hc

/-- What is cut out where another directive hides the key does not depend on the value. -/
theorem getKeyFromString_of_hides {d : Directive} (hd : d ∈ L.before) (h : d.Hides k.key) :
    ∃ s, ∀ m, getKeyFromString (L.text m) k.key = s := by
  obtain ⟨v, hv, hlookup⟩ := AgeKey.lookup_of_hides hd h
  refine ⟨v.takeWhile inValue, fun m => ?_⟩
  rw [getKeyFromString_eq (by rw [text_eq, hlookup]), List.takeWhile_append, if_neg]
  intro hlen
  have hall := List.takeWhile_eq_self_iff.mp ((List.takeWhile_prefix _).eq_of_length hlen) _ hv
  exact absurd hall (by decide)

/-- Every value is read exactly when it can be read and no other directive hides the key. -/
theorem get_iff (resp : Numeral → HttpResponse)
    (hcc : ∀ m, (resp m).hdr (bytes "cache-control") = some (L.text m)) (m : Numeral) :
    (k.get (resp m) = .ok m.value ∧ ∀ m' : Numeral, m'.Readable → k.get (resp m') = .ok m'.value)
      ↔ m.Readable ∧ ∀ d ∈ L.before, ¬ d.Hides k.key := by
  have hread : (∀ d ∈ L.before, ¬ d.Hides k.key) → ∀ m : Numeral,
      (k.get (resp m) = .ok m.value ↔ m.Readable) := by
    intro hclear m
    obtain ⟨w, hs, hw⟩ := getKeyFromString_of_clear hclear m
    rw [AgeKey.get_eq_ok_iff (hcc m), hs, if_neg (by simp [m.text_ne_nil])]
    exact Numeral.svtoS_text_iff (by norm_num) hw
  constructor
  · rintro ⟨hm, hall⟩
    have hclear : ∀ d ∈ L.before, ¬ d.Hides k.key := by
      intro d hd hides
      obtain ⟨s, hs⟩ := getKeyFromString_of_hides hd hides
      have hzero := hall (.ofNat 0) ⟨by simp, Or.inr (by simp)⟩
      have hone := hall (.ofNat 1) ⟨by simp, Or.inr (by simp)⟩
      rw [AgeKey.get_eq_ok_iff (hcc _), hs] at hzero hone
      rw [hzero, Numeral.value_ofNat, Numeral.value_ofNat] at hone
      exact absurd (Except.ok.inj hone) (by decide)
    exact ⟨(hread hclear m).mp hm, hclear⟩
  · rintro ⟨hm, hclear⟩
    exact ⟨(hread hclear m).mpr hm, fun m' hm' => (hread hclear m').mpr hm'⟩

end AgeList

/-- Without the directive the value is zero. -/
theorem AgeKey.get_absent {k : AgeKey} {ds : List Directive} {resp : HttpResponse}
    (hcc : resp.hdr (bytes "cache-control") = some (listText ds))
    (h : ∀ d ∈ ds, d.name ≠ k.name ∧ ¬ d.Hides k.key) : k.get resp = .ok 0 := by
  rw [AgeKey.get_eq_ok_iff hcc, getKeyFromString, k.findKey_key, AgeKey.lookup_listText_none h]
  rfl

/-- The directives are read exactly when their values can be read and no quoted argument in front has the
name of one; without that, zero is read for those that are not there. -/
theorem ageDirectives_iff (k : AgeKey) :
    (∀ (L : AgeList k) (resp : Numeral → HttpResponse),
      (∀ m, (resp m).hdr (bytes "cache-control") = some (L.text m)) → ∀ m : Numeral,
        ((k.get (resp m) = .ok m.value ∧ ∀ m' : Numeral, m'.Readable → k.get (resp m') = .ok m'.value)
          ↔ m.Readable ∧ ∀ d ∈ L.before, ¬ d.Hides k.key))
      ∧ ∀ (ds : List Directive) (resp : HttpResponse), resp.hdr (bytes "cache-control") = some (listText ds) →
        (∀ d ∈ ds, d.name ≠ k.name ∧ ¬ d.Hides k.key) → k.get resp = .ok 0 :=
  ⟨fun _ => AgeList.get_iff, fun _ _ => AgeKey.get_absent⟩

/-- A response with this header. -/
def HttpResponse.ofCacheControl (cc : Bytes) : HttpResponse := ⟨200, [(bytes "Cache-Control", cc)], []⟩

theorem hdr_ofCacheControl (cc : Bytes) :
    (HttpResponse.ofCacheControl cc).hdr (bytes "cache-control") = some (trimOws cc) := by
  have hlower : lower (bytes "Cache-Control") = bytes "cache-control" := by decide
  unfold HttpResponse.ofCacheControl HttpResponse.hdr
  simp [hlower]

/-- Without white space at its ends a value is kept as it is. -/
theorem trimOws_eq {a b : UInt8} {l : Bytes} (ha : argChar a = true) (hb : argChar b = true) :
    trimOws (a :: l ++ [b]) = a :: l ++ [b] := by
  have hows : ∀ {c : UInt8}, argChar c = true → (decide (c = ch ' ') || decide (c = ch '\t')) = false := by
    intro c hc
    by_contra hows
    rw [Bool.not_eq_false, Bool.or_eq_true, decide_eq_true_eq, decide_eq_true_eq] at hows
    rw [(AgeKey.ows_char hows).1] at hc
    cases hc
  have hrev : (a :: l ++ [b]).reverse = b :: (a :: l).reverse := by simp
  have hfront : (a :: l ++ [b]).dropWhile (fun c => decide (c = ch ' ') || decide (c = ch '\t'))
      = a :: l ++ [b] := by
    rw [List.cons_append, List.dropWhile_cons, hows ha]
    rfl
  unfold trimOws
  rw [hfront, hrev, List.dropWhile_cons, hows hb]
  simp

/-- The two directives, with the value of the first left open. -/
def AgeList.pair : AgeList .maxAge where
  before := []
  lead := []
  trail := [ch '\t']
  after := [⟨[ch ' '], bytes "stale-while-revalidate", some (Numeral.ofNat 30).argument, [], by decide, by decide,
    by decide⟩]
  lead_ows := by decide
  trail_ows := by decide
  first := by simp

theorem ageDirectives_pair :
    AgeKey.maxAge.get (.ofCacheControl (AgeList.pair.text (.ofNat 60))) = .ok ((Numeral.ofNat 60).value : ℤ)
      ∧ ∀ m : Numeral, m.Readable → AgeKey.maxAge.get (.ofCacheControl (AgeList.pair.text m)) = .ok m.value := by
  have hcc : ∀ m, (HttpResponse.ofCacheControl (AgeList.pair.text m)).hdr (bytes "cache-control")
      = some (AgeList.pair.text m) := by
    intro m
    have htext : AgeList.pair.text m = ch 'm' :: (bytes "ax-age=" ++ m.text
        ++ (ch '\t' :: bytes ", stale-while-revalidate=3")) ++ [ch '0'] := by
      have hkey : AgeKey.maxAge.key = ch 'm' :: bytes "ax-age=" := by decide
      have hback : AgeList.pair.trail ++ backText AgeList.pair.after
          = ch '\t' :: bytes ", stale-while-revalidate=3" ++ [ch '0'] := by decide
      rw [AgeList.text_eq, hback, hkey]
      simp [AgeList.pair, frontText]
    rw [hdr_ofCacheControl, htext, trimOws_eq (by decide) (by decide)]
  have hreadable : (Numeral.ofNat 60).Readable := ⟨by simp, Or.inl (by decide +kernel)⟩
  exact ((ageDirectives_iff .maxAge).1 AgeList.pair _ hcc (.ofNat 60)).mpr ⟨hreadable, by simp [AgeList.pair]⟩

/-- A zero in front makes the number octal. -/
theorem ageDirectives_octal :
    ¬ ∀ (k : AgeKey) (L : AgeList k) (m : Numeral) (resp : HttpResponse),
      resp.hdr (bytes "cache-control") = some (L.text m) → k.get resp = .ok m.value := by
  intro hclaim
  have hget := hclaim .maxAge ⟨[], [], [], [], by decide, by decide, by simp⟩ ⟨[0, 1, 0], by decide, by decide⟩
    (.ofCacheControl (bytes "max-age=010")) (by decide +kernel)
  have height : AgeKey.maxAge.get (.ofCacheControl (bytes "max-age=010")) = .ok 8 := by decide +kernel
  rw [height] at hget
  exact absurd (Except.ok.inj hget) (by decide)

end Fs123
