import Mathlib.Data.List.Basic

/-!
# The leftmost hit

A list is searched from the left for a place where something is hit. A hit may only begin behind an element
that `ends` what comes before, or at the front of the list when the search is told so. `search` does this
one element after the other; `Hit` and `Miss` say what it finds (`search_eq_some_iff`,
`search_eq_none_iff`). What stands before the hit can be left out (`search_append`), what stands behind it
can be added to (`search_append_of_some`), and the hit itself can be replaced (`Hit.replace`).
-/

namespace Leftmost

variable {α β : Type*} (ends : α → Bool) (P : List α → Prop)

/-- Whether a hit may begin behind `lead`; at the front it may when `b`. -/
def opens (b : Bool) (lead : List α) : Bool := (lead.getLast?.map ends).getD b

/-- The first hit in `l` is `rest`, behind `lead`. -/
structure Hit (b : Bool) (l lead rest : List α) : Prop where
  split : l = lead ++ rest
  opened : opens ends b lead = true
  hit : P rest
  first : ∀ lead' rest', l = lead' ++ rest' → opens ends b lead' = true → P rest' →
    lead.length ≤ lead'.length

/-- Nothing is hit in `l`. -/
def Miss (b : Bool) (l : List α) : Prop :=
  ∀ lead rest, l = lead ++ rest → opens ends b lead = true → ¬ P rest

/-- The search: how many elements are before the hit, and what is made of it. -/
def search (m : List α → Option β) : Bool → List α → Option (ℕ × β)
  | _, [] => none
  | b, c :: l =>
    match if b then m (c :: l) else none with
    | some r => some (0, r)
    | none => (search m (ends c) l).map fun r => (r.1 + 1, r.2)

variable {ends P} {b : Bool} {c : α} {l t lead rest lead' rest' : List α}

@[simp] theorem opens_nil (ends : α → Bool) (b : Bool) : opens ends b [] = b := rfl

@[simp] theorem opens_cons (ends : α → Bool) (b : Bool) (c : α) (lead : List α) :
    opens ends b (c :: lead) = opens ends (ends c) lead := by
  rw [opens, opens, List.getLast?_cons]
  cases lead.getLast? <;> rfl

@[simp] theorem opens_append (ends : α → Bool) (b : Bool) (t lead : List α) :
    opens ends b (t ++ lead) = opens ends (opens ends b t) lead := by
  induction t generalizing b with
  | nil => rfl
  | cons c t ih => rw [List.cons_append, opens_cons, opens_cons, ih]

theorem hit_here (hb : b = true) (h : P l) : Hit ends P b l [] l :=
  ⟨rfl, hb, h, fun _ _ _ _ _ => Nat.zero_le _⟩

/-- There is at most one first hit. -/
theorem Hit.unique (h : Hit ends P b l lead rest) (h' : Hit ends P b l lead' rest') :
    lead = lead' ∧ rest = rest' := by
  have hle := h.first lead' rest' h'.split h'.opened h'.hit
  have hge := h'.first lead rest h.split h.opened h.hit
  exact List.append_inj (h.split.symm.trans h'.split) (Nat.le_antisymm hle hge)

theorem Hit.not_miss (h : Hit ends P b l lead rest) : ¬ Miss ends P b l :=
  fun hmiss => hmiss lead rest h.split h.opened h.hit

/-- The element at the front can be left out when nothing is hit there. -/
theorem hit_cons_iff (hclear : b = true → ¬ P (c :: l)) :
    Hit ends P b (c :: l) lead rest ↔ ∃ lead', lead = c :: lead' ∧ Hit ends P (ends c) l lead' rest := by
  constructor
  · intro h
    cases lead with
    | nil =>
      have hrest : c :: l = rest := h.split
      exact absurd (hrest ▸ h.hit) (hclear h.opened)
    | cons a lead =>
      obtain ⟨rfl, hsplit⟩ := List.cons.inj h.split
      refine ⟨lead, rfl, hsplit, opens_cons ends b c lead ▸ h.opened, h.hit, ?_⟩
      intro lead' rest' hl hopen hhit
      have := h.first (c :: lead') rest' (by rw [hl, List.cons_append]) (by rwa [opens_cons]) hhit
      simpa using this
  · intro h
    obtain ⟨lead, rfl, h⟩ := h
    refine ⟨by rw [h.split, List.cons_append], by rw [opens_cons]; exact h.opened, h.hit, ?_⟩
    intro lead' rest' hl hopen hhit
    cases lead' with
    | nil =>
      have hrest : c :: l = rest' := hl
      exact absurd (hrest ▸ hhit) (hclear hopen)
    | cons a lead' =>
      obtain ⟨rfl, htail⟩ := List.cons.inj hl
      have := h.first lead' rest' htail (opens_cons ends b c lead' ▸ hopen) hhit
      simpa using this

theorem miss_cons_iff :
    Miss ends P b (c :: l) ↔ (b = true → ¬ P (c :: l)) ∧ Miss ends P (ends c) l := by
  constructor
  · intro h
    refine ⟨fun hb => h [] (c :: l) rfl hb, ?_⟩
    intro lead rest hl hopen
    exact h (c :: lead) rest (by rw [hl, List.cons_append]) (by rwa [opens_cons])
  · intro h lead rest hl hopen
    cases lead with
    | nil =>
      have hrest : c :: l = rest := hl
      exact hrest ▸ h.1 hopen
    | cons a lead =>
      obtain ⟨rfl, htail⟩ := List.cons.inj hl
      exact h.2 lead rest htail (opens_cons ends b c lead ▸ hopen)

/-- The hit can be replaced by one that leaves the misses before it as they are. -/
theorem Hit.replace (h : Hit ends P b l lead rest) (hhit : P rest')
    (hlocal : ∀ c, c ≠ [] → P (c ++ rest') → P (c ++ rest)) : Hit ends P b (lead ++ rest') lead rest' := by
  refine ⟨rfl, h.opened, hhit, ?_⟩
  intro lead' rest'' hl hopen hhit'
  rcases List.append_eq_append_iff.mp hl with ⟨a, rfl, ha⟩ | ⟨a, rfl, ha⟩
  · simp
  · by_cases hnil : a = []
    · simp [hnil]
    · have hsplit : l = lead' ++ (a ++ rest) := by rw [h.split, List.append_assoc]
      exact h.first lead' (a ++ rest) hsplit hopen (hlocal a hnil (ha ▸ hhit'))

variable {m : List α → Option β} {r : β} {i : ℕ}

theorem search_eq_some_iff (hnil : m [] = none) :
    search ends m b l = some (i, r)
      ↔ ∃ lead rest, Hit ends (fun rest => (m rest).isSome) b l lead rest ∧ i = lead.length
        ∧ m rest = some r := by
  induction l generalizing b i with
  | nil =>
    simp only [search, reduceCtorEq, false_iff]
    rintro ⟨lead, rest, h, -, hr⟩
    obtain ⟨-, rfl⟩ := List.append_eq_nil_iff.mp h.split.symm
    rw [hnil] at hr
    exact absurd hr (by simp)
  | cons c l ih =>
    rw [search]
    by_cases hhere : b = true ∧ (m (c :: l)).isSome
    · obtain ⟨hb, hm⟩ := hhere
      obtain ⟨r', hr'⟩ := Option.isSome_iff_exists.mp hm
      rw [if_pos hb, hr']
      have hfirst : Hit ends (fun rest => (m rest).isSome = true) b (c :: l) [] (c :: l) := hit_here hb hm
      constructor
      · intro h
        cases h
        exact ⟨[], c :: l, hfirst, rfl, hr'⟩
      · rintro ⟨lead, rest, h, rfl, hr⟩
        obtain ⟨rfl, rfl⟩ := h.unique hfirst
        rw [hr'] at hr
        cases hr
        rfl
    · have hnone : (if b = true then m (c :: l) else none) = none := by
        split
        · next hb => exact Option.not_isSome_iff_eq_none.mp fun hm => hhere ⟨hb, hm⟩
        · rfl
      rw [hnone]
      dsimp only
      rw [Option.map_eq_some_iff]
      constructor
      · rintro ⟨⟨j, r'⟩, hsearch, heq⟩
        cases heq
        obtain ⟨lead, rest, h, rfl, hr⟩ := ih.mp hsearch
        refine ⟨c :: lead, rest, ?_, rfl, hr⟩
        exact (hit_cons_iff fun hb hm => hhere ⟨hb, hm⟩).mpr ⟨lead, rfl, h⟩
      · rintro ⟨lead, rest, h, rfl, hr⟩
        obtain ⟨lead, rfl, htail⟩ := (hit_cons_iff fun hb hm => hhere ⟨hb, hm⟩).mp h
        exact ⟨(lead.length, r), ih.mpr ⟨lead, rest, htail, rfl, hr⟩, rfl⟩

theorem search_eq_none_iff (hnil : m [] = none) :
    search ends m b l = none ↔ Miss ends (fun rest => (m rest).isSome) b l := by
  induction l generalizing b with
  | nil =>
    simp only [search, true_iff]
    intro lead rest hl hopen hsome
    obtain ⟨-, rfl⟩ := List.append_eq_nil_iff.mp hl.symm
    simp [hnil] at hsome
  | cons c l ih =>
    rw [search, miss_cons_iff, ← ih]
    cases hhere : (if b = true then m (c :: l) else none) with
    | some r =>
      have hb : b = true := by
        by_contra hb
        simp [hb] at hhere
      rw [if_pos hb] at hhere
      simp [hb, hhere]
    | none =>
      have hclear : b = true → ¬ (m (c :: l)).isSome := by
        intro hb
        rw [if_pos hb] at hhere
        simp [hhere]
      simp only [Option.map_eq_none_iff]
      exact (and_iff_right hclear).symm

theorem search_cons_of_none (h : b = true → m (c :: l) = none) :
    search ends m b (c :: l) = (search ends m (ends c) l).map fun r => (r.1 + 1, r.2) := by
  have hnone : (if b = true then m (c :: l) else none) = none := by
    split
    · next hb => exact h hb
    · rfl
  rw [search, hnone]

/-- What stands before can be left out when nothing is hit there. -/
theorem search_append (hclear : ∀ a c, t = a ++ c → c ≠ [] → opens ends b a = true → m (c ++ l) = none) :
    search ends m b (t ++ l) = (search ends m (opens ends b t) l).map fun r => (t.length + r.1, r.2) := by
  induction t generalizing b with
  | nil => simp
  | cons c t ih =>
    have hclear' : ∀ a d, t = a ++ d → d ≠ [] → opens ends (ends c) a = true → m (d ++ l) = none := by
      intro a d ht hd hopen
      exact hclear (c :: a) d (by rw [ht, List.cons_append]) hd (by rwa [opens_cons])
    have hhere : b = true → m (c :: (t ++ l)) = none :=
      fun hb => hclear [] (c :: t) rfl (List.cons_ne_nil _ _) hb
    rw [List.cons_append, search_cons_of_none hhere, ih hclear', Option.map_map, opens_cons]
    congr 1
    funext r
    simp only [Function.comp_apply, List.length_cons, Prod.mk.injEq, and_true]
    omega

/-- What is behind a hit does not matter, when it does not make hits of misses. -/
theorem search_append_of_some (g : β → β) (hsome : ∀ l r, m l = some r → m (l ++ t) = some (g r))
    (hnone : ∀ c l, (search ends m (ends c) l).isSome → m (c :: l) = none → m (c :: l ++ t) = none)
    (h : search ends m b l = some (i, r)) : search ends m b (l ++ t) = some (i, g r) := by
  induction l generalizing b i with
  | nil => cases h
  | cons c l ih =>
    rw [search] at h
    cases hhere : (if b = true then m (c :: l) else none) with
    | some r' =>
      rw [hhere] at h
      cases h
      have hb : b = true := by
        by_contra hb
        simp [hb] at hhere
      rw [if_pos hb] at hhere
      rw [List.cons_append, search, if_pos hb, ← List.cons_append, hsome _ _ hhere]
    | none =>
      rw [hhere] at h
      dsimp only at h
      obtain ⟨⟨j, r'⟩, hsearch, heq⟩ := Option.map_eq_some_iff.mp h
      cases heq
      have hclear : b = true → m (c :: (l ++ t)) = none := by
        intro hb
        rw [if_pos hb] at hhere
        exact hnone c l (by rw [hsearch]; rfl) hhere
      rw [List.cons_append, search_cons_of_none hclear, ih hsearch]
      rfl

end Leftmost
