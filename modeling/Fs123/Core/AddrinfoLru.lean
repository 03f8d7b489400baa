import Fs123.Common.DoublyLinked
import Fs123.Common.Ends
import Fs123.Core.AddrinfoCache

/-!
# The order of the address-info cache

`Rep c l` says that the records of the cache are linked in the order of the list `l`, the most recently used
one first. A lookup moves its record to the front or adds one there, and the first loop of `refresh` cuts the
list off. `View` describes the cache while a function is at work on its links.
-/

namespace Fs123.AddrinfoCache

open Cxx DoublyLinked

/-- The `less_ru` link of the record at an address. -/
def lessOf (c : AddrinfoCache) (a : Addr) : Option Addr := (c.theMap.node a).map fun p => p.2.lessRu

/-- The `more_ru` link of the record at an address. -/
def moreOf (c : AddrinfoCache) (a : Addr) : Option Addr := (c.theMap.node a).map fun p => p.2.moreRu

/-- The elements of the cache, its links and the ends of its list. -/
structure View (c : AddrinfoCache) (l : List (Addr × GaiArgs)) (less more : Addr → Option Addr)
    (most least : Addr) : Prop where
  mem : ∀ a k, (a, k) ∈ l ↔ ∃ r, c.theMap.node a = some (k, r)
  size : c.size = l.length
  less : c.lessOf = less
  more : c.moreOf = more
  most : c.mostRu = most
  least : c.leastRu = least

/-- The elements of the cache are linked in the order of the list. -/
structure Rep (c : AddrinfoCache) (l : List (Addr × GaiArgs)) : Prop where
  mem : ∀ a k, (a, k) ∈ l ↔ ∃ r, c.theMap.node a = some (k, r)
  size : c.size = l.length
  threaded : Threaded c.lessOf c.moreOf c.mostRu c.leastRu (l.map Prod.fst)

variable {c : AddrinfoCache} {l s t : List (Addr × GaiArgs)} {less more : Addr → Option Addr}
  {most least a b p : Addr} {k : GaiArgs}

theorem Rep.view (h : Rep c l) : View c l c.lessOf c.moreOf c.mostRu c.leastRu :=
  ⟨h.mem, h.size, rfl, rfl, rfl, rfl⟩

theorem View.rep (h : View c l less more most least) (ht : Threaded less more most least (l.map Prod.fst)) :
    Rep c l := by
  obtain ⟨hmem, hsize, rfl, rfl, rfl, rfl⟩ := h
  exact ⟨hmem, hsize, ht⟩

/-- The order of the elements does not matter to the view. -/
theorem View.perm (h : View c l less more most least) (hperm : l.Perm s) : View c s less more most least :=
  ⟨fun a k => by rw [← hperm.mem_iff, h.mem], by rw [h.size, hperm.length_eq], h.less, h.more, h.most, h.least⟩

theorem Rep.empty : Rep .empty [] where
  mem a k := by simp [AddrinfoCache.empty, NodeMap.empty]
  size := rfl
  threaded := ⟨List.isChain_nil, List.nodup_nil, fun a h => by simp at h, fun a h => by simp at h⟩

/-- Every key is in the list exactly once. -/
theorem Rep.key_mem (h : Rep c l) : k ∈ l.map Prod.snd ↔ c.theMap.index k ≠ none := by
  rw [List.mem_map, Option.ne_none_iff_exists']
  constructor
  · rintro ⟨⟨a, k'⟩, hmem, rfl⟩
    exact ⟨a, (c.theMap.index_eq_some k' a).mpr ((h.mem a k').mp hmem)⟩
  · rintro ⟨a, ha⟩
    exact ⟨(a, k), (h.mem a k).mpr ((c.theMap.index_eq_some k a).mp ha), rfl⟩

theorem Rep.keys_nodup (h : Rep c l) : (l.map Prod.snd).Nodup := by
  refine List.Nodup.map_on ?_ (List.Nodup.of_map Prod.fst h.threaded.nodup)
  rintro ⟨a, k⟩ ha ⟨b, k'⟩ hb (rfl : k = k')
  have hia := (c.theMap.index_eq_some k a).mpr ((h.mem a k).mp ha)
  have hib := (c.theMap.index_eq_some k b).mpr ((h.mem b k).mp hb)
  rw [hia, Option.some.injEq] at hib
  rw [hib]

/-! ## Reading and writing a record -/

theorem View.deref (h : View c l less more most least) (hp : (p, k) ∈ l) :
    ∃ r, deref p c = .ok r c ∧ less p = some r.lessRu ∧ more p = some r.moreRu := by
  obtain ⟨r, hr⟩ := (h.mem p k).mp hp
  refine ⟨r, ?_, ?_, ?_⟩
  · simp only [AddrinfoCache.deref, hr]
  · rw [← h.less, lessOf, hr, Option.map_some]
  · rw [← h.more, moreOf, hr, Option.map_some]

/-- Write any member of a record. -/
theorem View.assign (h : View c l less more most least) (hp : (p, k) ∈ l) (f : GaiMrecord → GaiMrecord) :
    ∃ r, less p = some r.lessRu ∧ more p = some r.moreRu ∧
      Ends (assign p f) c fun _ c' => View c' l (Function.update less p (some (f r).lessRu))
        (Function.update more p (some (f r).moreRu)) most least := by
  obtain ⟨r, hr⟩ := (h.mem p k).mp hp
  have hless : less p = some r.lessRu := by rw [← h.less, lessOf, hr, Option.map_some]
  have hmore : more p = some r.moreRu := by rw [← h.more, moreOf, hr, Option.map_some]
  have hrun : AddrinfoCache.assign p f c = .ok () { c with theMap := c.theMap.set p (f r) } := by
    simp only [AddrinfoCache.assign, hr]
  refine ⟨r, hless, hmore, Ends.ok hrun ?_⟩
  have hnode : ∀ b, (c.theMap.set p (f r)).node b
      = if b = p then some (k, f r) else c.theMap.node b := by
    intro b
    rw [NodeMap.set]
    dsimp only
    rw [Function.update_apply, hr]
    rfl
  refine ⟨?_, h.size, ?_, ?_, h.most, h.least⟩
  · intro b k'
    rw [h.mem]
    dsimp only
    rw [hnode]
    split
    · next heq =>
      rw [heq, hr]
      simp
    · rfl
  · funext b
    rw [lessOf, Function.update_apply, ← h.less, lessOf]
    dsimp only
    rw [hnode]
    split <;> rfl
  · funext b
    rw [moreOf, Function.update_apply, ← h.more, moreOf]
    dsimp only
    rw [hnode]
    split <;> rfl

theorem View.setLessRu (h : View c l less more most least) (hp : (p, k) ∈ l) (a : Addr) :
    Ends (setLessRu p a) c fun _ c' => View c' l (Function.update less p (some a)) more most least := by
  obtain ⟨r, -, hmore, hends⟩ := h.assign hp fun r => { r with lessRu := a }
  rw [← hmore, Function.update_eq_self] at hends
  exact hends

theorem View.setMoreRu (h : View c l less more most least) (hp : (p, k) ∈ l) (a : Addr) :
    Ends (setMoreRu p a) c fun _ c' => View c' l less (Function.update more p (some a)) most least := by
  obtain ⟨r, hless, -, hends⟩ := h.assign hp fun r => { r with moreRu := a }
  rw [← hless, Function.update_eq_self] at hends
  exact hends

theorem View.setAir (h : View c l less more most least) (hp : (p, k) ∈ l) (air : AddrinfoResult) :
    Ends (setAir p air) c fun _ c' => View c' l less more most least := by
  obtain ⟨r, hless, hmore, hends⟩ := h.assign hp fun r => { r with air }
  rw [← hless, ← hmore, Function.update_eq_self, Function.update_eq_self] at hends
  exact hends

/-! ## `make_most_ru` -/

/-- The record is taken out of the list; it is not the first one. -/
theorem disconnect_spec {as bs : List Addr} {q : Addr} (h : View c l less more most least)
    (ht : Threaded less more most least (as ++ q :: p :: bs))
    (hl : ∀ a ∈ as ++ q :: p :: bs, ∃ k, (a, k) ∈ l) :
    Ends (disconnect p) c fun _ c' => ∃ less' more' least',
      View c' l less' more' most least' ∧ Threaded less' more' most least' (as ++ q :: bs) := by
  obtain ⟨k, hp⟩ := hl p (by simp)
  obtain ⟨kq, hq⟩ := hl q (by simp)
  obtain ⟨r, hr, hless, hmore⟩ := h.deref hp
  refine Ends.step r c hr (Ends.step c c rfl ?_)
  refine Ends.ite ?_ ?_
  · intro hlast
    rw [h.least] at hlast
    rcases bs with _ | ⟨b, bs⟩
    · obtain ⟨-, hprev, hrest⟩ := ht.dropLast
      rw [hmore, Option.some.injEq] at hprev
      subst hprev
      exact Ends.ok rfl ⟨less, more, _, ⟨h.mem, h.size, h.less, h.more, h.most, rfl⟩, hrest⟩
    · -- the last record comes after this one
      exfalso
      obtain ⟨x, hx⟩ := List.getLast?_isSome.mpr (List.cons_ne_nil b bs) |> Option.isSome_iff_exists.mp
      have hleast := ht.last_eq x (by simpa [List.getLast?_append, List.getLast?_cons_cons] using hx)
      have hnodup := ht.nodup
      rw [List.nodup_append] at hnodup
      have hpn : p ∉ b :: bs := (List.nodup_cons.mp (List.nodup_cons.mp hnodup.2.1).2).1
      rw [hlast, hleast] at hpn
      exact hpn (List.mem_of_getLast? hx)
  · intro hlast
    rw [h.least] at hlast
    rcases bs with _ | ⟨b, bs⟩
    · exact absurd (ht.dropLast.1).symm hlast
    obtain ⟨kb, hb⟩ := hl b (by simp)
    obtain ⟨hnext, hprev, hrest⟩ := ht.unlink
    have hrb : r.lessRu = b := Option.some.inj (hless.symm.trans hnext)
    have hrq : r.moreRu = q := Option.some.inj (hmore.symm.trans hprev)
    rw [hrb, hrq]
    refine Ends.bind (h.setMoreRu hb q) ?_
    intro _ c₁ h₁
    obtain ⟨r₁, hr₁, hless₁, hmore₁⟩ := h₁.deref hp
    have hpb : p ≠ b := by
      rintro rfl
      have hnodup := ht.nodup
      rw [List.nodup_append] at hnodup
      exact (List.nodup_cons.mp (List.nodup_cons.mp hnodup.2.1).2).1 List.mem_cons_self
    rw [Function.update_of_ne hpb, hprev, Option.some.injEq] at hmore₁
    rw [hnext, Option.some.injEq] at hless₁
    refine Ends.step r₁ c₁ hr₁ ?_
    rw [← hmore₁, ← hless₁]
    refine (h₁.setLessRu hq b).mono ?_
    intro _ c₂ h₂
    exact ⟨_, _, least, h₂, hrest⟩

/-- A record that is not in the list is put in front. -/
theorem reconnect_spec {as : List Addr} (h : View c l less more most least)
    (ht : Threaded less more most least as) (hne : as ≠ []) (hp : (p, k) ∈ l) (hpas : p ∉ as)
    (hl : ∀ a ∈ as, ∃ k, (a, k) ∈ l) :
    Ends (reconnect p) c fun _ c' => ∃ less' more',
      View c' l less' more' p least ∧ Threaded less' more' p least (p :: as) := by
  have hmost : ∃ k, (most, k) ∈ l := by
    obtain ⟨a, rest, rfl⟩ := List.exists_cons_of_ne_nil hne
    obtain rfl := ht.head_eq a rfl
    exact hl most List.mem_cons_self
  obtain ⟨km, hm⟩ := hmost
  refine Ends.step c c rfl ?_
  rw [h.most]
  refine Ends.bind (h.setLessRu hp most) ?_
  intro _ c₁ h₁
  refine Ends.step c₁ c₁ rfl ?_
  rw [h₁.most]
  refine Ends.bind (h₁.setMoreRu hm p) ?_
  intro _ c₂ h₂
  exact Ends.ok rfl ⟨_, _, ⟨h₂.mem, h₂.size, h₂.less, h₂.more, rfl, h₂.least⟩, ht.push hne hpas⟩

/-- `make_most_ru` moves the record to the front. -/
theorem makeMostRu_spec (h : Rep c (s ++ (p, k) :: t)) :
    Ends (makeMostRu p) c fun _ c' => Rep c' ((p, k) :: (s ++ t)) := by
  have ht := h.threaded
  have haddr : ∀ a ∈ (s ++ (p, k) :: t).map Prod.fst, ∃ k', (a, k') ∈ s ++ (p, k) :: t := by
    intro a ha
    obtain ⟨⟨a, k'⟩, hmem, rfl⟩ := List.mem_map.mp ha
    exact ⟨k', hmem⟩
  refine Ends.step c c rfl ?_
  rw [List.map_append, List.map_cons] at ht haddr
  rcases List.eq_nil_or_concat' s with rfl | ⟨s, ⟨q, kq⟩, rfl⟩
  · -- it is the first one already
    rw [if_pos (ht.head_eq p rfl).symm]
    exact Ends.ok rfl h
  rw [List.map_append, List.append_assoc] at ht haddr
  have hpm : p ∉ s.map Prod.fst ++ q :: t.map Prod.fst := by
    have hnodup := List.nodup_middle.mp (List.append_assoc _ [q] _ ▸ ht.nodup)
    simpa using (List.nodup_cons.mp hnodup).1
  have hne : p ≠ c.mostRu := by
    rintro rfl
    rcases s with _ | ⟨⟨a, ka⟩, s⟩
    · exact hpm (by simp [ht.head_eq q rfl])
    · exact hpm (by simp [ht.head_eq a rfl])
  rw [if_neg hne]
  refine Ends.bind (disconnect_spec h.view ht haddr) ?_
  rintro _ c₁ ⟨less₁, more₁, least₁, h₁, ht₁⟩
  refine (reconnect_spec h₁ ht₁ (by simp) (k := k) (by simp) hpm ?_).mono ?_
  · intro a ha
    refine haddr a ?_
    simp only [List.mem_append, List.mem_cons, List.map_cons, List.map_nil, List.not_mem_nil,
      or_false] at ha ⊢
    tauto
  · rintro _ c₂ ⟨less₂, more₂, h₂, ht₂⟩
    refine (h₂.perm (List.perm_middle)).rep ?_
    simpa using ht₂

/-! ## The stretches of code that hold the mutex -/

/-- Split the list at an element of the map. -/
theorem Rep.split (h : Rep c l) (hindex : c.theMap.index k = some p) : ∃ s t, l = s ++ (p, k) :: t :=
  List.append_of_mem ((h.mem p k).mpr ((c.theMap.index_eq_some k p).mp hindex))

theorem hit_spec (h : Rep c (s ++ (p, k) :: t)) :
    Ends (hit p) c fun _ c' => Rep c' ((p, k) :: (s ++ t)) := by
  refine Ends.bind (makeMostRu_spec h) ?_
  intro _ c₁ h₁
  obtain ⟨r, hr, -, -⟩ := h₁.view.deref List.mem_cons_self
  exact Ends.step r c₁ hr (Ends.pure h₁)

/-- Add an element; its links do not matter yet. -/
theorem Rep.insert (h : Rep c l) {args : GaiArgs} (hindex : c.theMap.index args = none)
    (hnode : c.theMap.node a = none) (air : AddrinfoResult) : ∃ less more,
    View { c with theMap := c.theMap.insert a args (.new air), size := c.size + 1 } ((a, args) :: l)
      less more c.mostRu c.leastRu ∧ Threaded less more c.mostRu c.leastRu (l.map Prod.fst) := by
  have hins : (c.theMap.insert a args (.new air)).node
      = Function.update c.theMap.node a (some (args, .new air)) := by
    rw [NodeMap.insert, dif_pos ⟨hindex, hnode⟩]
  have hfresh : ∀ b ∈ l.map Prod.fst, b ≠ a := by
    rintro b hb rfl
    obtain ⟨⟨b, k⟩, hmem, rfl⟩ := List.mem_map.mp hb
    obtain ⟨r, hr⟩ := (h.mem b k).mp hmem
    rw [hnode] at hr
    simp at hr
  refine ⟨_, _, ⟨?_, ?_, rfl, rfl, rfl, rfl⟩, ?_, h.threaded.nodup, h.threaded.head_eq, h.threaded.last_eq⟩
  · intro b k
    dsimp only
    rw [hins, List.mem_cons, h.mem, Function.update_apply]
    split
    · next heq =>
      subst heq
      simp [hnode, eq_comm]
    · next hne => simp [hne]
  · rw [List.length_cons, h.size]
  · refine h.threaded.linked.congr ?_ ?_
    · intro b hb
      rw [lessOf, lessOf]
      dsimp only
      rw [hins, Function.update_of_ne (hfresh b ((List.dropLast_sublist _).subset hb))]
    · intro b hb
      rw [moreOf, moreOf]
      dsimp only
      rw [hins, Function.update_of_ne (hfresh b (List.mem_of_mem_tail hb))]

/-- A new element goes to the front. -/
theorem store_new_spec (h : Rep c l) {args : GaiArgs} (hindex : c.theMap.index args = none)
    (hnode : c.theMap.node a = none) (newvalue : AddrinfoResult) :
    Ends (store a args newvalue) c fun _ c' => Rep c' ((a, args) :: l) := by
  obtain ⟨less, more, hview, ht⟩ := h.insert hindex hnode newvalue
  refine Ends.step (a, true) _ (by rw [insertRecord, hindex]) ?_
  refine Ends.ite (fun htrue => absurd htrue (by simp)) fun _ => ?_
  have hafresh : a ∉ l.map Prod.fst := by
    intro hmem
    obtain ⟨⟨b, k⟩, hbk, rfl⟩ := List.mem_map.mp hmem
    obtain ⟨r, hr⟩ := (h.mem b k).mp hbk
    rw [hnode] at hr
    simp at hr
  refine Ends.bind (P := fun _ (c' : AddrinfoCache) => ∃ less' more' least',
    View c' ((a, args) :: l) less' more' c.mostRu least' ∧
      Threaded less' more' a least' (a :: l.map Prod.fst)) ?_ ?_
  · refine Ends.step _ _ rfl (Ends.ite ?_ ?_)
    · intro hsize
      have hnil : l = [] := by
        have := hview.size
        rw [hsize, List.length_cons] at this
        exact List.length_eq_zero_iff.mp (by omega)
      subst hnil
      exact Ends.ok rfl ⟨less, more, a,
        ⟨hview.mem, hview.size, hview.less, hview.more, hview.most, rfl⟩, Threaded.single less more a⟩
    · intro hsize
      have hne : l.map Prod.fst ≠ [] := by
        intro hnil
        rw [List.map_eq_nil_iff] at hnil
        subst hnil
        exact hsize hview.size
      have hmost : ∃ k, (c.mostRu, k) ∈ (a, args) :: l := by
        rcases l with _ | ⟨⟨b, k⟩, l⟩
        · exact absurd rfl hne
        · exact ⟨k, by rw [ht.head_eq b rfl]; simp⟩
      obtain ⟨km, hm⟩ := hmost
      refine Ends.step _ _ rfl (Ends.bind (hview.setMoreRu hm a) ?_)
      intro _ c₁ h₁
      refine Ends.step c₁ c₁ rfl ?_
      rw [h₁.most]
      refine (h₁.setLessRu List.mem_cons_self c.mostRu).mono ?_
      intro _ c₂ h₂
      exact ⟨_, _, _, h₂, ht.push hne hafresh⟩
  · rintro _ c₁ ⟨less', more', least', h₁, ht₁⟩
    have h₂ : View { c₁ with mostRu := a } ((a, args) :: l) less' more' a least' :=
      ⟨h₁.mem, h₁.size, h₁.less, h₁.more, rfl, h₁.least⟩
    exact Ends.ok rfl (h₂.rep ht₁)

/-- Another thread has added the element already: it is moved to the front. -/
theorem store_present_spec (h : Rep c (s ++ (p, k) :: t)) (hindex : c.theMap.index k = some p)
    (newvalue : AddrinfoResult) :
    Ends (store a k newvalue) c fun _ c' => Rep c' ((p, k) :: (s ++ t)) := by
  refine Ends.step (p, false) c (by rw [insertRecord, hindex]) ?_
  refine Ends.ite (fun _ => ?_) fun hfalse => absurd rfl hfalse
  refine Ends.bind (h.view.setAir (List.mem_append_right s List.mem_cons_self) newvalue) ?_
  intro _ c₁ h₁
  exact hit_spec (h₁.rep h.threaded)

/-- One turn of the first loop drops the last element of the list. -/
theorem evictLeast_spec (h : Rep c (l ++ [(p, k)])) : Ends evictLeast c fun _ c' => Rep c' l := by
  have ht := h.threaded
  rw [List.map_append, List.map_singleton] at ht
  have hleast : c.leastRu = p := ht.last_eq p (by simp)
  obtain ⟨r, hr⟩ := (h.mem p k).mp (by simp)
  obtain ⟨r', hderef, -, hmore⟩ := h.view.deref (p := p) (k := k) (by simp)
  refine Ends.step c c rfl ?_
  rw [hleast]
  refine Ends.step r' c hderef ?_
  refine Ends.step () { c with theMap := c.theMap.erase p, size := c.size - 1 }
    (by simp only [eraseRecord, hr]) ?_
  refine Ends.ok rfl ?_
  have hpl : p ∉ l.map Prod.fst := by
    have hnodup := ht.nodup
    rw [List.nodup_append] at hnodup
    exact fun hmem => hnodup.2.2 p hmem p (List.mem_singleton_self p) rfl
  have hother : ∀ b ∈ l.map Prod.fst, Function.update c.theMap.node p none b = c.theMap.node b := by
    intro b hb
    refine Function.update_of_ne ?_ _ _
    rintro rfl
    exact hpl hb
  have hrest : Threaded c.lessOf c.moreOf c.mostRu r'.moreRu (l.map Prod.fst) := by
    rcases List.eq_nil_or_concat' l with rfl | ⟨l, ⟨q, kq⟩, rfl⟩
    · exact ⟨List.isChain_nil, List.nodup_nil, fun a h => by simp at h, fun a h => by simp at h⟩
    · rw [List.map_append, List.append_assoc] at ht
      obtain ⟨-, hprev, hrest⟩ := ht.dropLast
      rw [hmore, Option.some.injEq] at hprev
      rw [List.map_append, hprev]
      exact hrest
  refine ⟨?_, ?_, ?_, hrest.nodup, hrest.head_eq, hrest.last_eq⟩
  · intro b k'
    dsimp only [NodeMap.erase]
    rw [Function.update_apply]
    split
    · next heq =>
      subst heq
      simpa using fun hmem => hpl (List.mem_map_of_mem (f := Prod.fst) hmem)
    · next hne =>
      rw [← h.mem]
      simp [hne]
  · dsimp only
    rw [h.size]
    simp
  · refine hrest.linked.congr ?_ ?_
    · intro b hb
      rw [lessOf, lessOf]
      exact congrArg _ (hother b ((List.dropLast_sublist _).subset hb))
    · intro b hb
      rw [moreOf, moreOf]
      exact congrArg _ (hother b (List.mem_of_mem_tail hb))

theorem evictLoop_spec (maxSize : ℕ) {fuel : ℕ} (hfuel : l.length ≤ fuel) (h : Rep c l) :
    Ends (evictLoop maxSize fuel) c fun _ c' => Rep c' (l.take maxSize) := by
  induction fuel generalizing c l with
  | zero =>
    obtain rfl := List.length_eq_zero_iff.mp (Nat.le_zero.mp hfuel)
    exact Ends.pure (by rwa [List.take_nil])
  | succ fuel ih =>
    refine Ends.step c c rfl (Ends.ite ?_ ?_)
    · intro hsize
      rw [h.size] at hsize
      rcases List.eq_nil_or_concat' l with rfl | ⟨l, ⟨p, k⟩, rfl⟩
      · simp at hsize
      rw [List.length_append, List.length_singleton] at hsize hfuel
      refine Ends.bind (evictLeast_spec h) ?_
      intro _ c₁ h₁
      rw [List.take_append_of_le_length (by omega)]
      exact ih (by omega) h₁
    · intro hsize
      rw [h.size] at hsize
      rw [List.take_of_length_le (by omega)]
      exact Ends.pure h

/-- The first loop of `refresh` leaves the most recently used elements. -/
theorem evict_spec (maxSize : ℕ) (h : Rep c l) :
    Ends (evict maxSize) c fun _ c' => Rep c' (l.take maxSize) :=
  Ends.step c c rfl (evictLoop_spec maxSize h.size.ge h)

theorem refreshRecord_spec (h : Rep c l) (hp : (p, k) ∈ l) (newvalue : AddrinfoResult) :
    Ends (refreshRecord p newvalue) c fun _ c' => Rep c' l := by
  refine Ends.ite (fun _ => ?_) fun _ => Ends.pure h
  refine (h.view.setAir hp newvalue).mono ?_
  intro _ c' h'
  exact h'.rep h.threaded

end Fs123.AddrinfoCache
