import Mathlib.Data.List.Nodup
import Mathlib.Data.List.Sort
import Mathlib.Logic.Function.Basic
import Mathlib.Order.Basic

/-!
# Ordered containers with stable nodes

`std::map` and `std::multiset` keep each element in a node that stays at its address until it is erased, so
an iterator is the address of a node. `NodeMap` is a map with at most one node for a key. `NodeQueue` is a
multiset ordered by a key, where an element goes behind those with the same key.
-/

namespace Cxx

/-- The address of a node. -/
abbrev Addr := ℕ

/-! ## `std::map` -/

/-- A map: the node of each key, and the key and value in each node. -/
structure NodeMap (K V : Type*) where
  index : K → Option Addr
  node : Addr → Option (K × V)
  index_eq_some : ∀ k a, index k = some a ↔ ∃ v, node a = some (k, v)

namespace NodeMap

variable {K V : Type*}

/-- The map without elements. -/
def empty : NodeMap K V where
  index _ := none
  node _ := none
  index_eq_some := by simp

theorem index_of_node (m : NodeMap K V) {a : Addr} {k : K} {v : V} (h : m.node a = some (k, v)) :
    m.index k = some a :=
  (m.index_eq_some k a).mpr ⟨v, h⟩

/-- Write a new value to the node at `a`. -/
def set (m : NodeMap K V) (a : Addr) (v : V) : NodeMap K V where
  index := m.index
  node := Function.update m.node a ((m.node a).map fun p => (p.1, v))
  index_eq_some k b := by
    rw [m.index_eq_some]
    by_cases hb : b = a
    · subst hb
      rcases m.node b with _ | ⟨k', v'⟩ <;> simp
    · simp [Function.update_of_ne hb]

variable [DecidableEq K]

/-- Add a node at `a`; nothing is added when the key or the address is in use. -/
def insert (m : NodeMap K V) (a : Addr) (k : K) (v : V) : NodeMap K V :=
  if h : m.index k = none ∧ m.node a = none then
    { index := Function.update m.index k (some a)
      node := Function.update m.node a (some (k, v))
      index_eq_some := by
        intro k' b
        have hk := m.index_eq_some k b
        have hb := m.index_eq_some k' b
        by_cases hkk : k' = k <;> by_cases hba : b = a
        · subst hkk hba
          simp
        · subst hkk
          rw [h.1] at hk
          simpa [Function.update_of_ne hba, Ne.symm hba] using hk
        · subst hba
          rw [h.2] at hb
          simpa [Function.update_of_ne hkk, Ne.symm hkk] using hb
        · simpa [Function.update_of_ne hkk, Function.update_of_ne hba] using hb }
  else m

/-- Erase the node at `a`. -/
def erase (m : NodeMap K V) (a : Addr) : NodeMap K V where
  index k := if m.index k = some a then none else m.index k
  node := Function.update m.node a none
  index_eq_some k b := by
    have hb := m.index_eq_some k b
    by_cases hba : b = a
    · subst hba
      by_cases hk : m.index k = some b <;> simp [hk]
    · by_cases hk : m.index k = some a
      · have : ¬ ∃ v, m.node b = some (k, v) := by
          rw [← hb, hk]
          simpa using Ne.symm hba
        simpa [hk, Function.update_of_ne hba] using this
      · simpa [hk, Function.update_of_ne hba] using hb

end NodeMap

/-! ## `std::multiset` -/

/-- A node of a multiset: its address, the key that orders it and what it carries. -/
structure QNode (T M : Type*) where
  addr : Addr
  key : T
  val : M
  deriving Repr, DecidableEq

/-- A multiset: its nodes in order. -/
structure NodeQueue (T M : Type*) [LinearOrder T] where
  nodes : List (QNode T M)
  sorted : nodes.Pairwise fun p q => p.key ≤ q.key
  nodup : (nodes.map fun p => p.addr).Nodup

namespace NodeQueue

variable {T M : Type*} [LinearOrder T]

instance : Membership (QNode T M) (NodeQueue T M) := ⟨fun q p => p ∈ q.nodes⟩

/-- The multiset without elements. -/
def empty : NodeQueue T M := ⟨[], .nil, List.nodup_nil⟩

/-- What an iterator points to. -/
def deref (q : NodeQueue T M) (a : Addr) : Option (QNode T M) := q.nodes.find? fun p => p.addr = a

/-- Erase the node at `a`. -/
def erase (q : NodeQueue T M) (a : Addr) : NodeQueue T M where
  nodes := q.nodes.filter fun p => p.addr ≠ a
  sorted := q.sorted.filter _
  nodup := q.nodup.sublist (List.filter_sublist.map _)

/-- Insert a node at the upper bound of its key. -/
def insertNode (p : QNode T M) : List (QNode T M) → List (QNode T M)
  | [] => [p]
  | r :: rs => if p.key < r.key then p :: r :: rs else r :: insertNode p rs

theorem insertNode_perm (p : QNode T M) (l : List (QNode T M)) : (insertNode p l).Perm (p :: l) := by
  induction l with
  | nil => exact List.Perm.refl _
  | cons r rs ih =>
    simp only [insertNode]
    split
    · exact List.Perm.refl _
    · exact (ih.cons r).trans (List.Perm.swap p r rs)

theorem insertNode_sorted (p : QNode T M) {l : List (QNode T M)}
    (h : l.Pairwise fun p q => p.key ≤ q.key) :
    (insertNode p l).Pairwise fun p q => p.key ≤ q.key := by
  induction l with
  | nil => simp [insertNode]
  | cons r rs ih =>
    obtain ⟨hr, hrs⟩ := List.pairwise_cons.mp h
    simp only [insertNode]
    split
    · next hlt =>
      refine List.pairwise_cons.mpr ⟨?_, h⟩
      intro q hq
      rcases List.mem_cons.mp hq with rfl | hq
      · exact hlt.le
      · exact hlt.le.trans (hr q hq)
    · next hge =>
      refine List.pairwise_cons.mpr ⟨?_, ih hrs⟩
      intro q hq
      rcases List.mem_cons.mp ((insertNode_perm p rs).mem_iff.mp hq) with rfl | hq
      · exact not_lt.mp hge
      · exact hr q hq

/-- Add a node at `a`; nothing is added when the address is in use. -/
def emplace (q : NodeQueue T M) (a : Addr) (key : T) (val : M) : NodeQueue T M :=
  if h : a ∉ q.nodes.map fun p => p.addr then
    { nodes := insertNode ⟨a, key, val⟩ q.nodes
      sorted := insertNode_sorted _ q.sorted
      nodup := by
        rw [((insertNode_perm ⟨a, key, val⟩ q.nodes).map _).nodup_iff]
        exact List.nodup_cons.mpr ⟨h, q.nodup⟩ }
  else q

/-- No node is at `a`. -/
def Free (q : NodeQueue T M) (a : Addr) : Prop := ∀ p ∈ q, p.addr ≠ a

instance (q : NodeQueue T M) (a : Addr) : Decidable (q.Free a) :=
  inferInstanceAs (Decidable (∀ p ∈ q.nodes, p.addr ≠ a))

theorem mem_erase {q : NodeQueue T M} {a : Addr} {p : QNode T M} :
    p ∈ q.erase a ↔ p ∈ q ∧ p.addr ≠ a := by
  change p ∈ (q.nodes.filter fun p => p.addr ≠ a) ↔ p ∈ q.nodes ∧ p.addr ≠ a
  simp

theorem mem_emplace {q : NodeQueue T M} {a : Addr} {key : T} {val : M} {p : QNode T M}
    (h : q.Free a) : p ∈ q.emplace a key val ↔ p = ⟨a, key, val⟩ ∨ p ∈ q := by
  have ha : a ∉ q.nodes.map fun p => p.addr := by
    rw [List.mem_map]
    rintro ⟨p, hp, rfl⟩
    exact h p hp rfl
  change p ∈ (q.emplace a key val).nodes ↔ p = ⟨a, key, val⟩ ∨ p ∈ q.nodes
  rw [emplace, dif_pos ha, (insertNode_perm _ _).mem_iff, List.mem_cons]

/-- Nodes are told apart by their addresses. -/
theorem eq_of_addr {q : NodeQueue T M} {p r : QNode T M} (hp : p ∈ q) (hr : r ∈ q)
    (h : p.addr = r.addr) : p = r :=
  List.inj_on_of_nodup_map q.nodup hp hr h

theorem deref_eq_some {q : NodeQueue T M} {p : QNode T M} (h : p ∈ q) : q.deref p.addr = some p := by
  cases hd : q.deref p.addr with
  | none =>
    have := List.find?_eq_none.mp hd p h
    simp at this
  | some r =>
    have haddr : r.addr = p.addr := by simpa using List.find?_some hd
    rw [eq_of_addr (List.mem_of_find?_eq_some hd) h haddr]

theorem Free.erase {q : NodeQueue T M} {a b : Addr} (h : q.Free a) : (q.erase b).Free a :=
  fun p hp => h p (mem_erase.mp hp).1

end NodeQueue

end Cxx
