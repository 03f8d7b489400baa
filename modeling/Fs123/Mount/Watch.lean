import Fs123.Common.Ends
import Fs123.Mount.OpenFileMap

/-!
# What the open-file map stands for

A table of the open inodes: where the record of an inode is, how many references it has, and when it is due
to be scanned. `Rep g T` says that the two containers represent the table `T`. Each function of the map
changes one record and the entry that belongs to it; `Focus` describes the containers while that goes on, and
the `_spec` theorems say what the function does to the table.
-/

namespace Fs123

open Cxx Locked

/-- An open inode: its record, its references, and when it is due. -/
structure Watch where
  addr : Addr
  refs : ℤ
  due : Option TimePoint
  deriving Repr, DecidableEq

/-- The open inodes. -/
abbrev Table := Ino → Option Watch

/-- The record of an open inode, with its iterator into the queue. -/
def Watch.record (w : Watch) (qiter : Addr) : Mrecord := ⟨w.refs, qiter, w.due.isSome, w.addr⟩

/-- The entry of an open inode in the queue. -/
def Watch.entry (w : Watch) (qiter : Addr) : Option (QNode TimePoint Addr) :=
  w.due.map fun t => ⟨qiter, t, w.addr⟩

/-- The containers hold this record, and of the entries that point back to it the one it has. -/
def Stored (g : OpenFiles) (ino : Ino) (w : Watch) (qiter : Addr) : Prop :=
  g.ofmap.node w.addr = some (ino, w.record qiter) ∧
    ∀ p, p ∈ g.ofpq ∧ p.val = w.addr ↔ w.entry qiter = some p

/-- The containers represent the table. -/
structure Rep (g : OpenFiles) (T : Table) : Prop where
  index : ∀ ino, g.ofmap.index ino = (T ino).map fun w => w.addr
  addr_ne : ∀ ino w, T ino = some w → w.addr ≠ 0
  stored : ∀ ino w, T ino = some w → ∃ q, Stored g ino w q
  owner : ∀ p ∈ g.ofpq, ∃ ino w, T ino = some w ∧ w.addr = p.val

theorem Rep.empty : Rep ⟨.empty, .empty⟩ fun _ => none where
  index _ := rfl
  addr_ne _ _ h := by simp at h
  stored _ _ h := by simp at h
  owner p h := absurd h (List.not_mem_nil (a := p))

/-- Two inodes do not share a record. -/
theorem Rep.addr_inj {g : OpenFiles} {T : Table} (h : Rep g T) {ino ino' : Ino} {w w' : Watch}
    (hw : T ino = some w) (hw' : T ino' = some w') (ha : w.addr = w'.addr) : ino = ino' := by
  obtain ⟨q, hq, -⟩ := h.stored ino w hw
  obtain ⟨q', hq', -⟩ := h.stored ino' w' hw'
  rw [ha, hq', Option.some.injEq, Prod.mk.injEq] at hq
  exact hq.1.symm

/-! ## One record in focus -/

/-- `g` is `g₀` but for the record in the node at `a`, which is now `mr` and belongs to `ino`, and for the
entries that point back to it, of which there is now `e`. -/
structure Focus (g₀ g : OpenFiles) (ino : Ino) (a : Addr) (mr : Option Mrecord)
    (e : Option (QNode TimePoint Addr)) : Prop where
  node : g.ofmap.node a = mr.map fun r => (ino, r)
  node_ne : ∀ b, b ≠ a → g.ofmap.node b = g₀.ofmap.node b
  mem : ∀ p, p ∈ g.ofpq ↔ p ∈ g₀.ofpq ∧ p.val ≠ a ∨ e = some p
  entry : ∀ p, e = some p → p.val = a

section Focus

variable {g₀ g : OpenFiles} {ino : Ino} {a : Addr} {mr : Option Mrecord} {r : Mrecord}
  {e : Option (QNode TimePoint Addr)} {p : QNode TimePoint Addr}

theorem Focus.derefRecord (h : Focus g₀ g ino a (some r) e) : derefRecord a g = .ok (ino, r) g := by
  simp only [Locked.derefRecord, h.node, Option.map_some]

theorem Focus.setRecord (h : Focus g₀ g ino a (some r) e) (r' : Mrecord) :
    Ends (setRecord a r') g fun _ g' => Focus g₀ g' ino a (some r') e := by
  refine ⟨(), { g with ofmap := g.ofmap.set a r' }, ?_, ?_⟩
  · simp only [Locked.setRecord, h.node, Option.map_some]
  · refine ⟨?_, ?_, h.mem, h.entry⟩
    · simp [NodeMap.set, h.node]
    · intro b hb
      simpa [NodeMap.set, Function.update_of_ne hb] using h.node_ne b hb

theorem Focus.eraseRecord (h : Focus g₀ g ino a (some r) e) :
    Ends (eraseRecord a) g fun _ g' => Focus g₀ g' ino a none e := by
  refine ⟨(), { g with ofmap := g.ofmap.erase a }, ?_, ?_⟩
  · simp only [Locked.eraseRecord, h.node, Option.map_some]
  · refine ⟨?_, ?_, h.mem, h.entry⟩
    · simp [NodeMap.erase]
    · intro b hb
      simpa [NodeMap.erase, Function.update_of_ne hb] using h.node_ne b hb

theorem Focus.derefEntry (h : Focus g₀ g ino a mr (some p)) : derefEntry p.addr g = .ok p g := by
  have hp : p ∈ g.ofpq := (h.mem p).mpr (.inr rfl)
  simp only [Locked.derefEntry, NodeQueue.deref_eq_some hp]

theorem Focus.eraseEntry (h : Focus g₀ g ino a mr (some p)) :
    Ends (eraseEntry p.addr) g fun _ g' => Focus g₀ g' ino a mr none := by
  have hp : p ∈ g.ofpq := (h.mem p).mpr (.inr rfl)
  refine ⟨(), { g with ofpq := g.ofpq.erase p.addr }, ?_, ?_⟩
  · simp only [Locked.eraseEntry, NodeQueue.deref_eq_some hp]
  · refine ⟨h.node, h.node_ne, ?_, by simp⟩
    intro q
    rw [NodeQueue.mem_erase, h.mem q]
    constructor
    · rintro ⟨hq | hq, hne⟩
      · exact .inl hq
      · exact absurd (congrArg QNode.addr (Option.some.inj hq)).symm hne
    · rintro (hq | hq)
      · refine ⟨.inl hq, ?_⟩
        intro heq
        have : q = p := NodeQueue.eq_of_addr ((h.mem q).mpr (.inl hq)) hp heq
        exact hq.2 (this ▸ h.entry p rfl)
      · simp at hq

theorem Focus.emplaceEntry (h : Focus g₀ g ino a mr none) {b : Addr} (t : TimePoint)
    (hfree : ∀ p ∈ g₀.ofpq, p.addr = b → p.val = a) :
    Ends (emplaceEntry b t a) g fun q g' => q = b ∧ Focus g₀ g' ino a mr (some ⟨b, t, a⟩) := by
  have hb : g.ofpq.Free b := by
    intro p hp heq
    rcases (h.mem p).mp hp with hp | hp
    · exact hp.2 (hfree p hp.1 heq)
    · simp at hp
  refine ⟨b, { g with ofpq := g.ofpq.emplace b t a }, rfl, rfl, h.node, h.node_ne, ?_, ?_⟩
  · intro p
    rw [NodeQueue.mem_emplace hb, h.mem p, or_comm]
    simp only [Option.some.injEq, reduceCtorEq, or_false, @eq_comm _ p]
  · rintro _ ⟨⟩
    rfl

end Focus

/-- The containers in focus represent the table in which the inode has changed to `w'`. -/
theorem Rep.focus {g₀ g : OpenFiles} {T : Table} {ino : Ino} {a q : Addr} {w' : Option Watch}
    (h : Rep g₀ T) (hold : ∀ w, T ino = some w → w.addr = a)
    (hfresh : T ino = none → g₀.ofmap.node a = none) (ha : a ≠ 0)
    (hnew : ∀ w, w' = some w → w.addr = a)
    (hf : Focus g₀ g ino a (w'.map fun w => w.record q) (w'.bind fun w => w.entry q)) :
    Rep g (Function.update T ino w') := by
  -- The record in focus is not that of another inode.
  have hother : ∀ k w, k ≠ ino → T k = some w → w.addr ≠ a := by
    intro k w hk hw haddr
    cases hT : T ino with
    | none =>
      obtain ⟨q', hq', -⟩ := h.stored k w hw
      rw [haddr, hfresh hT] at hq'
      simp at hq'
    | some v => exact hk (h.addr_inj hw hT (haddr.trans (hold v hT).symm))
  have hindex : ∀ b, b ≠ a → ∀ k, g.ofmap.index k = some b ↔ (T k).map (fun w => w.addr) = some b := by
    intro b hb k
    rw [g.ofmap.index_eq_some, hf.node_ne b hb, ← g₀.ofmap.index_eq_some, h.index]
  refine ⟨?_, ?_, ?_, ?_⟩
  · intro k
    ext b
    by_cases hb : b = a
    · subst hb
      rw [g.ofmap.index_eq_some, hf.node]
      by_cases hk : k = ino
      · subst hk
        rw [Function.update_self]
        cases w' with
        | none => simp
        | some w => simpa using hnew w rfl
      · rw [Function.update_of_ne hk]
        constructor
        · rintro ⟨v, hv⟩
          simp only [Option.map_map, Option.map_eq_some_iff, Function.comp_apply, Prod.mk.injEq] at hv
          obtain ⟨_, _, hk', _⟩ := hv
          exact absurd hk'.symm hk
        · intro hw
          obtain ⟨w, hw, haddr⟩ := Option.map_eq_some_iff.mp hw
          exact absurd haddr (hother k w hk hw)
    · rw [hindex b hb]
      by_cases hk : k = ino
      · subst hk
        rw [Function.update_self]
        constructor
        · intro hw
          obtain ⟨w, hw, haddr⟩ := Option.map_eq_some_iff.mp hw
          exact absurd (haddr.symm.trans (hold w hw)) hb
        · intro hw
          obtain ⟨w, hw, haddr⟩ := Option.map_eq_some_iff.mp hw
          exact absurd (haddr.symm.trans (hnew w hw)) hb
      · rw [Function.update_of_ne hk]
  · intro k w hw
    by_cases hk : k = ino
    · subst hk
      rw [Function.update_self] at hw
      exact hnew w hw ▸ ha
    · rw [Function.update_of_ne hk] at hw
      exact h.addr_ne k w hw
  · intro k w hw
    by_cases hk : k = ino
    · subst hk
      rw [Function.update_self] at hw
      subst hw
      refine ⟨q, ?_, ?_⟩
      · rw [hnew w rfl, hf.node, Option.map_some, Option.map_some]
      · intro p
        rw [hnew w rfl, hf.mem p]
        constructor
        · rintro ⟨hp | hp, hpa⟩
          · exact absurd hpa hp.2
          · exact hp
        · intro hp
          exact ⟨.inr hp, hf.entry p hp⟩
    · rw [Function.update_of_ne hk] at hw
      obtain ⟨q', hnode, hentry⟩ := h.stored k w hw
      have hne := hother k w hk hw
      refine ⟨q', (hf.node_ne _ hne).trans hnode, ?_⟩
      intro p
      rw [← hentry p, hf.mem p]
      constructor
      · rintro ⟨hp | hp, hpa⟩
        · exact ⟨hp.1, hpa⟩
        · exact absurd (hpa.symm.trans (hf.entry p hp)) hne
      · rintro ⟨hp, hpa⟩
        exact ⟨.inl ⟨hp, hpa ▸ hne⟩, hpa⟩
  · intro p hp
    rcases (hf.mem p).mp hp with ⟨hp, hpa⟩ | hp
    · obtain ⟨k, w, hw, haddr⟩ := h.owner p hp
      have hk : k ≠ ino := by
        rintro rfl
        exact hpa (haddr.symm.trans (hold w hw))
      exact ⟨k, w, by rwa [Function.update_of_ne hk], haddr⟩
    · obtain ⟨w, hw, -⟩ := Option.bind_eq_some_iff.mp hp
      exact ⟨ino, w, by rw [Function.update_self, hw], (hnew w hw).trans (hf.entry p hp).symm⟩

/-- The focus on the record of an open inode, before anything has changed. -/
theorem Rep.focused {g : OpenFiles} {T : Table} {ino : Ino} {w : Watch} (h : Rep g T)
    (hw : T ino = some w) :
    ∃ q, Focus g g ino w.addr (some (w.record q)) (w.entry q) := by
  obtain ⟨q, hnode, hentry⟩ := h.stored ino w hw
  refine ⟨q, hnode, fun _ _ => rfl, ?_, fun p hp => ((hentry p).mpr hp).2⟩
  intro p
  rw [← hentry p]
  by_cases hp : p.val = w.addr <;> simp [hp]

/-- What holds of a focus on the record of an open inode, when the inode has changed to `w'`. -/
theorem Rep.refocus {g₀ g : OpenFiles} {T : Table} {ino : Ino} {w : Watch} {q : Addr} {w' : Option Watch}
    (h : Rep g₀ T) (hw : T ino = some w) (hnew : ∀ v, w' = some v → v.addr = w.addr)
    (hf : Focus g₀ g ino w.addr (w'.map fun w => w.record q) (w'.bind fun w => w.entry q)) :
    Rep g (Function.update T ino w') := by
  apply h.focus _ _ (h.addr_ne ino w hw) hnew hf
  · intro v hv
    rw [Option.some.inj (hw.symm.trans hv)]
  · intro hnone
    simp [hw] at hnone

end Fs123
