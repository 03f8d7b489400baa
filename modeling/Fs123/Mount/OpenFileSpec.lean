import Fs123.Mount.Watch

/-!
# The functions of the open-file map, on the table

One specification for each function: it ends normally, and the containers represent the table that the
change of one open inode leads to.
-/

namespace Fs123

open Cxx Locked

/-! ## The changes -/

/-- One reference less; the inode is not open any more without a reference. -/
def Watch.drop (w : Watch) : Option Watch :=
  if w.refs - 1 = 0 then none else some { w with refs := w.refs - 1 }

/-- `openfile_expire_now`: an inode that has an entry is due at once. -/
def Watch.expire (w : Watch) : Watch := { w with due := w.due.map fun _ => TimePoint.min }

/-- `openfile_register`: one reference more, and due at the `goodTill` of the reply. -/
def Watch.register (w : Watch) (r : Begetattr) (env : RegisterEnv) : Watch :=
  let t := w.due.getD (r.expires env.now)
  { w with refs := w.refs + 1, due := some (if t ≠ r.goodTill then r.expires env.now' else t) }

/-- `scan` takes the inode from the queue and holds a reference. -/
def Watch.pop (w : Watch) : Watch := { w with refs := w.refs + 1, due := none }

/-- `scan` drops its reference and puts the inode back, unless the reply is an error. -/
def Watch.reinsert (w : Watch) (r : Begetattr) (now : TimePoint) : Option Watch :=
  w.drop.map fun v => if r.eno ≠ 0 then v else { v with due := some (r.expires now) }

theorem Watch.drop_eq_some {w v : Watch} :
    w.drop = some v ↔ w.refs - 1 ≠ 0 ∧ { w with refs := w.refs - 1 } = v := by
  by_cases h : w.refs - 1 = 0 <;> simp [Watch.drop, h]

theorem Watch.reinsert_addr {w v : Watch} {r : Begetattr} {now : TimePoint}
    (h : w.reinsert r now = some v) : v.addr = w.addr := by
  obtain ⟨u, hu, rfl⟩ := Option.map_eq_some_iff.mp h
  obtain ⟨-, rfl⟩ := Watch.drop_eq_some.mp hu
  split <;> rfl

/-! ## References and entries -/

section Focus

variable {g₀ g : OpenFiles} {ino : Ino} {w : Watch} {q : Addr}

/-- The check that the handle points back to its record passes. -/
theorem Focus.check (h : Focus g₀ g ino w.addr (some (w.record q)) (w.entry q)) {msg : Bytes}
    {k : Locked Unit} {Q : Unit → OpenFiles → Prop} (hk : Ends k g Q) :
    Ends (do
      let (ino', _) ← Locked.derefRecord (w.record q).miter
      if ino ≠ ino' ∨ w.addr ≠ (w.record q).miter then
        throwEio msg
      k) g Q := by
  apply Ends.step _ _ h.derefRecord
  apply Ends.ite
  · intro hne
    simp [Watch.record] at hne
  · intro _
    exact hk

theorem decrefcnt_focus (h : Focus g₀ g ino w.addr (some (w.record q)) (w.entry q)) :
    Ends (decrefcnt w.addr) g fun n g' => n = w.refs - 1 ∧
      Focus g₀ g' ino w.addr (w.drop.map fun w => w.record q) (w.drop.bind fun w => w.entry q) := by
  unfold decrefcnt
  apply Ends.step _ _ h.derefRecord
  apply Ends.bind (h.setRecord _)
  rintro _ g₁ h₁
  apply Ends.ite
  · intro hlast
    have hdrop : w.drop = none := if_pos hlast
    rw [hdrop]
    -- The entry goes first, and then the record.
    have herase : ∀ g₂, Focus g₀ g₂ ino w.addr (some { w.record q with refcnt := w.refs - 1 }) none →
        Ends (do
          eraseRecord (w.record q).miter
          pure (w.refs - 1)) g₂ fun n g' => n = w.refs - 1 ∧ Focus g₀ g' ino w.addr none none := by
      intro g₂ h₂
      apply Ends.bind h₂.eraseRecord
      intro _ g₃ h₃
      exact Ends.pure ⟨rfl, h₃⟩
    obtain hdue | ⟨t, hdue⟩ := Option.eq_none_or_eq_some w.due
    · -- There is no entry.
      apply Ends.ite
      · intro hd
        simp [Watch.record, hdue] at hd
      · intro _
        have hentry : w.entry q = none := by simp [Watch.entry, hdue]
        rw [hentry] at h₁
        exact herase g₁ h₁
    · -- There is an entry.
      apply Ends.ite
      · intro _
        have hentry : w.entry q = some ⟨q, t, w.addr⟩ := by simp [Watch.entry, hdue]
        rw [hentry] at h₁
        apply Ends.bind h₁.eraseEntry
        intro _ g₂ h₂
        exact herase g₂ h₂
      · intro hd
        simp [Watch.record, hdue] at hd
  · intro hmore
    have hdrop : w.drop = some { w with refs := w.refs - 1 } := if_neg hmore
    rw [hdrop]
    exact Ends.pure ⟨rfl, h₁⟩

end Focus

theorem openfileRelease_spec {g : OpenFiles} {T : Table} {ino : Ino} {w : Watch} (h : Rep g T)
    (hw : T ino = some w) :
    Ends (openfileRelease ino w.addr) g fun _ g' => Rep g' (Function.update T ino w.drop) := by
  obtain ⟨q, hf⟩ := h.focused hw
  unfold openfileRelease
  apply Ends.ite
  · intro hzero
    exact absurd hzero (h.addr_ne ino w hw)
  · intro _
    apply Ends.step _ _ hf.derefRecord
    apply hf.check
    apply Ends.bind (decrefcnt_focus hf)
    rintro _ g' ⟨-, hf'⟩
    apply Ends.pure
    apply h.refocus hw _ hf'
    intro v hv
    obtain ⟨-, rfl⟩ := Watch.drop_eq_some.mp hv
    rfl

/-- A file that is not registered is not released. -/
theorem openfileRelease_zero (ino : Ino) (g : OpenFiles) : openfileRelease ino 0 g = .ok () g := by
  rw [openfileRelease, if_pos rfl]
  rfl

theorem openfileExpireNow_zero (ino : Ino) (entry : Addr) (g : OpenFiles) :
    openfileExpireNow ino 0 entry g = .ok () g := by
  rw [openfileExpireNow, if_pos rfl]
  rfl

theorem openfileExpireNow_spec {g : OpenFiles} {T : Table} {ino : Ino} {w : Watch} {entry : Addr}
    (h : Rep g T) (hw : T ino = some w) (hfree : ∀ p ∈ g.ofpq, p.addr = entry → p.val = w.addr) :
    Ends (openfileExpireNow ino w.addr entry) g fun _ g' =>
      Rep g' (Function.update T ino (some w.expire)) := by
  obtain ⟨q, hf⟩ := h.focused hw
  have haddr : ∀ v, some w.expire = some v → v.addr = w.addr := by
    rintro _ ⟨⟩
    rfl
  unfold openfileExpireNow
  apply Ends.ite
  · intro hzero
    exact absurd hzero (h.addr_ne ino w hw)
  · intro _
    apply Ends.step _ _ hf.derefRecord
    apply hf.check
    obtain hdue | ⟨t, hdue⟩ := Option.eq_none_or_eq_some w.due
    · -- There is no entry.
      apply Ends.ite
      · intro hd
        simp [Watch.record, hdue] at hd
      · intro _
        have hexpire : w.expire = w := by
          rcases w with ⟨_, _, due⟩
          subst hdue
          rfl
        apply Ends.pure
        apply h.refocus hw haddr
        rw [hexpire]
        exact hf
    · -- There is an entry.
      have hentry : w.entry q = some ⟨q, t, w.addr⟩ := by simp [Watch.entry, hdue]
      rw [hentry] at hf
      apply Ends.ite
      · intro _
        apply Ends.bind hf.eraseEntry
        intro _ g₁ h₁
        apply Ends.bind (h₁.emplaceEntry TimePoint.min hfree)
        rintro _ g₂ ⟨rfl, h₂⟩
        apply Ends.mono (h₂.setRecord _)
        intro _ g₃ h₃
        apply h.refocus hw haddr
        simpa [Watch.record, Watch.entry, Watch.expire, hdue] using h₃
      · intro hd
        simp [Watch.record, hdue] at hd

theorem scanReinsert_spec {g : OpenFiles} {T : Table} {ino : Ino} {w : Watch} {entry : Addr}
    (h : Rep g T) (hw : T ino = some w) (hfree : ∀ p ∈ g.ofpq, p.addr = entry → p.val = w.addr)
    (r : Begetattr) (now : TimePoint) :
    Ends (scanReinsert w.addr r now entry) g fun _ g' =>
      Rep g' (Function.update T ino (w.reinsert r now)) := by
  obtain ⟨q, hf⟩ := h.focused hw
  have haddr : ∀ v, w.reinsert r now = some v → v.addr = w.addr := fun v hv => Watch.reinsert_addr hv
  unfold scanReinsert
  apply Ends.bind (decrefcnt_focus hf)
  rintro n g₁ ⟨rfl, h₁⟩
  apply Ends.ite
  · intro hdone
    apply Ends.pure
    apply h.refocus hw haddr
    have hreinsert : w.reinsert r now = w.drop := by
      by_cases hlast : w.refs - 1 = 0
      · simp [Watch.reinsert, Watch.drop, hlast]
      · simp [Watch.reinsert, hdone.resolve_left hlast]
    rw [hreinsert]
    exact h₁
  · intro hgo
    rw [not_or, not_not] at hgo
    have hdrop : w.drop = some { w with refs := w.refs - 1 } := if_neg hgo.1
    have hreinsert : w.reinsert r now = some { w with refs := w.refs - 1, due := some (r.expires now) } := by
      simp [Watch.reinsert, hdrop, hgo.2]
    rw [hdrop] at h₁
    apply Ends.step _ _ h₁.derefRecord
    -- The entry that a concurrent `openfile_register` has made, if there is one, is erased.
    have hemplace : ∀ g₂ mr, Focus g g₂ ino w.addr (some mr) none → mr.refcnt = w.refs - 1 →
        mr.miter = w.addr → Ends (do
          let q ← emplaceEntry entry (r.expires now) w.addr
          setRecord w.addr { mr with qiter := q, qiterDereferenceable := true }) g₂ fun _ g' =>
            Rep g' (Function.update T ino (w.reinsert r now)) := by
      intro g₂ mr h₂ hrefs hmiter
      apply Ends.bind (h₂.emplaceEntry (r.expires now) hfree)
      rintro q' g₃ ⟨rfl, h₃⟩
      apply Ends.mono (h₃.setRecord _)
      intro _ g₄ h₄
      apply h.refocus hw haddr
      rw [hreinsert]
      simpa [Watch.record, Watch.entry, hrefs, hmiter] using h₄
    obtain hdue | ⟨t, hdue⟩ := Option.eq_none_or_eq_some w.due
    · -- There is no entry.
      have hentry : ({ w with refs := w.refs - 1 } : Watch).entry q = none := by simp [Watch.entry, hdue]
      rw [Option.bind_some, hentry] at h₁
      apply Ends.ite
      · intro hd
        simp [Watch.record, hdue] at hd
      · intro _
        exact hemplace g₁ _ h₁ rfl rfl
    · -- There is an entry.
      have hentry : ({ w with refs := w.refs - 1 } : Watch).entry q = some ⟨q, t, w.addr⟩ := by
        simp [Watch.entry, hdue]
      rw [Option.bind_some, hentry] at h₁
      apply Ends.ite
      · intro _
        apply Ends.bind h₁.eraseEntry
        intro _ g₂ h₂
        exact hemplace g₂ _ h₂ rfl rfl
      · intro hd
        simp [Watch.record, hdue] at hd

/-! ## `openfile_register` -/

section Register

variable {g₀ g : OpenFiles} {T : Table} {ino : Ino} {w : Watch} {q : Addr} {r : Begetattr}
  {env : RegisterEnv}

/-- The record of an inode that `openfile_register` is about to open. -/
def Table.orNew (T : Table) (ino : Ino) (env : RegisterEnv) : Watch :=
  (T ino).getD ⟨env.record, 0, none⟩

theorem findOrCreate_spec (h : Rep g T) (hfree : g.ofmap.node env.record = none) :
    Ends (findOrCreate env.record ino) g fun p g' => p.1 = (T.orNew ino env).addr ∧
      ∃ q, Focus g g' ino (T.orNew ino env).addr (some ((T.orNew ino env).record q))
        ((T.orNew ino env).entry q) := by
  have hindex := h.index ino
  unfold findOrCreate
  cases hw : T ino with
  | some w =>
    rw [hw] at hindex
    have hnew : T.orNew ino env = w := by simp [Table.orNew, hw]
    rw [hnew]
    obtain ⟨q, hf⟩ := h.focused hw
    have hfound : emplaceRecord env.record ino g = .ok (w.addr, false) g := by
      simp [emplaceRecord, hindex]
    apply Ends.step _ _ hfound
    exact Ends.pure ⟨rfl, q, hf⟩
  | none =>
    rw [hw] at hindex
    have hnew : T.orNew ino env = ⟨env.record, 0, none⟩ := by simp [Table.orNew, hw]
    rw [hnew]
    have hnone : g.ofmap.index ino = none := by simpa using hindex
    let g' : OpenFiles := { g with ofmap := g.ofmap.insert env.record ino .new }
    have hcreated : emplaceRecord env.record ino g = .ok (env.record, true) g' := by
      simp [emplaceRecord, hnone, g']
    have hf : Focus g g' ino env.record (some .new) none := by
      refine ⟨?_, ?_, ?_, by simp⟩
      · simp [NodeMap.insert, hnone, hfree, g']
      · intro b hb
        simp [NodeMap.insert, hnone, hfree, Function.update_of_ne hb, g']
      · intro p
        -- No entry points to a node that is not in the map.
        have hp : p ∈ g.ofpq → p.val ≠ env.record := by
          rintro hp heq
          obtain ⟨k, w, hk, haddr⟩ := h.owner p hp
          obtain ⟨q, hnode, -⟩ := h.stored k w hk
          rw [haddr, heq, hfree] at hnode
          simp at hnode
        constructor
        · intro hmem
          exact .inl ⟨hmem, hp hmem⟩
        · rintro (hmem | hmem)
          · exact hmem.1
          · simp at hmem
    apply Ends.step _ _ hcreated
    apply Ends.step _ _ hf.derefRecord
    apply Ends.bind (hf.setRecord _)
    intro _ g₁ h₁
    exact Ends.pure ⟨rfl, 0, h₁⟩

/-- The open inode with an entry that expires at `t`. -/
def Watch.dueAt (w : Watch) (t : TimePoint) : Watch := { w with due := some t }

theorem ensureEntry_focus (h : Focus g₀ g ino w.addr (some (w.record q)) (w.entry q))
    (hfree : ∀ p ∈ g₀.ofpq, p.addr = env.entry → p.val = w.addr) :
    Ends (ensureEntry w.addr r env) g fun _ g' => ∃ q' t, t = w.due.getD (r.expires env.now) ∧
      Focus g₀ g' ino w.addr (some ((w.dueAt t).record q')) (some ⟨q', t, w.addr⟩) := by
  unfold ensureEntry
  apply Ends.step _ _ h.derefRecord
  obtain hdue | ⟨t, hdue⟩ := Option.eq_none_or_eq_some w.due
  · have hentry : w.entry q = none := by simp [Watch.entry, hdue]
    rw [hentry] at h
    apply Ends.ite
    · intro _
      apply Ends.bind (h.emplaceEntry (r.expires env.now) hfree)
      rintro q' g₁ ⟨rfl, h₁⟩
      apply Ends.mono (h₁.setRecord _)
      intro _ g₂ h₂
      exact ⟨env.entry, r.expires env.now, by simp [hdue], h₂⟩
    · intro hd
      simp [Watch.record, hdue] at hd
  · have hentry : w.entry q = some ⟨q, t, w.addr⟩ := by simp [Watch.entry, hdue]
    rw [hentry] at h
    apply Ends.ite
    · intro hd
      simp [Watch.record, hdue] at hd
    · intro _
      refine Ends.pure ⟨q, t, by simp [hdue], ?_⟩
      simpa [Watch.record, Watch.dueAt, hdue] using h

theorem addReference_focus {t : TimePoint}
    (h : Focus g₀ g ino w.addr (some ((w.dueAt t).record q)) (some ⟨q, t, w.addr⟩))
    (hfree : ∀ p ∈ g₀.ofpq, p.addr = env.entry' → p.val = w.addr) :
    Ends (addReference w.addr r env) g fun fh g' => fh = w.addr ∧
      ∃ q' v, v = ({ w with refs := w.refs + 1 } : Watch).dueAt
          (if t ≠ r.goodTill then r.expires env.now' else t) ∧
        Focus g₀ g' ino w.addr (some (v.record q')) (v.entry q') := by
  unfold addReference
  apply Ends.step _ _ h.derefRecord
  apply Ends.step _ _ h.derefEntry
  apply Ends.ite
  · intro hne
    exact absurd rfl hne
  · intro _
    apply Ends.bind (h.setRecord _)
    intro _ g₁ h₁
    apply Ends.ite
    · intro hne
      apply Ends.bind h₁.eraseEntry
      intro _ g₂ h₂
      apply Ends.bind (h₂.emplaceEntry (r.expires env.now') hfree)
      rintro q' g₃ ⟨rfl, h₃⟩
      apply Ends.bind (h₃.setRecord _)
      intro _ g₄ h₄
      refine Ends.pure ⟨rfl, env.entry', _, rfl, ?_⟩
      rw [if_pos hne]
      exact h₄
    · intro heq
      refine Ends.pure ⟨rfl, q, _, rfl, ?_⟩
      rw [if_neg heq]
      exact h₁

theorem openfileRegister_spec (h : Rep g T) (hr : r.eno = 0) (hzero : env.record ≠ 0)
    (hnode : g.ofmap.node env.record = none)
    (hentry : ∀ p ∈ g.ofpq, p.addr = env.entry → p.val = (T.orNew ino env).addr)
    (hentry' : ∀ p ∈ g.ofpq, p.addr = env.entry' → p.val = (T.orNew ino env).addr) :
    Ends (openfileRegister ino r env) g fun fh g' => fh = (T.orNew ino env).addr ∧
      Rep g' (Function.update T ino (some ((T.orNew ino env).register r env))) := by
  unfold openfileRegister
  apply Ends.ite
  · intro hne
    exact absurd hr hne
  · intro _
    apply Ends.bind (findOrCreate_spec h hnode)
    rintro ⟨mi, created⟩ g₁ ⟨rfl, q, h₁⟩
    have htry : Ends (registerEntry (T.orNew ino env).addr r env) g₁ fun fh g' =>
        fh = (T.orNew ino env).addr ∧
          Rep g' (Function.update T ino (some ((T.orNew ino env).register r env))) := by
      apply Ends.bind (ensureEntry_focus h₁ hentry)
      rintro _ g₂ ⟨q₂, t, rfl, h₂⟩
      apply Ends.mono (addReference_focus h₂ hentry')
      rintro fh g₃ ⟨rfl, q₃, v, rfl, h₃⟩
      refine ⟨rfl, h.focus ?_ ?_ ?_ ?_ h₃⟩
      · intro w hw
        simp [Table.orNew, hw]
      · intro hw
        simpa [Table.orNew, hw] using hnode
      · cases hw : T ino with
        | none => simpa [Table.orNew, hw] using hzero
        | some w => simpa [Table.orNew, hw] using h.addr_ne ino w hw
      · rintro _ ⟨⟩
        rfl
    obtain ⟨fh, g', hok, hpost⟩ := htry
    refine ⟨fh, g', ?_, hpost⟩
    simp only [catchException, hok]

theorem openfileRegister_error (g : OpenFiles) (ino : Ino) (env : RegisterEnv) (hr : r.eno ≠ 0) :
    ∃ e, openfileRegister ino r env g = .error (.throws e) g := by
  refine ⟨⟨⟨.systemError .system 5,
    bytes "openfile_register called with r.eno!=0.  This shouldn't happen"⟩, []⟩, ?_⟩
  simp only [openfileRegister, ne_eq, hr, not_false_eq_true, if_true, throwEio, bind, EStateM.bind]

end Register

/-! ## `scan` -/

/-- What the loop head of `scan` finds: nothing is due, or it takes the inode that is due first. -/
theorem scanPop_spec {g : OpenFiles} {T : Table} (h : Rep g T) (now : TimePoint) :
    Ends (scanPop now) g fun popped g' =>
      popped = none ∧ g' = g ∧ (∀ ino w t, T ino = some w → w.due = some t → now < t) ∨
      ∃ ino w t, popped = some (ino, w.addr) ∧ T ino = some w ∧ w.due = some t ∧ t ≤ now ∧
        (∀ ino' w' t', T ino' = some w' → w'.due = some t' → t ≤ t') ∧
        Rep g' (Function.update T ino (some w.pop)) := by
  -- The entry of a due inode is in the queue.
  have hqueue : ∀ ino w t, T ino = some w → w.due = some t → ∃ p ∈ g.ofpq.nodes, p.key = t := by
    intro ino w t hw hdue
    obtain ⟨q, -, hentry⟩ := h.stored ino w hw
    exact ⟨⟨q, t, w.addr⟩, ((hentry _).mpr (by simp [Watch.entry, hdue])).1, rfl⟩
  unfold scanPop
  have hget : (get : Locked OpenFiles) g = .ok g g := rfl
  apply Ends.step _ _ hget
  rcases hnodes : g.ofpq.nodes with _ | ⟨p, rest⟩
  · refine Ends.pure (.inl ⟨rfl, rfl, ?_⟩)
    intro ino w t hw hdue
    obtain ⟨p, hp, -⟩ := hqueue ino w t hw hdue
    rw [hnodes] at hp
    simp at hp
  · have hsorted := g.ofpq.sorted
    rw [hnodes, List.pairwise_cons] at hsorted
    have hfirst : ∀ r ∈ g.ofpq.nodes, p.key ≤ r.key := by
      intro r hr
      rw [hnodes] at hr
      rcases List.mem_cons.mp hr with rfl | hr
      · exact le_refl _
      · exact hsorted.1 r hr
    have hp : p ∈ g.ofpq := by
      change p ∈ g.ofpq.nodes
      rw [hnodes]
      exact List.mem_cons_self
    apply Ends.ite
    · intro hnow
      refine Ends.pure (.inl ⟨rfl, rfl, ?_⟩)
      intro ino w t hw hdue
      obtain ⟨r, hr, rfl⟩ := hqueue ino w t hw hdue
      exact hnow.trans_le (hfirst r hr)
    · intro hnow
      obtain ⟨ino, w, hw, haddr⟩ := h.owner p hp
      obtain ⟨q, hnode, hentry⟩ := h.stored ino w hw
      have hpe : w.entry q = some p := (hentry p).mp ⟨hp, haddr.symm⟩
      obtain ⟨t, hdue, rfl⟩ := Option.map_eq_some_iff.mp hpe
      obtain ⟨q', hf⟩ := h.focused hw
      have hq : w.record q' = w.record q := by
        have := hf.node
        rw [hnode] at this
        simpa using this.symm
      rw [show w.entry q' = some ⟨q, t, w.addr⟩ by
        rw [← hpe]
        simp only [Watch.entry, show q' = q from congrArg Mrecord.qiter hq], hq] at hf
      apply Ends.step _ _ hf.derefRecord
      apply Ends.ite
      · intro hne
        exact absurd rfl hne
      · intro _
        apply Ends.bind hf.eraseEntry
        intro _ g₁ h₁
        apply Ends.bind (h₁.setRecord _)
        intro _ g₂ h₂
        refine Ends.pure (.inr ⟨ino, w, t, rfl, hw, hdue, not_lt.mp hnow, ?_, ?_⟩)
        · intro ino' w' t' hw' hdue'
          obtain ⟨r, hr, rfl⟩ := hqueue ino' w' t' hw' hdue'
          exact hfirst r hr
        · apply h.refocus (q := q) hw _ h₂
          rintro _ ⟨⟩
          rfl

end Fs123
