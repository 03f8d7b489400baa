import Fs123.Mount.OpenFileSpec
import Fs123.Mount.ScanSteps

/-!
# The open-file map simulates a table of open inodes

`Watches` is the system with the table in place of the two containers, and `Watches.Step` are its steps.
Every step of the code is one of these (`Sim.progress`), whatever the interleaving, and in every state that they
reach the reference count of an inode is the number of its references (`Counted`). The representation
invariant of the containers follows.
-/

namespace Fs123.Scan

open Cxx Transition

/-- The table of open inodes, the registered handles and the scanning thread. -/
structure Watches where
  table : Table
  handles : List (Ino × Addr)
  scan : Pc

/-- The registered handles of an inode, and one for the scanning thread while it holds the record. -/
def references (handles : List (Ino × Addr)) (scan : Pc) (ino : Ino) (a : Addr) : ℕ :=
  handles.count (ino, a) + if scan.held = some (ino, a) then 1 else 0

namespace Watches

/-- The steps. The table changes at one inode. -/
inductive Step : Watches → Label → Watches → Prop where
  | registerError {v : Watches} {ino : Ino} {r : Begetattr} {env : RegisterEnv} :
    r.eno ≠ 0 → Step v (.register ino r env) v
  | register {T : Table} {hs : List (Ino × Addr)} {pc : Pc} {ino : Ino} {r : Begetattr}
      {env : RegisterEnv} :
    r.eno = 0 → TimePoint.min ≤ env.now → TimePoint.min ≤ env.now' →
    Step ⟨T, hs, pc⟩ (.register ino r env)
      ⟨Function.update T ino (some ((T.orNew ino env).register r env)),
        (ino, (T.orNew ino env).addr) :: hs, pc⟩
  | releaseZero {v : Watches} {ino : Ino} : Step v (.release ino 0) v
  | release {T : Table} {hs : List (Ino × Addr)} {pc : Pc} {ino : Ino} {w : Watch} :
    T ino = some w → (ino, w.addr) ∈ hs →
    Step ⟨T, hs, pc⟩ (.release ino w.addr) ⟨Function.update T ino w.drop, hs.erase (ino, w.addr), pc⟩
  | expireZero {v : Watches} {ino : Ino} {entry : Addr} : Step v (.expireNow ino 0 entry) v
  | expireNow {T : Table} {hs : List (Ino × Addr)} {pc : Pc} {ino : Ino} {w : Watch} {entry : Addr} :
    T ino = some w → (ino, w.addr) ∈ hs →
    Step ⟨T, hs, pc⟩ (.expireNow ino w.addr entry) ⟨Function.update T ino (some w.expire), hs, pc⟩
  | lock {T : Table} {hs : List (Ino × Addr)} : Step ⟨T, hs, .idle⟩ .lock ⟨T, hs, .head⟩
  | popNone {T : Table} {hs : List (Ino × Addr)} {now : TimePoint} :
    (∀ ino w t, T ino = some w → w.due = some t → now < t) →
    Step ⟨T, hs, .head⟩ (.pop now) ⟨T, hs, .idle⟩
  /-- The inode that is due first is taken. -/
  | pop {T : Table} {hs : List (Ino × Addr)} {now : TimePoint} {ino : Ino} {w : Watch} {t : TimePoint} :
    T ino = some w → w.due = some t → t ≤ now →
    (∀ ino' w' t', T ino' = some w' → w'.due = some t' → t ≤ t') →
    Step ⟨T, hs, .head⟩ (.pop now) ⟨Function.update T ino (some w.pop), hs, .popped ino w.addr⟩
  | begetattr {T : Table} {hs : List (Ino × Addr)} {ino : Ino} {mi : Addr} :
    Step ⟨T, hs, .popped ino mi⟩ .begetattr ⟨T, hs, .fetching ino mi⟩
  | returned {T : Table} {hs : List (Ino × Addr)} {ino : Ino} {mi : Addr} {result : Option Begetattr} :
    Step ⟨T, hs, .fetching ino mi⟩ (.returned result) ⟨T, hs, .fetched ino mi result⟩
  | notify {T : Table} {hs : List (Ino × Addr)} {ino : Ino} {mi : Addr} {result : Option Begetattr}
      {updated : Option ℕ} :
    Step ⟨T, hs, .fetched ino mi result⟩ (.notify updated)
      ⟨T, hs, .notified ino mi (scanReply result updated)⟩
  | relock {T : Table} {hs : List (Ino × Addr)} {ino : Ino} {w : Watch} {r : Begetattr}
      {now : TimePoint} {entry : Addr} :
    T ino = some w → TimePoint.min ≤ now →
    Step ⟨T, hs, .notified ino w.addr r⟩ (.relock now entry)
      ⟨Function.update T ino (w.reinsert r now), hs, .head⟩

/-- The reference counts are the numbers of references, and an inode is open as long as it has one. -/
structure Counted (v : Watches) : Prop where
  refs : ∀ ino w, v.table ino = some w →
    w.refs = references v.handles v.scan ino w.addr ∧ 0 < references v.handles v.scan ino w.addr
  opened : ∀ ino a, 0 < references v.handles v.scan ino a →
    ∃ w, v.table ino = some w ∧ w.addr = a

/-- A change of one inode and of the references to its record keeps the counts right. -/
theorem Counted.update {v : Watches} {hs : List (Ino × Addr)} {pc : Pc} {ino : Ino} {a : Addr}
    {w' : Option Watch} (h : Counted v) (hold : ∀ w, v.table ino = some w → w.addr = a)
    (hother : ∀ k b, (k, b) ≠ (ino, a) → references hs pc k b = references v.handles v.scan k b)
    (hnone : w' = none → references hs pc ino a = 0)
    (hsome : ∀ w, w' = some w →
      w.addr = a ∧ w.refs = references hs pc ino a ∧ 0 < references hs pc ino a) :
    Counted ⟨Function.update v.table ino w', hs, pc⟩ := by
  refine ⟨?_, ?_⟩
  · intro k w hw
    by_cases hk : k = ino
    · subst hk
      simp only [Function.update_self] at hw
      obtain ⟨rfl, hrefs⟩ := hsome w hw
      exact hrefs
    · simp only [Function.update_of_ne hk] at hw
      simp only [hother k w.addr (by simp [hk])]
      exact h.refs k w hw
  · intro k b hpos
    simp only at hpos ⊢
    by_cases hkb : (k, b) = (ino, a)
    · obtain ⟨rfl, rfl⟩ := Prod.mk.inj hkb
      cases w' with
      | none =>
        rw [hnone rfl] at hpos
        exact absurd hpos (lt_irrefl 0)
      | some w => exact ⟨w, Function.update_self .., (hsome w rfl).1⟩
    · rw [hother k b hkb] at hpos
      obtain ⟨w, hw, rfl⟩ := h.opened k b hpos
      have hk : k ≠ ino := by
        rintro rfl
        exact hkb (by rw [hold w hw])
      exact ⟨w, by rwa [Function.update_of_ne hk], rfl⟩

theorem Counted.init : Counted ⟨fun _ => none, [], .idle⟩ where
  refs _ _ h := by simp at h
  opened _ _ h := by simp [references, Pc.held] at h

/-- Only the record that the scanning thread holds matters to the counts. -/
theorem Counted.scan {T : Table} {hs : List (Ino × Addr)} {pc pc' : Pc} (h : Counted ⟨T, hs, pc⟩)
    (hheld : pc'.held = pc.held) : Counted ⟨T, hs, pc'⟩ := by
  have hrefs : references hs pc' = references hs pc := by
    funext ino a
    simp only [references, hheld]
  refine ⟨?_, ?_⟩
  · simpa only [hrefs] using h.refs
  · simpa only [hrefs] using h.opened

theorem references_cons (hs : List (Ino × Addr)) (pc : Pc) (ino k : Ino) (a b : Addr) :
    references ((ino, a) :: hs) pc k b
      = references hs pc k b + if (k, b) = (ino, a) then 1 else 0 := by
  by_cases h : (k, b) = (ino, a)
  · rw [if_pos h, references, references, h, List.count_cons_self]
    omega
  · rw [if_neg h, references, references, List.count_cons_of_ne (Ne.symm h)]
    omega

theorem references_erase {hs : List (Ino × Addr)} {ino : Ino} {a : Addr} (h : (ino, a) ∈ hs) (pc : Pc)
    (k : Ino) (b : Addr) :
    references (hs.erase (ino, a)) pc k b + (if (k, b) = (ino, a) then 1 else 0)
      = references hs pc k b := by
  have hperm := List.perm_cons_erase h
  rw [← references_cons]
  simp only [references, hperm.count_eq]

/-- The reference that the scanning thread takes or drops. -/
theorem references_held (hs : List (Ino × Addr)) {pc pc' : Pc} {ino : Ino} {a : Addr}
    (hpc : pc.held = some (ino, a)) (hpc' : pc'.held = none) (k : Ino) (b : Addr) :
    references hs pc k b = references hs pc' k b + if (k, b) = (ino, a) then 1 else 0 := by
  simp only [references, hpc, hpc', reduceCtorEq, if_false, add_zero, Option.some.injEq, eq_comm]

/-- A step keeps the counts right. -/
theorem Counted.step {v v' : Watches} {l : Label} (h : Counted v) (hs : Step v l v') : Counted v' := by
  cases hs with
  | registerError _ => exact h
  | @register T hs pc ino r env hr hnow hnow' =>
    have hrefs := references_cons hs pc ino
    apply h.update (a := (T.orNew ino env).addr)
    · intro w hw
      have hT : T ino = some w := hw
      simp [Table.orNew, hT]
    · intro k b hne
      rw [hrefs, if_neg hne, add_zero]
    · simp
    · rintro _ ⟨⟩
      refine ⟨rfl, ?_, by rw [hrefs, if_pos rfl]; omega⟩
      rw [hrefs, if_pos rfl]
      cases hT : T ino with
      | some w =>
        have := (h.refs ino w hT).1
        simp [Table.orNew, hT, Watch.register, this]
      | none =>
        -- A record that has just been made has no other references.
        have hzero : references hs pc ino env.record = 0 := by
          by_contra hpos
          obtain ⟨w, hw, -⟩ := h.opened ino env.record (Nat.pos_of_ne_zero hpos)
          simp [hT] at hw
        simp [Table.orNew, hT, Watch.register, hzero]
  | releaseZero => exact h
  | @release T hs pc ino w hw hmem =>
    have hrefs := references_erase hmem pc
    have hcount := h.refs ino w hw
    have hself := hrefs ino w.addr
    rw [if_pos rfl] at hself
    apply h.update (a := w.addr)
    · intro v hv
      rw [Option.some.inj (hw.symm.trans hv)]
    · intro k b hne
      rw [← hrefs k b, if_neg hne, add_zero]
    · intro hdrop
      by_cases hlast : w.refs - 1 = 0
      · simp only at hcount
        omega
      · simp [Watch.drop, hlast] at hdrop
    · intro v hv
      obtain ⟨hmore, rfl⟩ := Watch.drop_eq_some.mp hv
      simp only at hcount
      exact ⟨rfl, by simp only; omega⟩
  | expireZero => exact h
  | @expireNow T hs pc ino w entry hw hmem =>
    apply h.update (a := w.addr)
    · intro v hv
      rw [Option.some.inj (hw.symm.trans hv)]
    · intro k b _
      rfl
    · simp
    · rintro _ ⟨⟩
      exact ⟨rfl, h.refs ino w hw⟩
  | lock => exact h.scan rfl
  | popNone _ => exact h.scan rfl
  | @pop T hs now ino w t hw hdue hnow hfirst =>
    have hrefs : ∀ k b, references hs (.popped ino w.addr) k b
        = references hs .head k b + if (k, b) = (ino, w.addr) then 1 else 0 :=
      references_held hs rfl rfl
    have hcount := h.refs ino w hw
    apply h.update (a := w.addr)
    · intro v hv
      rw [Option.some.inj (hw.symm.trans hv)]
    · intro k b hne
      rw [hrefs, if_neg hne, add_zero]
    · simp
    · rintro _ ⟨⟩
      rw [hrefs, if_pos rfl]
      refine ⟨rfl, ?_, by omega⟩
      simp [Watch.pop, hcount.1]
  | begetattr => exact h.scan rfl
  | returned => exact h.scan rfl
  | notify => exact h.scan rfl
  | @relock T hs ino w r now entry hw hnow =>
    have hrefs : ∀ k b, references hs (.notified ino w.addr r) k b
        = references hs .head k b + if (k, b) = (ino, w.addr) then 1 else 0 :=
      references_held hs rfl rfl
    have hcount := h.refs ino w hw
    have hself := hrefs ino w.addr
    rw [if_pos rfl] at hself
    apply h.update (a := w.addr)
    · intro v hv
      rw [Option.some.inj (hw.symm.trans hv)]
    · intro k b hne
      rw [hrefs, if_neg hne, add_zero]
    · intro hnone
      rw [Watch.reinsert, Option.map_eq_none_iff] at hnone
      by_cases hlast : w.refs - 1 = 0
      · simp only at hcount
        omega
      · simp [Watch.drop, hlast] at hnone
    · intro v hv
      refine ⟨Watch.reinsert_addr hv, ?_⟩
      obtain ⟨u, hu, rfl⟩ := Option.map_eq_some_iff.mp hv
      obtain ⟨hmore, rfl⟩ := Watch.drop_eq_some.mp hu
      simp only at hcount ⊢
      split <;> simp only <;> omega

end Watches

/-! ## The simulation -/

/-- The containers represent the table. -/
structure Sim (s : State) (v : Watches) : Prop where
  rep : Rep s.files v.table
  handles : v.handles = s.handles
  scan : v.scan = s.scan

theorem Sim.init : Sim init ⟨fun _ => none, [], .idle⟩ := ⟨Rep.empty, rfl, rfl⟩

theorem ended_of_ends {α : Type} {x : Locked α} {g : OpenFiles} {Q : α → OpenFiles → Prop}
    (h : Ends x g Q) (ok : α → OpenFiles → State) (thrown : OpenFiles → State) :
    ∃ a g', ended ok thrown (x g) = some (ok a g') ∧ Q a g' := by
  obtain ⟨a, g', hx, hQ⟩ := h
  exact ⟨a, g', by rw [hx, ended], hQ⟩

section Sim

variable {s s' : State} {v : Watches} {l : Label}

/-- A registered handle is the address of the record of its inode. -/
theorem Sim.registered {ino : Ino} {fh : Addr} (h : Sim s v) (hc : v.Counted) (hmem : (ino, fh) ∈ s.handles) :
    ∃ w, v.table ino = some w ∧ w.addr = fh := by
  apply hc.opened
  rw [h.handles]
  exact Nat.add_pos_left (List.count_pos_iff.mpr hmem) _

/-- The scanning thread holds the record of an open inode. -/
theorem Sim.held {ino : Ino} {mi : Addr} (h : Sim s v) (hc : v.Counted)
    (hheld : s.scan.held = some (ino, mi)) : ∃ w, v.table ino = some w ∧ w.addr = mi := by
  apply hc.opened
  rw [h.scan, references, if_pos hheld]
  exact Nat.succ_pos _

/-- A step that the threads can take has a next state, which simulates a step on the table. -/
theorem Sim.progress (h : Sim s v) (hc : v.Counted) (he : Enabled s l) :
    ∃ s' v', effect s l = some s' ∧ v.Step l v' ∧ Sim s' v' := by
  obtain ⟨files, handles, scan⟩ := s
  obtain ⟨T, hs, pc⟩ := v
  obtain ⟨hrep, rfl, rfl⟩ := h
  have hsim : Sim ⟨files, hs, pc⟩ ⟨T, hs, pc⟩ := ⟨hrep, rfl, rfl⟩
  cases l with
  | register ino r env =>
    obtain ⟨-, hzero, hnode, hentry, hentry', hnow, hnow'⟩ := he
    by_cases hr : r.eno = 0
    · have haddr : (files.ofmap.index ino).getD env.record = (T.orNew ino env).addr := by
        rw [hrep.index ino]
        cases hT : T ino <;> simp [Table.orNew, hT]
      simp only [haddr] at hentry hentry'
      obtain ⟨fh, g', hg, rfl, hrep'⟩ := ended_of_ends
        (openfileRegister_spec hrep hr hzero hnode hentry hentry') _ _
      exact ⟨_, _, hg, .register hr hnow hnow', hrep', rfl, rfl⟩
    · obtain ⟨e, hg⟩ := openfileRegister_error files ino env hr
      exact ⟨⟨files, hs, pc⟩, _, by simp only [effect, hg, ended], .registerError hr, hsim⟩
  | release ino fh =>
    obtain ⟨-, rfl | hmem⟩ := he
    · have hnot : (ino, 0) ∉ hs := by
        intro hmem
        obtain ⟨w, hw, hzero⟩ := hsim.registered hc hmem
        exact hrep.addr_ne ino w hw hzero
      have hstep : effect ⟨files, hs, pc⟩ (.release ino 0) = some ⟨files, hs, pc⟩ := by
        simp only [effect, openfileRelease_zero, ended, List.erase_of_not_mem hnot]
      exact ⟨_, _, hstep, .releaseZero, hsim⟩
    · obtain ⟨w, hw, rfl⟩ := hsim.registered hc hmem
      obtain ⟨_, g', hg, hrep'⟩ := ended_of_ends (openfileRelease_spec hrep hw) _ _
      exact ⟨_, _, hg, .release hw hmem, hrep', rfl, rfl⟩
  | expireNow ino fh entry =>
    obtain ⟨-, rfl | hmem, hfree⟩ := he
    · have hstep : effect ⟨files, hs, pc⟩ (.expireNow ino 0 entry) = some ⟨files, hs, pc⟩ := by
        simp only [effect, openfileExpireNow_zero, ended]
      exact ⟨_, _, hstep, .expireZero, hsim⟩
    · obtain ⟨w, hw, rfl⟩ := hsim.registered hc hmem
      obtain ⟨_, g', hg, hrep'⟩ := ended_of_ends (openfileExpireNow_spec hrep hw hfree) _ _
      exact ⟨_, _, hg, .expireNow hw hmem, hrep', rfl, rfl⟩
  | lock =>
    cases pc with
    | idle => exact ⟨_, _, rfl, .lock, hrep, rfl, rfl⟩
    | _ => exact absurd he (by simp [Enabled, Pc.next])
  | pop now =>
    cases pc with
    | head =>
      obtain ⟨popped, g', hg, hpop⟩ := ended_of_ends (scanPop_spec hrep now) _ _
      rcases hpop with ⟨rfl, rfl, hdue⟩ | ⟨ino, w, t, rfl, hw, hdue, hnow, hfirst, hrep'⟩
      · exact ⟨_, _, hg, .popNone hdue, hrep, rfl, rfl⟩
      · exact ⟨_, _, hg, .pop hw hdue hnow hfirst, hrep', rfl, rfl⟩
    | _ => exact absurd he (by simp [Enabled, Pc.next])
  | begetattr =>
    cases pc with
    | popped ino mi => exact ⟨_, _, rfl, .begetattr, hrep, rfl, rfl⟩
    | _ => exact absurd he (by simp [Enabled, Pc.next])
  | returned result =>
    cases pc with
    | fetching ino mi => exact ⟨_, _, rfl, .returned, hrep, rfl, rfl⟩
    | _ => exact absurd he (by simp [Enabled, Pc.next])
  | notify updated =>
    cases pc with
    | fetched ino mi result => exact ⟨_, _, rfl, .notify, hrep, rfl, rfl⟩
    | _ => exact absurd he (by simp [Enabled, Pc.next])
  | relock now entry =>
    cases pc with
    | notified ino mi r =>
      obtain ⟨-, hnow, hfree⟩ := he
      obtain ⟨w, hw, rfl⟩ := hsim.held hc rfl
      obtain ⟨_, g', hg, hrep'⟩ := ended_of_ends
        (scanReinsert_spec hrep hw (hfree (ino, w.addr) rfl) r now) _ _
      exact ⟨_, _, hg, .relock hw hnow, hrep', rfl, rfl⟩
    | _ => exact absurd he (by simp [Enabled, Pc.next])

theorem Sim.step_of (h : Sim s v) (hc : v.Counted) (hstep : step s l = some s') :
    ∃ v', v.Step l v' ∧ Sim s' v' ∧ v'.Counted := by
  obtain ⟨he, heff⟩ := step_eq_some.mp hstep
  obtain ⟨s'', v', heff', hv, hsim⟩ := h.progress hc he
  obtain rfl : s'' = s' := by simpa [heff'] using heff
  exact ⟨v', hv, hsim, hc.step hv⟩

end Sim

/-- Every state that the system reaches is one of the table. -/
theorem reached {ls : List Label} {s : State} (h : run step init ls = some s) :
    ∃ v : Watches, Sim s v ∧ v.Counted := by
  apply run_invariant ⟨_, Sim.init, Watches.Counted.init⟩ _ h
  rintro s l s' ⟨v, hsim, hc⟩ hstep
  obtain ⟨v', -, hsim', hc'⟩ := hsim.step_of hc hstep
  exact ⟨v', hsim', hc'⟩

/-! ## The representation invariant -/

/-- The invariant of the two containers, with the references that the threads hold. -/
structure Consistent (s : State) : Prop where
  /-- A record is filed under its inode and points to itself. -/
  self : ∀ a ino mr, s.files.ofmap.node a = some (ino, mr) →
    s.files.ofmap.index ino = some a ∧ mr.miter = a
  /-- The entry that a record points to points back. -/
  forth : ∀ a ino mr, s.files.ofmap.node a = some (ino, mr) → mr.qiterDereferenceable →
    ∃ p ∈ s.files.ofpq.nodes, p.addr = mr.qiter ∧ p.val = a
  /-- An entry points to a record that is in the map and points back. -/
  back : ∀ p ∈ s.files.ofpq.nodes, ∃ ino mr, s.files.ofmap.node p.val = some (ino, mr) ∧
    mr.qiterDereferenceable ∧ mr.qiter = p.addr
  refcnt : ∀ a ino mr, s.files.ofmap.node a = some (ino, mr) →
    mr.refcnt = references s.handles s.scan ino a
  /-- A record is in the map as long as it has references. -/
  stored : ∀ a ino, (∃ mr, s.files.ofmap.node a = some (ino, mr)) ↔
    0 < references s.handles s.scan ino a

theorem Sim.consistent {s : State} {v : Watches} (h : Sim s v) (hc : v.Counted) : Consistent s := by
  obtain ⟨files, handles, scan⟩ := s
  obtain ⟨T, hs, pc⟩ := v
  obtain ⟨hrep, rfl, rfl⟩ := h
  have hnode : ∀ a ino mr, files.ofmap.node a = some (ino, mr) →
      ∃ w q, T ino = some w ∧ w.addr = a ∧ Stored files ino w q ∧ mr = w.record q := by
    intro a ino mr hmr
    have hindex := files.ofmap.index_of_node hmr
    rw [hrep.index ino] at hindex
    obtain ⟨w, hw, rfl⟩ := Option.map_eq_some_iff.mp hindex
    obtain ⟨q, hq⟩ := hrep.stored ino w hw
    have heq : w.record q = mr := by simpa [hmr, eq_comm] using hq.1
    exact ⟨w, q, hw, rfl, hq, heq.symm⟩
  refine ⟨?_, ?_, ?_, ?_, ?_⟩
  · intro a ino mr hmr
    refine ⟨files.ofmap.index_of_node hmr, ?_⟩
    obtain ⟨w, q, -, rfl, -, rfl⟩ := hnode a ino mr hmr
    rfl
  · intro a ino mr hmr hd
    obtain ⟨w, q, -, rfl, hq, rfl⟩ := hnode a ino mr hmr
    obtain ⟨t, hdue⟩ := Option.isSome_iff_exists.mp hd
    have hp := (hq.2 ⟨q, t, w.addr⟩).mpr (by simp [Watch.entry, hdue])
    exact ⟨_, hp.1, rfl, rfl⟩
  · intro p hp
    obtain ⟨ino, w, hw, haddr⟩ := hrep.owner p hp
    obtain ⟨q, hq⟩ := hrep.stored ino w hw
    have hentry := (hq.2 p).mp ⟨hp, haddr.symm⟩
    obtain ⟨t, hdue, rfl⟩ := Option.map_eq_some_iff.mp hentry
    exact ⟨ino, _, hq.1, by simp [Watch.record, hdue], rfl⟩
  · intro a ino mr hmr
    obtain ⟨w, q, hw, rfl, -, rfl⟩ := hnode a ino mr hmr
    exact (hc.refs ino w hw).1
  · intro a ino
    constructor
    · rintro ⟨mr, hmr⟩
      obtain ⟨w, q, hw, rfl, -, -⟩ := hnode a ino mr hmr
      exact (hc.refs ino w hw).2
    · intro hpos
      obtain ⟨w, hw, rfl⟩ := hc.opened ino a hpos
      obtain ⟨q, hq⟩ := hrep.stored ino w hw
      exact ⟨_, hq.1⟩

/-- In every state of every interleaving the containers are consistent, and no step that the threads can
take runs into a dangling iterator. -/
theorem openFileMap_consistent {ls : List Label} {s : State} (h : run step init ls = some s) :
    Consistent s ∧ ∀ l, Enabled s l → ∃ s', step s l = some s' := by
  obtain ⟨v, hsim, hc⟩ := reached h
  refine ⟨hsim.consistent hc, ?_⟩
  intro l he
  obtain ⟨s', -, heff, -, -⟩ := hsim.progress hc he
  exact ⟨s', step_eq_some.mpr ⟨he, heff⟩⟩

/-- Two inodes are opened, and one of them is released and opened again while it is being scanned. -/
def reopenedWhileScanned : List Label :=
  [.register 5 ⟨0, 0, 7, 1000⟩ ⟨0, 0, 1, 1, 1⟩, .register 6 ⟨0, 0, 8, 2000⟩ ⟨0, 0, 2, 2, 2⟩, .lock,
    .pop 800000000, .release 5 1, .register 5 ⟨0, 0, 9, 3000⟩ ⟨0, 0, 3, 3, 3⟩, .begetattr]

theorem openFileMap_consistent_reopened :
    ∃ s, run step init reopenedWhileScanned = some s ∧ s.handles = [(5, 1), (6, 2)] ∧
      (Consistent s ∧ ∀ l, Enabled s l → ∃ s', step s l = some s') := by
  obtain ⟨s, hs, hhandles⟩ : ∃ s, run step init reopenedWhileScanned = some s ∧
      s.handles = [(5, 1), (6, 2)] := ⟨_, rfl, rfl⟩
  exact ⟨s, hs, hhandles, openFileMap_consistent hs⟩

end Fs123.Scan
