import Fs123.Mount.Monitored

/-!
# What becomes of a request for early expiration

`openfile_expire_now` puts an entry that is due at once into the queue, for `scan` to take and to call
`begetattr` for. The request is lost where it finds no entry and `scan` is past the call of `begetattr`, and
where another entry replaces the one it made: that of an `openfile_register` with another expiration, or that
of a scan which was under way and which ends after the request. `early_expiration_kept_iff` says that these
are the only ways.
-/

namespace Fs123.Scan

open Cxx Transition

/-- The queue has an entry for the record that is due at once. -/
def State.Pending (s : State) (mi : Addr) : Prop :=
  ∃ p ∈ s.files.ofpq.nodes, p.val = mi ∧ p.key = TimePoint.min

/-- `scan` has started a `begetattr` for the inode in the run from `s`. -/
def Served (s : State) (ls : List Label) (ino : Ino) : Prop :=
  ∃ ls₁ ls₂ t mi, ls = ls₁ ++ .begetattr :: ls₂ ∧ run step s ls₁ = some t ∧ t.scan = .popped ino mi

/-- A request at this point does nothing: there is no entry, and `scan` is not about to call `begetattr`. -/
def State.Ignores (s : State) (ino : Ino) (mi : Addr) : Prop :=
  (∀ p ∈ s.files.ofpq.nodes, p.val ≠ mi) ∧ s.scan ≠ .popped ino mi

/-- The step replaces an entry that is due at once by a later one: `openfile_register` with a reply that
expires at another time, or the end of a scan that puts the inode back. -/
def State.Overwrites (s : State) (ino : Ino) (mi : Addr) (l : Label) : Prop :=
  s.Pending mi ∧
    ((∃ r env, l = .register ino r env ∧ r.eno = 0 ∧ r.goodTill ≠ TimePoint.min ∧
        s.scan ≠ .popped ino mi) ∨
      ∃ now entry r, l = .relock now entry ∧ s.scan = .notified ino mi r ∧ r.eno = 0)

/-! ## On the table -/

/-- The inode is due at once, or `scan` is about to call `begetattr` for it. -/
def Watches.Awaits (v : Watches) (ino : Ino) (w : Watch) : Prop :=
  w.due = some TimePoint.min ∨ v.scan = .popped ino w.addr

/-- The step makes an inode that is due at once due later. -/
def Watches.Overwrites (v : Watches) (ino : Ino) (w : Watch) (l : Label) : Prop :=
  w.due = some TimePoint.min ∧
    ((∃ r env, l = .register ino r env ∧ r.eno = 0 ∧ r.goodTill ≠ TimePoint.min ∧
        v.scan ≠ .popped ino w.addr) ∨
      ∃ now entry r, l = .relock now entry ∧ v.scan = .notified ino w.addr r ∧ r.eno = 0)

/-- An entry that is made from a reply is not due at once. -/
theorem expires_ne_min {r : Begetattr} {now : TimePoint} (h : TimePoint.min ≤ now) :
    r.expires now ≠ TimePoint.min := by
  have hlater : now < now + noSoonerThan := lt_add_of_pos_right now (by decide)
  exact (h.trans_lt (hlater.trans_le (le_max_right _ _))).ne'

section Steps

variable {v v' : Watches} {l : Label} {ino : Ino} {w w' : Watch}

/-- What a step does to an inode that stays open. -/
theorem Watches.Step.change (h : v.Step l v') (hw : v.table ino = some w) (hw' : v'.table ino = some w') :
    w' = w ∨
    (∃ r env, l = .register ino r env ∧ r.eno = 0 ∧ v'.scan = v.scan ∧ w' = w.register r env) ∨
    w.drop = some w' ∨
    (v'.scan = v.scan ∧ w' = w.expire) ∨
    (v'.scan = .popped ino w.addr ∧ w' = w.pop) ∨
    ∃ now entry r, l = .relock now entry ∧ v.scan = .notified ino w.addr r ∧ w.reinsert r now = some w' := by
  have hsame : v'.table ino = v.table ino → w' = w := by
    intro heq
    exact Option.some.inj (hw'.symm.trans (heq.trans hw))
  have hupdate : ∀ {T : Table} {k : Ino} {x : Option Watch}, T ino = some w →
      Function.update T k x ino = some w' → w' = w ∨ k = ino ∧ x = some w' := by
    intro T k x hT hx
    rcases update_eq_some.mp hx with ⟨rfl, hnew⟩ | ⟨-, hold⟩
    · exact .inr ⟨rfl, hnew⟩
    · exact .inl (Option.some.inj (hold.symm.trans hT))
  cases h with
  | registerError _ => exact .inl (hsame rfl)
  | @register T hs pc k r env hr _ _ =>
    rcases hupdate hw hw' with heq | ⟨rfl, hnew⟩
    · exact .inl heq
    · have hk : T k = some w := hw
      refine .inr (.inl ⟨r, env, rfl, hr, rfl, ?_⟩)
      simpa [Table.orNew, hk] using (Option.some.inj hnew).symm
  | releaseZero => exact .inl (hsame rfl)
  | @release T hs pc k u hu hmem =>
    rcases hupdate hw hw' with heq | ⟨rfl, hnew⟩
    · exact .inl heq
    · obtain rfl : u = w := Option.some.inj (hu.symm.trans hw)
      exact .inr (.inr (.inl hnew))
  | expireZero => exact .inl (hsame rfl)
  | @expireNow T hs pc k u entry hu hmem =>
    rcases hupdate hw hw' with heq | ⟨rfl, hnew⟩
    · exact .inl heq
    · obtain rfl : u = w := Option.some.inj (hu.symm.trans hw)
      exact .inr (.inr (.inr (.inl ⟨rfl, (Option.some.inj hnew).symm⟩)))
  | lock => exact .inl (hsame rfl)
  | popNone _ => exact .inl (hsame rfl)
  | @pop T hs now k u t hu _ _ _ =>
    rcases hupdate hw hw' with heq | ⟨rfl, hnew⟩
    · exact .inl heq
    · obtain rfl : u = w := Option.some.inj (hu.symm.trans hw)
      exact .inr (.inr (.inr (.inr (.inl ⟨rfl, (Option.some.inj hnew).symm⟩))))
  | begetattr => exact .inl (hsame rfl)
  | returned => exact .inl (hsame rfl)
  | notify => exact .inl (hsame rfl)
  | @relock T hs k u r now entry hu hnow =>
    rcases hupdate hw hw' with heq | ⟨rfl, hnew⟩
    · exact .inl heq
    · obtain rfl : u = w := Option.some.inj (hu.symm.trans hw)
      exact .inr (.inr (.inr (.inr (.inr ⟨now, entry, r, rfl, rfl, hnew⟩))))

theorem Watches.Step.addr_eq (h : v.Step l v') (hw : v.table ino = some w) (hw' : v'.table ino = some w') :
    w'.addr = w.addr := by
  rcases h.change hw hw' with rfl | ⟨r, env, -, -, -, rfl⟩ | hdrop | ⟨-, rfl⟩ | ⟨-, rfl⟩ | ⟨_, _, r, -, -, hre⟩
  · rfl
  · rfl
  · obtain ⟨-, rfl⟩ := Watch.drop_eq_some.mp hdrop
    rfl
  · rfl
  · rfl
  · exact Watch.reinsert_addr hre

/-- Only the call of `begetattr` takes the scanning thread on from there. -/
theorem Watches.Step.popped (h : v.Step l v') {mi : Addr} (hpc : v.scan = .popped ino mi)
    (hl : l ≠ .begetattr) : v'.scan = .popped ino mi := by
  cases h with
  | registerError _ | register _ _ _ | releaseZero | release _ _ | expireZero | expireNow _ _ => exact hpc
  | begetattr => exact absurd rfl hl
  | lock | popNone _ | pop _ _ _ _ | returned | notify | relock _ _ => simp at hpc

/-- The call of `openfile_expire_now`. -/
theorem Watches.Step.awaits_expireNow {entry : Addr} (h : v.Step (.expireNow ino w.addr entry) v')
    (hzero : w.addr ≠ 0) (hw : v.table ino = some w) (hw' : v'.table ino = some w') :
    v'.Awaits ino w' ↔ ¬ (w.due = none ∧ v.scan ≠ .popped ino w.addr) := by
  obtain ⟨T, hs, pc⟩ := v
  generalize hl : Label.expireNow ino w.addr entry = l at h
  cases h with
  | expireZero =>
    injection hl with _ haddr
    exact absurd haddr hzero
  | @expireNow _ _ _ k u e hu hmem =>
    injection hl with hk haddr he
    subst hk
    obtain rfl : u = w := Option.some.inj (hu.symm.trans hw)
    obtain rfl : u.expire = w' := by simpa using hw'
    obtain hdue | ⟨t, hdue⟩ := Option.eq_none_or_eq_some u.due
    · simp [Awaits, Watch.expire, hdue]
    · simp [Awaits, Watch.expire, hdue]
  | _ => cases hl

/-- While nothing overwrites the entry and no `begetattr` is started, the inode awaits one. -/
theorem Watches.Step.awaits (h : v.Step l v') (hw : v.table ino = some w) (hw' : v'.table ino = some w')
    (hawaits : v.Awaits ino w) (hserve : ¬ (l = .begetattr ∧ v.scan = .popped ino w.addr))
    (hover : ¬ v.Overwrites ino w l) : v'.Awaits ino w' := by
  by_cases hpc : v.scan = .popped ino w.addr
  · right
    rw [h.addr_eq hw hw']
    exact h.popped hpc fun hl => hserve ⟨hl, hpc⟩
  have hdue : w.due = some TimePoint.min := hawaits.resolve_right hpc
  rcases h.change hw hw' with rfl | ⟨r, env, rfl, hr, -, rfl⟩ | hdrop | ⟨-, rfl⟩ | ⟨hpop, rfl⟩ |
    ⟨now, entry, r, rfl, hnotified, hre⟩
  · exact .inl hdue
  · -- The reply expires at the minimum, and the entry stays.
    have hgood : r.goodTill = TimePoint.min := by
      by_contra hne
      exact hover ⟨hdue, .inl ⟨r, env, rfl, hr, hne, hpc⟩⟩
    left
    simp [Watch.register, hdue, hgood]
  · obtain ⟨-, rfl⟩ := Watch.drop_eq_some.mp hdrop
    exact .inl hdue
  · left
    simp [Watch.expire, hdue]
  · exact .inr hpop
  · have hr : r.eno ≠ 0 := fun hr => hover ⟨hdue, .inr ⟨now, entry, r, rfl, hnotified, hr⟩⟩
    obtain ⟨u, hu, rfl⟩ := Option.map_eq_some_iff.mp hre
    obtain ⟨-, rfl⟩ := Watch.drop_eq_some.mp hu
    left
    rw [if_pos hr]
    exact hdue

/-- A step that overwrites the entry leaves the inode waiting for nothing. -/
theorem Watches.Step.not_awaits (h : v.Step l v') (hw : v.table ino = some w)
    (hw' : v'.table ino = some w') (hover : v.Overwrites ino w l) : ¬ v'.Awaits ino w' := by
  obtain ⟨hdue, ⟨r, env, rfl, hr, hgood, hpc⟩ | ⟨now, entry, r, rfl, hpc, hr⟩⟩ := hover
  · cases h with
    | registerError hne => exact absurd hr hne
    | @register T hs pc _ _ _ _ hnow hnow' =>
      have hT : T ino = some w := hw
      obtain rfl : w.register r env = w' := by simpa [Table.orNew, hT] using hw'
      rintro (hmin | hpopped)
      · simp [Watch.register, hdue, Ne.symm hgood, expires_ne_min hnow'] at hmin
      · exact hpc hpopped
  · obtain ⟨T, hs, pc⟩ := v
    obtain rfl : pc = .notified ino w.addr r := hpc
    generalize ha : w.addr = a at h
    cases h with
    | @relock _ _ _ u _ _ _ hu hnow =>
      obtain rfl : u = w := Option.some.inj (hu.symm.trans hw)
      have hre : u.reinsert r now = some w' := by simpa using hw'
      obtain ⟨y, -, rfl⟩ := Option.map_eq_some_iff.mp hre
      rintro (hmin | hpopped)
      · simp [hr, expires_ne_min hnow] at hmin
      · simp at hpopped

end Steps

/-! ## On the containers -/

section Containers

variable {s : State} {v : Watches} {ino : Ino} {w : Watch}

theorem Sim.pending_iff (h : Sim s v) (hw : v.table ino = some w) :
    s.Pending w.addr ↔ w.due = some TimePoint.min := h.entry_iff hw _

theorem Sim.ignores_iff (h : Sim s v) (hw : v.table ino = some w) :
    s.Ignores ino w.addr ↔ w.due = none ∧ v.scan ≠ .popped ino w.addr := by
  rw [State.Ignores, h.scan]
  apply and_congr_left'
  constructor
  · intro hnone
    by_contra hdue
    obtain ⟨t, hdue⟩ := Option.ne_none_iff_exists'.mp hdue
    obtain ⟨p, hp, haddr, -⟩ := (h.entry_iff hw t).mpr hdue
    exact hnone p hp haddr
  · intro hdue p hp haddr
    have := (h.entry_iff hw p.key).mp ⟨p, hp, haddr, rfl⟩
    simp [hdue] at this

theorem Sim.overwrites_iff (h : Sim s v) (hw : v.table ino = some w) (l : Label) :
    s.Overwrites ino w.addr l ↔ v.Overwrites ino w l := by
  rw [State.Overwrites, Watches.Overwrites, h.pending_iff hw, h.scan]

theorem Sim.awaits_iff (h : Sim s v) (hw : v.table ino = some w) :
    s.Pending w.addr ∨ s.scan = .popped ino w.addr ↔ v.Awaits ino w := by
  rw [Watches.Awaits, h.pending_iff hw, h.scan]

/-- The last step of a run serves the request, or one before it has. -/
theorem served_concat {s₁ : State} {ls : List Label} {l : Label} (hrun : run step s₁ ls = some s) :
    Served s₁ (ls ++ [l]) ino ↔ Served s₁ ls ino ∨ l = .begetattr ∧ ∃ mi, s.scan = .popped ino mi := by
  constructor
  · rintro ⟨ls₁, ls₂, t, mi, heq, ht, hpc⟩
    rcases List.eq_nil_or_concat ls₂ with rfl | ⟨ls₂, k, rfl⟩
    · obtain ⟨rfl, hl⟩ := List.append_inj' heq rfl
      obtain rfl : s = t := Option.some.inj (hrun.symm.trans ht)
      exact .inr ⟨List.singleton_inj.mp hl, mi, hpc⟩
    · rw [List.concat_eq_append, ← List.cons_append, ← List.append_assoc] at heq
      obtain ⟨rfl, -⟩ := List.append_inj' heq rfl
      exact .inl ⟨ls₁, ls₂, t, mi, rfl, ht, hpc⟩
  · rintro (⟨ls₁, ls₂, t, mi, rfl, ht, hpc⟩ | ⟨rfl, mi, hpc⟩)
    · exact ⟨ls₁, ls₂ ++ [l], t, mi, by simp, ht, hpc⟩
    · exact ⟨ls, [], s, mi, rfl, hrun, hpc⟩

end Containers

section Request

variable {ls₁ ls₂ : List Label} {s₀ s₁ s : State} {ino : Ino} {fh entry : Addr}

/-- The call, on the table. -/
theorem request_awaits (hrun : run step init ls₁ = some s₀) (hreg : (ino, fh) ∈ s₀.handles)
    (hcall : step s₀ (.expireNow ino fh entry) = some s₁) (hopen : ∃ a, (ino, a) ∈ s₁.handles) :
    ∃ v w, Sim s₁ v ∧ v.Counted ∧ v.table ino = some w ∧ w.addr = fh ∧
      (v.Awaits ino w ↔ ¬ s₀.Ignores ino fh) := by
  obtain ⟨v₀, hsim₀, hc₀⟩ := reached hrun
  obtain ⟨w₀, hw₀, rfl⟩ := hsim₀.registered hc₀ hreg
  obtain ⟨v, hv, hsim, hc⟩ := hsim₀.step_of hc₀ hcall
  obtain ⟨a, ha⟩ := hopen
  obtain ⟨w, hw, -⟩ := hsim.registered hc ha
  refine ⟨v, w, hsim, hc, hw, hv.addr_eq hw₀ hw, ?_⟩
  rw [hsim₀.ignores_iff hw₀]
  exact hv.awaits_expireNow (hsim₀.rep.addr_ne ino w₀ hw₀) hw₀ hw

/-- A step after which the inode still has handles does not give its record away. -/
theorem Sim.keeps {t t' : State} {v : Watches} {w : Watch} {l : Label} (h : Sim t v) (hc : v.Counted)
    (hw : v.table ino = some w) (hstep : step t l = some t') (hopen : ∃ a, (ino, a) ∈ t'.handles) :
    ∃ v' w', v.Step l v' ∧ Sim t' v' ∧ v'.Counted ∧ v'.table ino = some w' ∧ w'.addr = w.addr := by
  obtain ⟨v', hv, hsim', hc'⟩ := h.step_of hc hstep
  obtain ⟨a, ha⟩ := hopen
  obtain ⟨w', hw', -⟩ := hsim'.registered hc' ha
  exact ⟨v', w', hv, hsim', hc', hw', hv.addr_eq hw hw'⟩

/-- After `openfile_expire_now` for a registered handle, and as long as the inode has handles, the request is
kept if and only if the call was not ignored and no step before the `begetattr` overwrites the entry: there is
an entry that is due at once, or `scan` has started a `begetattr` for the inode, or it is about to. -/
theorem early_expiration_kept_iff (hrun : run step init ls₁ = some s₀) (hreg : (ino, fh) ∈ s₀.handles)
    (hcall : step s₀ (.expireNow ino fh entry) = some s₁) (hrun₂ : run step s₁ ls₂ = some s)
    (hopen : Along step (fun _ t => ∃ a, (ino, a) ∈ t.handles) s₁ ls₂) :
    Along step (fun ls t => t.Pending fh ∨ Served s₁ ls ino ∨ t.scan = .popped ino fh) s₁ ls₂ ↔
      ¬ s₀.Ignores ino fh ∧
        ∀ ls l ls' t, ls₂ = ls ++ l :: ls' → run step s₁ ls = some t →
          Served s₁ ls ino ∨ ¬ t.Overwrites ino fh l := by
  obtain ⟨v₁, w₁, hsim₁, hc₁, hw₁, haddr₁, hcall'⟩ := request_awaits hrun hreg hcall
    (hopen [] ls₂ s₁ rfl rfl)
  constructor
  · intro hkept
    -- Along the run the table has the record of the handle.
    have htable : Along step
        (fun _ t => ∃ v w, Sim t v ∧ v.Counted ∧ v.table ino = some w ∧ w.addr = fh) s₁ ls₂ := by
      refine along_history ⟨v₁, w₁, hsim₁, hc₁, hw₁, haddr₁⟩ ?_
      rintro ls l ls' t t' hls ht ⟨v, w, hsim, hc, hw, rfl⟩ hstep
      obtain ⟨v', w', -, hsim', hc', hw', haddr'⟩ := hsim.keeps hc hw hstep (hopen.next hls ht hstep)
      exact ⟨v', w', hsim', hc', hw', haddr'⟩
    refine ⟨?_, ?_⟩
    · rw [← hcall', ← hsim₁.awaits_iff hw₁, haddr₁]
      rcases hkept [] ls₂ s₁ rfl rfl with hp | ⟨_, _, _, _, heq, -⟩ | hpc
      · exact .inl hp
      · simp at heq
      · exact .inr hpc
    · intro ls l ls' t hls ht
      by_contra hnot
      rw [not_or, not_not] at hnot
      obtain ⟨hserved, hover⟩ := hnot
      obtain ⟨v, w, hsim, hc, hw, rfl⟩ := htable ls _ t hls ht
      -- The step has a next state, where the request is not kept.
      obtain ⟨t', hstep⟩ : ∃ t', step t l = some t' := by
        rw [hls, run_append_eq_some] at hrun₂
        obtain ⟨t₁, ht₁, hrest⟩ := hrun₂
        obtain rfl : t = t₁ := Option.some.inj (ht.symm.trans ht₁)
        obtain ⟨t', hstep, -⟩ := run_cons_eq_some.mp hrest
        exact ⟨t', hstep⟩
      obtain ⟨v', w', hv, hsim', hc', hw', haddr'⟩ := hsim.keeps hc hw hstep (hopen.next hls ht hstep)
      have hlost := hv.not_awaits hw hw' ((hsim.overwrites_iff hw l).mp hover)
      rw [← hsim'.awaits_iff hw', haddr'] at hlost
      rcases hkept.next hls ht hstep with hp | hs | hpc
      · exact hlost (.inl hp)
      · rcases (served_concat ht).mp hs with hs | ⟨rfl, -⟩
        · exact hserved hs
        · obtain ⟨-, ⟨r, env, hl, -⟩ | ⟨now, e, r, hl, -⟩⟩ := hover <;> simp at hl
      · exact hlost (.inr hpc)
  · rintro ⟨hnot, hover⟩
    have hawaits : Along step (fun ls t => ∃ v w, Sim t v ∧ v.Counted ∧ v.table ino = some w ∧
        w.addr = fh ∧ (Served s₁ ls ino ∨ v.Awaits ino w)) s₁ ls₂ := by
      refine along_history ⟨v₁, w₁, hsim₁, hc₁, hw₁, haddr₁, .inr (hcall'.mpr hnot)⟩ ?_
      rintro ls l ls' t t' hls ht ⟨v, w, hsim, hc, hw, rfl, hs⟩ hstep
      obtain ⟨v', w', hv, hsim', hc', hw', haddr'⟩ := hsim.keeps hc hw hstep (hopen.next hls ht hstep)
      refine ⟨v', w', hsim', hc', hw', haddr', ?_⟩
      rw [served_concat ht]
      by_cases hserved : Served s₁ ls ino ∨ l = .begetattr ∧ t.scan = .popped ino w.addr
      · exact .inl (hserved.imp_right fun h => ⟨h.1, _, h.2⟩)
      · rw [not_or] at hserved
        refine .inr (hv.awaits hw hw' (hs.resolve_left hserved.1) ?_ ?_)
        · rw [hsim.scan]
          exact hserved.2
        · rw [← hsim.overwrites_iff hw]
          exact (hover ls l ls' t hls ht).resolve_left hserved.1
    intro ls ls' t hls ht
    obtain ⟨v, w, hsim, -, hw, rfl, hserved | hawait⟩ := hawaits ls ls' t hls ht
    · exact .inr (.inl hserved)
    · rcases (hsim.awaits_iff hw).mpr hawait with hp | hpc
      · exact .inl hp
      · exact .inr (.inr hpc)

end Request

/-- A request on an idle file, and the scan that it causes. -/
theorem early_expiration_kept_iff_idle :
    ∃ s₀ s₁ s, run step init [.register 5 attrs (envAt 1)] = some s₀ ∧
      step s₀ (.expireNow 5 1 3) = some s₁ ∧ run step s₁ [.lock, .pop 0, .begetattr] = some s ∧
      (Along step (fun ls t => t.Pending 1 ∨ Served s₁ ls 5 ∨ t.scan = .popped 5 1) s₁
          [.lock, .pop 0, .begetattr] ↔
        ¬ s₀.Ignores 5 1 ∧ ∀ ls l ls' t, [.lock, .pop 0, .begetattr] = ls ++ l :: ls' →
          run step s₁ ls = some t → Served s₁ ls 5 ∨ ¬ t.Overwrites 5 1 l) := by
  have hopen : ∀ t : State, t.handles = [(5, 1)] → ∃ a, (5, a) ∈ t.handles := by
    intro t ht
    exact ⟨1, by simp [ht]⟩
  obtain ⟨s₀, s₁, s, hrun, hreg, hcall, hrun₂, halong⟩ : ∃ s₀ s₁ s,
      run step init [.register 5 attrs (envAt 1)] = some s₀ ∧ (5, 1) ∈ s₀.handles ∧
      step s₀ (.expireNow 5 1 3) = some s₁ ∧ run step s₁ [.lock, .pop 0, .begetattr] = some s ∧
      Along step (fun _ t => ∃ a, (5, a) ∈ t.handles) s₁ [.lock, .pop 0, .begetattr] :=
    ⟨_, _, _, rfl, by decide, rfl, rfl, along_cons rfl (hopen _ rfl) (along_cons rfl (hopen _ rfl)
      (along_cons rfl (hopen _ rfl) (along_nil (hopen _ rfl))))⟩
  exact ⟨s₀, s₁, s, hrun, hcall, hrun₂, early_expiration_kept_iff hrun hreg hcall hrun₂ halong⟩

/-! ## A request during a scan -/

/-- An inode is opened, and `scan` has called `begetattr` for it. -/
def scanUnderWay : List Label := [.register 5 attrs (envAt 1), .lock, .pop 2000000000, .begetattr]

/-- The scan ends: the attributes are as they were. -/
def scanEnds : List Label :=
  [.returned (some ⟨0, 0, 7, 2000000000⟩), .notify (some 7), .relock 2000000000 1, .pop 2000000000]

/-- A request that comes while `scan` waits for `begetattr` is lost: when the scan has ended the inode is not
due at once, and no `begetattr` has been started. -/
theorem early_expiration_lost :
    ¬ ∀ ls₁ ls₂ s₀ s₁ s ino fh entry, run step init ls₁ = some s₀ → (ino, fh) ∈ s₀.handles →
      step s₀ (.expireNow ino fh entry) = some s₁ → run step s₁ ls₂ = some s →
      Along step (fun _ t => ∃ a, (ino, a) ∈ t.handles) s₁ ls₂ → s.scan ≠ .popped ino fh →
      s.Pending fh ∨ Served s₁ ls₂ ino := by
  intro hclaim
  have hopen : ∀ t : State, t.handles = [(5, 1)] → ∃ a, (5, a) ∈ t.handles := by
    intro t ht
    exact ⟨1, by simp [ht]⟩
  rcases hclaim scanUnderWay scanEnds _ _ _ 5 1 3 rfl (by decide) rfl rfl
    (along_cons rfl (hopen _ rfl) (along_cons rfl (hopen _ rfl) (along_cons rfl (hopen _ rfl)
      (along_cons rfl (hopen _ rfl) (along_nil (hopen _ rfl)))))) (by decide) with
    ⟨p, hp, -, hkey⟩ | ⟨l, l', _, _, heq, -⟩
  · obtain rfl : p = ⟨1, 2750000000, 1⟩ := List.mem_singleton.mp hp
    exact absurd hkey (by decide)
  · have hmem : Label.begetattr ∈ scanEnds := heq ▸ by simp
    exact absurd hmem (by decide)

end Fs123.Scan
