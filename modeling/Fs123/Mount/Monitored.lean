import Fs123.Mount.OpenFileRep

/-!
# Which open files are monitored

An open inode is monitored while it has an entry in the queue. `scan` takes the entry out, and puts it back
unless the reply was an error. It leaves an inode with an error to the next `openfile_register`, so what holds
in every interleaving is that an open inode has an entry unless `scan` has given it up (`GivenUp`).
-/

namespace Fs123.Scan

open Cxx Transition

/-- The step opens the inode. -/
def Label.Opens (ino : Ino) (l : Label) : Prop := ∃ r env, l = .register ino r env ∧ r.eno = 0

/-- `scan` has taken the inode from the queue, and it has not been opened since. -/
def Taken (ls : List Label) (ino : Ino) (mi : Addr) : Prop :=
  ∃ ls₁ now ls₂ s₁, ls = ls₁ ++ .pop now :: ls₂ ∧ run step init (ls₁ ++ [.pop now]) = some s₁ ∧
    s₁.scan = .popped ino mi ∧ ∀ l ∈ ls₂, ¬ l.Opens ino

/-- `scan` has taken the inode from the queue and has then come to an error for it, and the inode has not
been opened since it was taken. -/
def GivenUp (ls : List Label) (ino : Ino) (mi : Addr) : Prop :=
  ∃ ls₁ now entry ls₂ s₁ r, ls = ls₁ ++ .relock now entry :: ls₂ ∧ run step init ls₁ = some s₁ ∧
    s₁.scan = .notified ino mi r ∧ r.eno ≠ 0 ∧ Taken ls₁ ino mi ∧ ∀ l ∈ ls₂, ¬ l.Opens ino

section Histories

variable {ls : List Label} {l : Label} {ino : Ino} {mi : Addr}

theorem Taken.concat (h : Taken ls ino mi) (hl : ¬ l.Opens ino) : Taken (ls ++ [l]) ino mi := by
  obtain ⟨ls₁, now, ls₂, s₁, rfl, hrun, hpc, hnot⟩ := h
  refine ⟨ls₁, now, ls₂ ++ [l], s₁, by simp, hrun, hpc, ?_⟩
  intro k hk
  rcases List.mem_append.mp hk with hk | hk
  · exact hnot k hk
  · rwa [List.mem_singleton.mp hk]

theorem GivenUp.concat (h : GivenUp ls ino mi) (hl : ¬ l.Opens ino) : GivenUp (ls ++ [l]) ino mi := by
  obtain ⟨ls₁, now, entry, ls₂, s₁, r, rfl, hrun, hpc, hr, htaken, hnot⟩ := h
  refine ⟨ls₁, now, entry, ls₂ ++ [l], s₁, r, by simp, hrun, hpc, hr, htaken, ?_⟩
  intro k hk
  rcases List.mem_append.mp hk with hk | hk
  · exact hnot k hk
  · rwa [List.mem_singleton.mp hk]

end Histories

/-- An open inode that is not in the queue is being scanned or has been given up. -/
def Monitored (ls : List Label) (v : Watches) : Prop :=
  ∀ ino w, v.table ino = some w → w.due = none →
    v.scan.held = some (ino, w.addr) ∧ Taken ls ino w.addr ∨ GivenUp ls ino w.addr

theorem update_eq_some {T : Table} {k ino : Ino} {w' : Option Watch} {w : Watch} :
    Function.update T k w' ino = some w ↔ ino = k ∧ w' = some w ∨ ino ≠ k ∧ T ino = some w := by
  by_cases h : ino = k
  · subst h
    simp
  · simp [h]

section Steps

variable {v v' : Watches} {l : Label} {ino : Ino} {w w' : Watch}

/-- How an inode comes to have no entry: it had none and was not opened, or `scan` takes it. -/
theorem Watches.Step.due_none (h : v.Step l v') (hw' : v'.table ino = some w') (hdue : w'.due = none) :
    (¬ l.Opens ino ∧ ∃ w, v.table ino = some w ∧ w.due = none ∧ w.addr = w'.addr) ∨
    (∃ now, l = .pop now) ∧ v'.scan = .popped ino w'.addr := by
  cases h with
  | registerError hr =>
    refine .inl ⟨?_, w', hw', hdue, rfl⟩
    rintro ⟨_, _, ⟨⟩, hr'⟩
    exact hr hr'
  | register hr _ _ =>
    rcases update_eq_some.mp hw' with ⟨rfl, hnew⟩ | ⟨hne, hnew⟩
    · obtain rfl := Option.some.inj hnew
      simp [Watch.register] at hdue
    · refine .inl ⟨?_, w', hnew, hdue, rfl⟩
      rintro ⟨_, _, ⟨⟩, _⟩
      exact hne rfl
  | releaseZero => exact .inl ⟨by simp [Label.Opens], w', hw', hdue, rfl⟩
  | @release T hs pc k w hw hmem =>
    refine .inl ⟨by simp [Label.Opens], ?_⟩
    rcases update_eq_some.mp hw' with ⟨rfl, hnew⟩ | ⟨hne, hnew⟩
    · obtain ⟨-, rfl⟩ := Watch.drop_eq_some.mp hnew
      exact ⟨w, hw, hdue, rfl⟩
    · exact ⟨w', hnew, hdue, rfl⟩
  | expireZero => exact .inl ⟨by simp [Label.Opens], w', hw', hdue, rfl⟩
  | @expireNow T hs pc k w entry hw hmem =>
    refine .inl ⟨by simp [Label.Opens], ?_⟩
    rcases update_eq_some.mp hw' with ⟨rfl, hnew⟩ | ⟨hne, hnew⟩
    · obtain rfl := Option.some.inj hnew
      exact ⟨w, hw, by simpa [Watch.expire] using hdue, rfl⟩
    · exact ⟨w', hnew, hdue, rfl⟩
  | lock => exact .inl ⟨by simp [Label.Opens], w', hw', hdue, rfl⟩
  | popNone _ => exact .inl ⟨by simp [Label.Opens], w', hw', hdue, rfl⟩
  | @pop T hs now k w t hw _ _ _ =>
    rcases update_eq_some.mp hw' with ⟨rfl, hnew⟩ | ⟨hne, hnew⟩
    · obtain rfl := Option.some.inj hnew
      exact .inr ⟨⟨now, rfl⟩, rfl⟩
    · exact .inl ⟨by simp [Label.Opens], w', hnew, hdue, rfl⟩
  | begetattr => exact .inl ⟨by simp [Label.Opens], w', hw', hdue, rfl⟩
  | returned => exact .inl ⟨by simp [Label.Opens], w', hw', hdue, rfl⟩
  | notify => exact .inl ⟨by simp [Label.Opens], w', hw', hdue, rfl⟩
  | @relock T hs k w r now entry hw hnow =>
    refine .inl ⟨by simp [Label.Opens], ?_⟩
    rcases update_eq_some.mp hw' with ⟨rfl, hnew⟩ | ⟨hne, hnew⟩
    · obtain ⟨u, hu, rfl⟩ := Option.map_eq_some_iff.mp hnew
      obtain ⟨-, rfl⟩ := Watch.drop_eq_some.mp hu
      split at hdue
      · next hr => exact ⟨w, hw, hdue, by rw [if_pos hr]⟩
      · simp at hdue
    · exact ⟨w', hnew, hdue, rfl⟩

/-- The scanning thread lets go of a record at the end of the loop body, with an error if there is no entry
afterwards. -/
theorem Watches.Step.lets_go (h : v.Step l v') (hheld : v.scan.held = some (ino, w'.addr))
    (hheld' : v'.scan.held ≠ some (ino, w'.addr)) (hw' : v'.table ino = some w') (hdue : w'.due = none) :
    ∃ now entry r, l = .relock now entry ∧ v.scan = .notified ino w'.addr r ∧ r.eno ≠ 0 := by
  cases h with
  | registerError _ | register _ _ _ | releaseZero | release _ _ | expireZero | expireNow _ _ | begetattr
  | returned | notify => exact absurd hheld hheld'
  | lock | popNone _ | pop _ _ _ _ => simp [Pc.held] at hheld
  | @relock T hs k w r now entry hw hnow =>
    obtain ⟨rfl, haddr⟩ := Prod.mk.inj (Option.some.inj hheld)
    refine ⟨now, entry, r, rfl, by rw [haddr], ?_⟩
    intro hr
    rcases update_eq_some.mp hw' with ⟨-, hnew⟩ | ⟨hne, -⟩
    · obtain ⟨u, -, rfl⟩ := Option.map_eq_some_iff.mp hnew
      simp [hr] at hdue
    · exact hne rfl

/-- While the scanning thread holds the record, the inode has no entry. -/
def Watches.Away (ino : Ino) (mi : Addr) (v : Watches) : Prop :=
  v.scan.held = some (ino, mi) → ∀ w, v.table ino = some w → w.due = none

/-- The inode has no entry, and the scanning thread does not hold its record. -/
def Watches.Lost (ino : Ino) (v : Watches) : Prop :=
  (∀ mi, v.scan.held ≠ some (ino, mi)) ∧ ∀ w, v.table ino = some w → w.due = none

/-- A step that changes an open inode and neither opens it nor is the end of a scan does not make an entry. -/
theorem update_due {T : Table} {k : Ino} {u w : Watch} {x : Option Watch} (hw : T k = some w)
    (hx : ∀ u, x = some u → w.due = none → u.due = none) (h : ∀ w, T ino = some w → w.due = none)
    (hu : Function.update T k x ino = some u) : u.due = none := by
  rcases update_eq_some.mp hu with ⟨rfl, hnew⟩ | ⟨-, hold⟩
  · exact hx u hnew (h w hw)
  · exact h u hold

theorem Watches.Away.step {mi : Addr} (h : v.Away ino mi) (hl : ¬ l.Opens ino) (hv : v.Step l v') :
    v'.Away ino mi := by
  cases hv with
  | registerError _ => exact h
  | @register T hs pc k r env hr _ _ =>
    intro hheld w hw
    rcases update_eq_some.mp hw with ⟨rfl, -⟩ | ⟨-, hold⟩
    · exact absurd ⟨r, env, rfl, hr⟩ hl
    · exact h hheld w hold
  | releaseZero => exact h
  | @release T hs pc k w hw hmem =>
    intro hheld u hu
    refine update_due hw ?_ (h hheld) hu
    intro u hdrop hdue
    obtain ⟨-, rfl⟩ := Watch.drop_eq_some.mp hdrop
    exact hdue
  | expireZero => exact h
  | @expireNow T hs pc k w entry hw hmem =>
    intro hheld u hu
    refine update_due hw ?_ (h hheld) hu
    rintro _ ⟨⟩ hdue
    simp [Watch.expire, hdue]
  | lock | popNone _ => exact fun hheld => absurd hheld (by simp [Pc.held])
  | @pop T hs now k w t _ _ _ _ =>
    intro hheld u hu
    obtain ⟨rfl, -⟩ := Prod.mk.inj (Option.some.inj hheld)
    rcases update_eq_some.mp hu with ⟨-, hnew⟩ | ⟨hne, -⟩
    · obtain rfl := Option.some.inj hnew
      rfl
    · exact absurd rfl hne
  | begetattr => exact h
  | returned => exact h
  | notify => exact h
  | relock _ _ => exact fun hheld => absurd hheld (by simp [Pc.held])

theorem Watches.Lost.step (h : v.Lost ino) (hl : ¬ l.Opens ino) (hv : v.Step l v') : v'.Lost ino := by
  cases hv with
  | registerError _ => exact h
  | @register T hs pc k r env hr _ _ =>
    refine ⟨h.1, ?_⟩
    intro w hw
    rcases update_eq_some.mp hw with ⟨rfl, -⟩ | ⟨-, hold⟩
    · exact absurd ⟨r, env, rfl, hr⟩ hl
    · exact h.2 w hold
  | releaseZero => exact h
  | @release T hs pc k w hw hmem =>
    refine ⟨h.1, fun u hu => update_due hw ?_ h.2 hu⟩
    intro u hdrop hdue
    obtain ⟨-, rfl⟩ := Watch.drop_eq_some.mp hdrop
    exact hdue
  | expireZero => exact h
  | @expireNow T hs pc k w entry hw hmem =>
    refine ⟨h.1, fun u hu => update_due hw ?_ h.2 hu⟩
    rintro _ ⟨⟩ hdue
    simp [Watch.expire, hdue]
  | lock => exact h
  | popNone _ => exact h
  | @pop T hs now k w t hw hdue _ _ =>
    -- An inode without an entry is not taken.
    have hne : k ≠ ino := by
      rintro rfl
      simp [h.2 w hw] at hdue
    refine ⟨fun mi hheld => hne (Prod.mk.inj (Option.some.inj hheld)).1, ?_⟩
    intro u hu
    rcases update_eq_some.mp hu with ⟨heq, -⟩ | ⟨-, hold⟩
    · exact absurd heq.symm hne
    · exact h.2 u hold
  | begetattr => exact h
  | returned => exact h
  | notify => exact h
  | @relock T hs k w r now entry hw hnow =>
    refine ⟨by simp [Pc.held], ?_⟩
    intro u hu
    rcases update_eq_some.mp hu with ⟨rfl, -⟩ | ⟨-, hold⟩
    · exact absurd rfl (h.1 w.addr)
    · exact h.2 u hold

/-- An error at the end of a scan leaves the inode without an entry. -/
theorem Watches.Away.relock {T : Table} {hs : List (Ino × Addr)} {mi : Addr} {r : Begetattr}
    {now : TimePoint} {entry : Addr} (h : Away ino mi ⟨T, hs, .notified ino mi r⟩) (hr : r.eno ≠ 0)
    (hv : Step ⟨T, hs, .notified ino mi r⟩ (.relock now entry) v') : v'.Lost ino := by
  cases hv with
  | @relock _ _ _ w _ _ _ hw _ =>
    refine ⟨by simp [Pc.held], fun u hu => update_due hw ?_ (h rfl) hu⟩
    intro u hu hdue
    obtain ⟨v, hv, rfl⟩ := Option.map_eq_some_iff.mp hu
    obtain ⟨-, rfl⟩ := Watch.drop_eq_some.mp hv
    rw [if_pos hr]
    exact hdue

end Steps

/-- A step keeps the account of the inodes that have no entry. -/
theorem Monitored.step {ls : List Label} {s s' : State} {v v' : Watches} {l : Label}
    (h : Monitored ls v) (hrun : run step init ls = some s) (hsim : Sim s v) (hstep : step s l = some s')
    (hv : v.Step l v') (hsim' : Sim s' v') : Monitored (ls ++ [l]) v' := by
  intro ino w' hw' hdue
  rcases hv.due_none hw' hdue with ⟨hnot, w, hw, hdue', haddr⟩ | ⟨⟨now, rfl⟩, hpc⟩
  · rw [← haddr]
    rcases h ino w hw hdue' with ⟨hheld, htaken⟩ | hgiven
    · by_cases hheld' : v'.scan.held = some (ino, w'.addr)
      · exact .inl ⟨haddr ▸ hheld', htaken.concat hnot⟩
      · obtain ⟨now, entry, r, rfl, hpc, hr⟩ := hv.lets_go (haddr ▸ hheld) hheld' hw' hdue
        rw [hsim.scan] at hpc
        exact .inr ⟨ls, now, entry, [], s, r, rfl, hrun, haddr ▸ hpc, hr, htaken, by simp⟩
    · exact .inr (hgiven.concat hnot)
  · refine .inl ⟨by rw [hpc]; rfl, ls, now, [], s', rfl, ?_, hsim'.scan ▸ hpc, by simp⟩
    exact run_concat_eq_some.mpr ⟨s, hrun, hstep⟩

theorem monitored {ls : List Label} {s : State} (h : run step init ls = some s) :
    ∃ v : Watches, Sim s v ∧ v.Counted ∧ Monitored ls v := by
  apply run_history (P := fun ls s => ∃ v : Watches, Sim s v ∧ v.Counted ∧ Monitored ls v) _ _ h
  · exact ⟨_, Sim.init, Watches.Counted.init, by simp [Monitored]⟩
  · rintro ls s l s' hrun ⟨v, hsim, hc, hm⟩ hstep
    obtain ⟨v', hv, hsim', hc'⟩ := hsim.step_of hc hstep
    exact ⟨v', hsim', hc', hm.step hrun hsim hstep hv hsim'⟩

/-- What steps on the table keep holds at the end of a run that takes no other steps. -/
theorem run_watches {P : Watches → Prop} {Q : Label → Prop}
    (hkeep : ∀ v l v', P v → Q l → v.Step l v' → P v') {s s' : State} {v : Watches} {ls : List Label}
    (hsim : Sim s v) (hc : v.Counted) (hP : P v) (hls : ∀ l ∈ ls, Q l) (h : run step s ls = some s') :
    ∃ v' : Watches, Sim s' v' ∧ v'.Counted ∧ P v' := by
  apply run_invariant_of (P := fun s => ∃ v : Watches, Sim s v ∧ v.Counted ∧ P v) ⟨v, hsim, hc, hP⟩ _
    hls h
  rintro s l s' ⟨v, hsim, hc, hP⟩ hQ hstep
  obtain ⟨v', hv, hsim', hc'⟩ := hsim.step_of hc hstep
  exact ⟨v', hsim', hc', hkeep v l v' hP hQ hv⟩

/-- An inode that has been given up has no entry. -/
theorem GivenUp.lost {ls : List Label} {s : State} {ino : Ino} {mi : Addr} (hg : GivenUp ls ino mi)
    (h : run step init ls = some s) : ∃ v : Watches, Sim s v ∧ v.Counted ∧ v.Lost ino := by
  obtain ⟨_, now, entry, ls₂, s₁, r, rfl, hrun₁, hpc, hr, ⟨ls₀, now₀, ls₁, -, rfl, -, -, hnot₁⟩, hnot₂⟩ := hg
  obtain ⟨t, hrun₀, htail⟩ := run_append_eq_some.mp hrun₁
  obtain ⟨v, hsim, hc⟩ := reached hrun₀
  -- The scan begins at the loop head, where the thread holds nothing.
  have haway : v.Away ino mi := by
    obtain ⟨s₀, hpop, -⟩ := run_cons_eq_some.mp htail
    obtain ⟨v₀, hv, -, -⟩ := hsim.step_of hc hpop
    cases hv <;> exact fun hheld => absurd hheld (by simp [Pc.held])
  have hnot : ∀ l ∈ Label.pop now₀ :: ls₁, ¬ l.Opens ino := by
    intro l hl
    rcases List.mem_cons.mp hl with rfl | hl
    · simp [Label.Opens]
    · exact hnot₁ l hl
  obtain ⟨v₁, hsim₁, hc₁, haway₁⟩ := run_watches (fun _ _ _ hP hQ hv => Watches.Away.step hP hQ hv)
    hsim hc haway hnot htail
  obtain ⟨s₁', hs₁', hrest⟩ := run_append_eq_some.mp h
  obtain rfl : s₁ = s₁' := by simpa [hrun₁] using hs₁'
  obtain ⟨s₂, hrelock, htail₂⟩ := run_cons_eq_some.mp hrest
  obtain ⟨v₂, hv₂, hsim₂, hc₂⟩ := hsim₁.step_of hc₁ hrelock
  have hlost : v₂.Lost ino := by
    obtain ⟨T, hs, pc⟩ := v₁
    obtain rfl : pc = .notified ino mi r := hsim₁.scan.trans hpc
    exact haway₁.relock hr hv₂
  exact run_watches (fun _ _ _ hP hQ hv => Watches.Lost.step hP hQ hv) hsim₂ hc₂ hlost hnot₂ htail₂

/-- The queue has an entry for an open inode when the inode is due at some time. -/
theorem Sim.entry_iff {s : State} {v : Watches} {ino : Ino} {w : Watch} (h : Sim s v)
    (hw : v.table ino = some w) (t : TimePoint) :
    (∃ p ∈ s.files.ofpq.nodes, p.val = w.addr ∧ p.key = t) ↔ w.due = some t := by
  obtain ⟨q, -, hq⟩ := h.rep.stored ino w hw
  constructor
  · rintro ⟨p, hp, haddr, rfl⟩
    obtain ⟨t, hdue, rfl⟩ := Option.map_eq_some_iff.mp ((hq p).mp ⟨hp, haddr⟩)
    exact hdue
  · intro hdue
    have hp := (hq ⟨q, t, w.addr⟩).mpr (by simp [Watch.entry, hdue])
    exact ⟨_, hp.1, rfl, rfl⟩

/-- In every interleaving, an inode that has handles and that the scanning thread does not hold has an entry
in the queue, unless the thread has given it up; and then it has none. -/
theorem open_monitored_iff {ls : List Label} {s : State} {ino : Ino} {fh : Addr}
    (h : run step init ls = some s) (hopen : (ino, fh) ∈ s.handles)
    (hscan : s.scan.held ≠ some (ino, fh)) :
    (∃ p ∈ s.files.ofpq.nodes, p.val = fh) ↔ ¬ GivenUp ls ino fh := by
  constructor
  · rintro ⟨p, hp, haddr⟩ hgiven
    obtain ⟨v, hsim, hc, hlost⟩ := hgiven.lost h
    obtain ⟨w, hw, rfl⟩ := hsim.registered hc hopen
    have hdue := (hsim.entry_iff hw p.key).mp ⟨p, hp, haddr, rfl⟩
    simp [hlost.2 w hw] at hdue
  · intro hgiven
    obtain ⟨v, hsim, hc, hm⟩ := monitored h
    obtain ⟨w, hw, rfl⟩ := hsim.registered hc hopen
    obtain hdue | ⟨t, hdue⟩ := Option.eq_none_or_eq_some w.due
    · rcases hm ino w hw hdue with ⟨hheld, -⟩ | hgiven'
      · exact absurd (hsim.scan ▸ hheld) hscan
      · exact absurd hgiven' hgiven
    · obtain ⟨p, hp, haddr, -⟩ := (hsim.entry_iff hw t).mpr hdue
      exact ⟨p, hp, haddr⟩

/-- Attributes that expire at 1000 ns. -/
def attrs : Begetattr := ⟨0, 0, 7, 1000⟩

/-- The clock stands still, and the allocator hands out node `a`. -/
def envAt (a : Addr) : RegisterEnv := ⟨0, 0, a, a, a⟩

/-- An inode is opened, and the first scan of it ends with an error. -/
def failedScan : List Label :=
  [.register 5 attrs (envAt 1), .lock, .pop 2000000000, .begetattr, .returned none, .notify none,
    .relock 2000000000 1, .pop 2000000000]

/-- An open inode need not have an entry in the queue: after a scan that ends with an error it has none, when
the lock is free and no scan is going on. -/
theorem not_always_monitored :
    ¬ ∀ ls s ino fh, run step init ls = some s → s.scan ≠ .head → (ino, fh) ∈ s.handles →
      s.scan.held ≠ some (ino, fh) → ∃ p ∈ s.files.ofpq.nodes, p.val = fh := by
  intro hclaim
  obtain ⟨p, hp, -⟩ := hclaim failedScan _ 5 1 rfl (by decide) (by decide) (by decide)
  exact absurd hp (List.not_mem_nil (a := p))

/-- Another open puts the inode back into the queue. -/
theorem open_monitored_iff_reopened :
    ∃ s, run step init (failedScan ++ [.register 5 attrs (envAt 2)]) = some s ∧
      ((∃ p ∈ s.files.ofpq.nodes, p.val = 1) ↔
        ¬ GivenUp (failedScan ++ [.register 5 attrs (envAt 2)]) 5 1) :=
  ⟨_, rfl, open_monitored_iff rfl (by decide) (by decide)⟩

end Fs123.Scan
