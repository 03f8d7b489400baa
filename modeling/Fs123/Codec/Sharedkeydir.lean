import Fs123.Codec.SharedkeyFiles
import Fs123.Core.ReadThrough

/-!
# Shared-key directories

The model of `lib/sharedkeydir.cpp`: the secrets and the indirect names of one directory, each behind a cache that is
filled on demand, while any number of threads use them and the files change. A step in which a thread refreshes an
entry carries the directory as it is at that moment.

`sharedkeydir_serves`: only files of the directory itself are opened, and whatever is returned is what the right file
said when some call read it; it is not returned from the cache for longer than the refresh time.
-/

namespace Fs123

open Cxx ReadThrough Transition

/-- What `openat` and `read` make of each name: the contents of the file, or an exception. -/
abbrev KeyFiles := Bytes → Res Bytes

namespace Sharedkeydir

/-- `get_sharedkey(sid)`. A `secret_sp` can be null. -/
def secretUse (refreshTime : ℤ) : Use Bytes (Option Bytes) KeyFiles where
  legal := legalSid
  refresh sid files := (refreshSecret sid files).map some
  ttl := refreshTime

/-- `get_indirect_sid(name)`. -/
def indirectUse (refreshTime : ℤ) : Use Bytes Bytes KeyFiles where
  legal := legalSid
  refresh := refreshIndirect
  ttl := refreshTime

/-- The members of a `sharedkeydir`, with the calls in progress. `refresh_time` is in nanoseconds. -/
structure State where
  encodeSidIndirect : Bytes
  refreshTime : ℤ
  secrets : ReadThrough.State Bytes (Option Bytes)
  indirects : ReadThrough.State Bytes Bytes

/-- `sharedkeydir(dirfd, encode_sid_indirect, refresh_sec)`. -/
def construct (encodeSidIndirect : Bytes) (refreshSec : ℕ) : Res State :=
  if ¬ legalSid encodeSidIndirect then
    throwE .runtimeError (bytes "sharedkeydir::sharedkeydir:  encode_sid_indirect: '" ++ encodeSidIndirect
      ++ bytes "' is not a legal sid name.")
  else .ok ⟨encodeSidIndirect, refreshSec * 10 ^ 9, init 10, init 10⟩

/-- `regular_maintenance` is an `eraseExpired` of each cache. -/
inductive Label where
  /-- A thread in `get_sharedkey`. -/
  | secret (l : ReadThrough.Label Bytes (Option Bytes) KeyFiles)
  /-- A thread in `get_indirect_sid`. -/
  | indirect (l : ReadThrough.Label Bytes Bytes KeyFiles)

/-- `get_encode_sid()`. -/
def encodeSid (s : State) (now now' : TimePoint) : Label := .indirect (.get s.encodeSidIndirect now now')

namespace Label

def secret? : Label → Option (ReadThrough.Label Bytes (Option Bytes) KeyFiles)
  | secret l => some l
  | indirect _ => none

def indirect? : Label → Option (ReadThrough.Label Bytes Bytes KeyFiles)
  | secret _ => none
  | indirect l => some l

/-- The name that is given to `openat`. -/
def opened : Label → Option Bytes
  | secret (.refresh sid _) => some (sid ++ suffix)
  | indirect (.refresh name _) => some (name ++ bytes ".keyid")
  | _ => none

end Label

def step (s : State) : Label → Option State
  | .secret l => (ReadThrough.step (secretUse s.refreshTime) s.secrets l).map fun secrets => { s with secrets }
  | .indirect l => (ReadThrough.step (indirectUse s.refreshTime) s.indirects l).map fun indirects =>
    { s with indirects }

/-- The secret that a step returns from `get_sharedkey(sid)`. -/
def returnedSecret (s : State) (l : Label) : Option (Bytes × Option Bytes) :=
  l.secret?.bind (returned (secretUse s.refreshTime) s.secrets)

/-- The sid that a step returns from `get_indirect_sid(name)`. -/
def returnedSid (s : State) (l : Label) : Option (Bytes × Bytes) :=
  l.indirect?.bind (returned (indirectUse s.refreshTime) s.indirects)

variable {s s₀ t : State} {l : Label} {ls : List Label} {name : Bytes} {refreshSec : ℕ}

/-! ## The two caches -/

/-- A run of the directory is a run of each cache. -/
structure Runs (name : Bytes) (refreshSec : ℕ) (ls : List Label) (s : State) : Prop where
  encodeSidIndirect : s.encodeSidIndirect = name
  refreshTime : s.refreshTime = refreshSec * 10 ^ 9
  secrets : run (ReadThrough.step (secretUse s.refreshTime)) (init 10) (ls.filterMap Label.secret?) = some s.secrets
  indirects : run (ReadThrough.step (indirectUse s.refreshTime)) (init 10) (ls.filterMap Label.indirect?)
    = some s.indirects

theorem construct_ok (h : construct name refreshSec = .ok s) : legalSid name = true ∧ Runs name refreshSec [] s := by
  unfold construct at h
  split at h
  · exact absurd h (throwE_ne_ok _ _ _)
  · next hlegal =>
    obtain rfl := Except.ok.inj h
    exact ⟨not_not.mp hlegal, rfl, rfl, rfl, rfl⟩

theorem Runs.step (h : Runs name refreshSec ls s) (hstep : step s l = some t) :
    Runs name refreshSec (ls ++ [l]) t := by
  cases l with
  | secret l =>
    obtain ⟨secrets, hsecrets, rfl⟩ := Option.map_eq_some_iff.mp hstep
    refine ⟨h.encodeSidIndirect, h.refreshTime, ?_, ?_⟩
    · rw [List.filterMap_append]
      exact run_concat_eq_some.mpr ⟨_, h.secrets, hsecrets⟩
    · rw [List.filterMap_append, List.filterMap_cons_none rfl, List.filterMap_nil, List.append_nil]
      exact h.indirects
  | indirect l =>
    obtain ⟨indirects, hindirects, rfl⟩ := Option.map_eq_some_iff.mp hstep
    refine ⟨h.encodeSidIndirect, h.refreshTime, ?_, ?_⟩
    · rw [List.filterMap_append, List.filterMap_cons_none rfl, List.filterMap_nil, List.append_nil]
      exact h.secrets
    · rw [List.filterMap_append]
      exact run_concat_eq_some.mpr ⟨_, h.indirects, hindirects⟩

theorem Runs.of_run (h₀ : Runs name refreshSec [] s₀) (hrun : run Sharedkeydir.step s₀ ls = some s) :
    Runs name refreshSec ls s :=
  run_history (P := fun ls s => Runs name refreshSec ls s) h₀ (fun _ _ _ _ _ h hl => h.step hl) hrun

/-! ## What is opened -/

/-- A name that leads to an entry of the directory itself, and not to the directory or its parent. -/
structure Inside (name : Bytes) : Prop where
  ne_nil : name ≠ []
  no_dot : name.head? ≠ some (ch '.')
  no_slash : ch '/' ∉ name
  no_nul : 0 ∉ name
  length_le : name.length ≤ 265

theorem legalSid_spec {sid : Bytes} (h : legalSid sid = true) : sid ≠ [] ∧ sid.length ≤ 255
    ∧ sid.head? ≠ some (ch '.') ∧ ∀ c ∈ sid, (isalnum c || c = ch '_' || c = ch '-' || c = ch '.') = true := by
  unfold legalSid at h
  split at h
  · cases h
  next hne =>
  split at h
  · cases h
  next hlen =>
  split at h
  · cases h
  next hdot => exact ⟨fun hnil => hne (by rw [hnil]; rfl), not_lt.mp hlen, hdot, List.all_eq_true.mp h⟩

theorem inside_of_legalSid {sid ending : Bytes} (h : legalSid sid = true) (hlen : ending.length ≤ 10)
    (hslash : ch '/' ∉ ending) (hnul : 0 ∉ ending) : Inside (sid ++ ending) := by
  obtain ⟨hne, hle, hdot, hall⟩ := legalSid_spec h
  obtain ⟨c, rest, rfl⟩ := List.exists_cons_of_ne_nil hne
  have habsent : ∀ b, (isalnum b || b = ch '_' || b = ch '-' || b = ch '.') = false → b ∉ ending →
      b ∉ c :: rest ++ ending := by
    intro b hb hend hmem
    rcases List.mem_append.mp hmem with hmem | hmem
    · rw [hall b hmem] at hb
      cases hb
    · exact hend hmem
  refine ⟨List.cons_ne_nil _ _, hdot, habsent _ (by decide) hslash, habsent _ (by decide) hnul, ?_⟩
  rw [List.length_append]
  omega

theorem Runs.opened (h : Runs name refreshSec ls s) (hstep : Sharedkeydir.step s l = some t) {path : Bytes}
    (hopened : l.opened = some path) : Inside path := by
  cases l with
  | secret l =>
    obtain ⟨secrets, hsecrets, rfl⟩ := Option.map_eq_some_iff.mp hstep
    cases l with
    | refresh sid files =>
      obtain rfl := Option.some.inj hopened
      exact inside_of_legalSid (run_refreshes h.secrets hsecrets) (by decide) (by decide) (by decide)
    | get _ _ _ => cases hopened
    | insert _ _ _ _ => cases hopened
    | eraseExpired _ => cases hopened
  | indirect l =>
    obtain ⟨indirects, hindirects, rfl⟩ := Option.map_eq_some_iff.mp hstep
    cases l with
    | refresh sid files =>
      obtain rfl := Option.some.inj hopened
      exact inside_of_legalSid (run_refreshes h.indirects hindirects) (by decide) (by decide) (by decide)
    | get _ _ _ => cases hopened
    | insert _ _ _ _ => cases hopened
    | eraseExpired _ => cases hopened

/-! ## What is returned -/

/-- What was found for a sid stood in its file. -/
theorem found_secret {refreshTime : ℤ} {ls : List (ReadThrough.Label Bytes (Option Bytes) KeyFiles)} {sid : Bytes}
    {key : Option Bytes} (h : Found (secretUse refreshTime) ls sid key) : ∃ secret files contents, key = some secret
      ∧ .refresh sid files ∈ ls ∧ files (sid ++ suffix) = .ok contents ∧ contents.length ≤ 1024
      ∧ HexText keyIgnore contents secret := by
  obtain ⟨-, files, hmem, hfound⟩ := h
  rcases hsecret : refreshSecret sid files with e | secret
  · simp [secretUse, hsecret, Except.map] at hfound
  · obtain ⟨-, contents, hfile, hlen, htext⟩ := refreshSecret_eq_ok_iff.mp hsecret
    simp only [secretUse, hsecret, Except.map, Except.ok.injEq] at hfound
    exact ⟨secret, files, contents, hfound.symm, hmem, hfile, hlen, htext⟩

/-- What was found for a name stood in its file, and can name a secret. -/
theorem found_sid {refreshTime : ℤ} {ls : List (ReadThrough.Label Bytes Bytes KeyFiles)} {ind sid : Bytes}
    (h : Found (indirectUse refreshTime) ls ind sid) : legalSid sid = true ∧ ∃ files contents,
      .refresh ind files ∈ ls ∧ files (ind ++ bytes ".keyid") = .ok contents ∧ sid = firstWord contents := by
  obtain ⟨-, files, hmem, hfound⟩ := h
  obtain ⟨-, hlegal, contents, hfile, hword⟩ := refreshIndirect_eq_ok_iff.mp hfound
  exact ⟨hlegal, files, contents, hmem, hfile, hword⟩

theorem mem_secrets {k : ReadThrough.Label Bytes (Option Bytes) KeyFiles}
    (h : k ∈ ls.filterMap Label.secret?) : .secret k ∈ ls := by
  obtain ⟨l | l, hl, hk⟩ := List.mem_filterMap.mp h
  · obtain rfl := Option.some.inj hk
    exact hl
  · cases hk

theorem mem_indirects {k : ReadThrough.Label Bytes Bytes KeyFiles}
    (h : k ∈ ls.filterMap Label.indirect?) : .indirect k ∈ ls := by
  obtain ⟨l | l, hl, hk⟩ := List.mem_filterMap.mp h
  · cases hk
  · obtain rfl := Option.some.inj hk
    exact hl

/-- In every run of a `sharedkeydir`, whatever the threads do and however the files change: only names inside the
directory are opened. A secret that is returned for a sid is what the `.sharedkey` file of that sid said when a call
read it, and a sid that is returned for a name is the first word of the `.keyid` file of that name and can itself name
a secret. What is returned from a cache was inserted there no more than the refresh time before. -/
theorem sharedkeydir_serves (hnew : construct name refreshSec = .ok s₀) (hrun : run step s₀ ls = some s)
    (hstep : step s l = some t) : (∀ path, l.opened = some path → Inside path)
    ∧ (∀ sid key, returnedSecret s l = some (sid, key) → ∃ secret files contents, key = some secret
      ∧ .secret (.refresh sid files) ∈ ls ∧ files (sid ++ suffix) = .ok contents ∧ contents.length ≤ 1024
      ∧ HexText keyIgnore contents secret
      ∧ ∀ now now', l = .secret (.get sid now now') → ∃ then', now ≤ then' + refreshSec * 10 ^ 9
        ∧ Inserted (secretUse s.refreshTime) (ls.filterMap Label.secret?) sid key then')
    ∧ ∀ ind sid, returnedSid s l = some (ind, sid) → legalSid sid = true ∧ ∃ files contents,
      .indirect (.refresh ind files) ∈ ls ∧ files (ind ++ bytes ".keyid") = .ok contents ∧ sid = firstWord contents
      ∧ ∀ now now', l = .indirect (.get ind now now') → ∃ then', now ≤ then' + refreshSec * 10 ^ 9
        ∧ Inserted (indirectUse s.refreshTime) (ls.filterMap Label.indirect?) ind sid then' := by
  have h := Runs.of_run (construct_ok hnew).2 hrun
  refine ⟨fun path hpath => h.opened hstep hpath, ?_, ?_⟩
  · intro sid key hret
    cases l with
    | indirect l => cases hret
    | secret l =>
      obtain ⟨secrets, hsecrets, -⟩ := Option.map_eq_some_iff.mp hstep
      obtain ⟨hfound, hfresh⟩ := run_serves h.secrets hsecrets hret
      obtain ⟨secret, files, contents, hkey, hmem, hfile, hlen, htext⟩ := found_secret hfound
      refine ⟨secret, files, contents, hkey, mem_secrets hmem, hfile, hlen, htext, ?_⟩
      intro now now' hl
      obtain ⟨then', hinserted, hnow⟩ := hfresh now now' (Label.secret.inj hl)
      exact ⟨then', h.refreshTime ▸ hnow, hinserted⟩
  · intro ind sid hret
    cases l with
    | secret l => cases hret
    | indirect l =>
      obtain ⟨indirects, hindirects, -⟩ := Option.map_eq_some_iff.mp hstep
      obtain ⟨hfound, hfresh⟩ := run_serves h.indirects hindirects hret
      obtain ⟨hlegal, files, contents, hmem, hfile, hword⟩ := found_sid hfound
      refine ⟨hlegal, files, contents, mem_indirects hmem, hfile, hword, ?_⟩
      intro now now' hl
      obtain ⟨then', hinserted, hnow⟩ := hfresh now now' (Label.indirect.inj hl)
      exact ⟨then', h.refreshTime ▸ hnow, hinserted⟩

/-! ## A run -/

/-- The encoding sid is found and its secret read. -/
def firstUse : List Label :=
  [.indirect (.get (bytes "current") 0 0),
    .indirect (.refresh (bytes "current") fun _ => .ok (bytes "k1\n")),
    .indirect (.insert (bytes "current") (bytes "k1") 1 []),
    .secret (.get (bytes "k1") 2 2),
    .secret (.refresh (bytes "k1") fun _ => .ok (bytes "0aff")),
    .secret (.insert (bytes "k1") (some [10, 255]) 3 [])]

/-- The secret comes from the cache. -/
def secondUse : Label := .secret (.get (bytes "k1") 60000000003 60000000003)

theorem sharedkeydir_serves_secondUse : ∃ s₀ s t, construct (bytes "current") 60 = .ok s₀
    ∧ run step s₀ firstUse = some s ∧ step s secondUse = some t
    ∧ returnedSecret s secondUse = some (bytes "k1", some [10, 255])
    ∧ ∃ contents, contents.length ≤ 1024 ∧ HexText keyIgnore contents [10, 255] := by
  have hobs : ((construct (bytes "current") 60).toOption.bind fun s₀ => (run step s₀ firstUse).bind fun s =>
      (step s secondUse).bind fun _ => returnedSecret s secondUse) = some (bytes "k1", some [10, 255]) := by
    decide +kernel
  obtain ⟨s₀, hnew, hobs⟩ := Option.bind_eq_some_iff.mp hobs
  obtain ⟨s, hrun, hobs⟩ := Option.bind_eq_some_iff.mp hobs
  obtain ⟨t, hstep, hret⟩ := Option.bind_eq_some_iff.mp hobs
  have hnew : construct (bytes "current") 60 = .ok s₀ := by
    rcases hc : construct (bytes "current") 60 with e | s₁
    · rw [hc] at hnew
      cases hnew
    · rw [hc] at hnew
      exact congrArg Except.ok (Option.some.inj hnew)
  obtain ⟨-, hsecret, -⟩ := sharedkeydir_serves hnew hrun hstep
  obtain ⟨secret, _, contents, hkey, _, _, hlen, htext, -⟩ := hsecret _ _ hret
  obtain rfl := Option.some.inj hkey
  exact ⟨s₀, s, t, hnew, hrun, hstep, hret, contents, hlen, htext⟩

end Sharedkeydir

end Fs123
