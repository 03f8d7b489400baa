import Fs123.Core.Exn
import Fs123.Core.Expiring
import Fs123.Core.ScanInt
import Fs123.Core.Stat

/-!
# Cache-control rules

The model of `exportd_cc_rules.cpp` and of `exportd_handler::cache_control`. The directories from that of a
path up to the export root are searched for a rules file; what is found is cached for every directory on the
way. `RuleEnv` has what the world answers: the readings of the clock, what a rules file holds, which entries
the cache evicts. Each answer is given for the number of answers before it, so it may change from one to the
next.
-/

namespace Fs123

open Cxx

/-- `pathsplit(p)`. -/
def pathsplit (p : Bytes) : Bytes × Bytes :=
  match findLastOf (ch '/') p with
  | none => ([], p)
  | some last => (p.take last, p.drop (last + 1))

theorem pathsplit_length_lt {p : Bytes} (h : p ≠ []) : (pathsplit p).1.length < p.length := by
  unfold pathsplit
  split
  · exact List.length_pos_of_ne_nil h
  · next last hlast =>
    have hlt : last < p.length := by
      obtain ⟨i, hi, hlt⟩ := findLastOf_of_mem (c := ch '/') (a := p) (by
        rw [(findLastOf_eq_some hlast).1]
        simp)
      rwa [← Option.some.inj (hlast.symm.trans hi)] at hlt
    rw [List.length_take]
    omega

/-- `rerule`. -/
structure Rerule where
  re : Bytes
  cc : Bytes
  deriving Repr, DecidableEq

/-- `ruleset`. -/
structure Ruleset where
  rerules : List Rerule
  cc : Bytes
  deriving Repr, DecidableEq

/-- `exruleset_sp`: an expiring pointer, which may be null. -/
abbrev ExRuleset := Expiring (Option Ruleset)

/-- What `openat` and the JSON parser make of a rules file. -/
inductive Rulesfile where
  /-- `openat` fails. -/
  | errno (eno : ℤ)
  /-- The parser or a regular expression in the file throws. -/
  | corrupt (e : Exn)
  /-- The rules, with the `rulesfile-maxage`, in seconds, if there is one. -/
  | rules (maxage : Option ℤ) (rules : Ruleset)
  deriving Repr, DecidableEq

/-- What the world answers. -/
structure RuleEnv where
  clock : ℕ → TimePoint
  rulesfile : ℕ → Bytes → Rulesfile
  evicted : ℕ → List Bytes
  /-- `std::regex_match(s, re)`. -/
  regexMatch : Bytes → Bytes → Res Bool
  /-- `time(nullptr)`. -/
  time : ℕ → ℤ

/-- `cc_rule_cache`: the cache, and the constants that its constructor sets. -/
structure CcRuleCache where
  excache : Expiring.Cache Bytes (Option Ruleset)
  defaultTtl : ℤ
  fallbackCc : ExRuleset

/-- The rule cache, the number of answers of the world so far, and the names that `openat` was called
with. -/
structure RuleState where
  cache : CcRuleCache
  ticks : ℕ
  opened : List Bytes

/-- The members of the rule cache. -/
abbrev RuleM := EStateM Fault RuleState

/-- Nanoseconds. -/
def seconds (n : ℤ) : ℤ := n * 1000000000

namespace RuleEnv

variable (env : RuleEnv)

/-- `clk_t::now()`. -/
def now : RuleM TimePoint := modifyGet fun s => (env.clock s.ticks, { s with ticks := s.ticks + 1 })

/-- `excache.lookup(path)`. -/
def lookup (path : Bytes) : RuleM ExRuleset := do
  let asifnow ← env.now
  modifyGet fun s =>
    let (v, excache) := s.cache.excache.lookup path asifnow
    (v, { s with cache := { s.cache with excache := excache } })

/-- `excache.insert(path, v)`. -/
def insert (path : Bytes) (v : ExRuleset) : RuleM Unit :=
  modify fun s => { s with
    cache := { s.cache with excache := s.cache.excache.insert path v (env.evicted s.ticks) }
    ticks := s.ticks + 1 }

/-- `tentative && !tentative.expired()`. -/
def live (tentative : ExRuleset) : RuleM Bool :=
  match tentative.val with
  | none => pure false
  | some _ => do
    let asifnow ← env.now
    pure (!tentative.expired asifnow)

/-- `read_cc_rulesfile(relpath)`. -/
def readCcRulesfile (relpath : Bytes) : RuleM ExRuleset := do
  let file ← modifyGet fun s => (env.rulesfile s.ticks (cstr relpath),
    { s with ticks := s.ticks + 1, opened := s.opened ++ [cstr relpath] })
  match file with
  | .errno eno =>
    if eno = 2 ∨ eno = 20 then pure default
    else throw (.throws ⟨⟨.systemError .system eno, bytes "read_cc_rulesfile(" ++ relpath ++ bytes ")"⟩, []⟩)
  | .corrupt e => throw (.throws e)
  | .rules maxage rules => do
    let asifnow ← env.now
    let s ← get
    pure ⟨some rules, asifnow + seconds (maxage.getD s.cache.defaultTtl)⟩

/-- The name of the rules file of a directory. -/
def rulesfileName (path : Bytes) : Bytes :=
  if path = [] then bytes ".fs123_cc_rules" else path ++ bytes "/.fs123_cc_rules"

/-- `fallback_cc`. -/
def fallback : RuleM ExRuleset := do
  let s ← get
  pure s.cache.fallbackCc

/-- `get_cc_rules_recursive(path)`. An exception from a rules file counts as no file. -/
def getCcRulesRecursive (path : Bytes) : RuleM ExRuleset := do
  let tentative ← env.lookup path
  if ← env.live tentative then
    pure tentative
  else
    let ret ← tryCatch (env.readCcRulesfile (rulesfileName path)) fun _ => pure default
    if ret.val.isSome then
      env.insert path ret
      pure ret
    else
      let ret ← (if _h : path = [] then fallback else getCcRulesRecursive (pathsplit path).1 : RuleM ExRuleset)
      env.insert path ret
      pure ret
termination_by path.length
decreasing_by exact pathsplit_length_lt ‹_›

/-- The first rule whose regular expression matches, else the default of the set. -/
def matchRules (pathInfo : Bytes) (cc : Bytes) : List Rerule → Res Bytes
  | [] => .ok cc
  | rer :: rest => do
    if ← env.regexMatch pathInfo rer.re then .ok rer.cc else matchRules pathInfo cc rest

/-- `get_cc(path_info, directory)`. What is dereferenced is never null. -/
def getCc (pathInfo : Bytes) (directory : Bool) : RuleM Bytes := do
  let pi := if directory then pathInfo else (pathsplit pathInfo).1
  let rules ← env.getCcRulesRecursive pi
  match rules.val with
  | none => throw .oob
  | some rules =>
    match env.matchRules pathInfo rules.cc rules.rerules with
    | .ok cc => pure cc
    | .error .oob => throw .oob
    | .error (.throws e) => throw (.throws (e.nest .runtimeError (bytes "in get_cc(" ++ pathInfo ++ bytes ")")))

end RuleEnv

/-! ## `bounded_max_age` -/

/-- `isspace`. -/
def isSpace (c : UInt8) : Bool := c = ch ' ' || 9 ≤ c && c ≤ 13

/-- `isdigit`. -/
def isDigit (c : UInt8) : Bool := ch '0' ≤ c && c ≤ ch '9'

/-- `max-age\s*=\s*(\d+)` at the front of a text: the offset and the number of the digits. -/
def maxAgeDigits (text : Bytes) : Option (ℕ × ℕ) :=
  if bytes "max-age" <+: text then
    let w := ((text.drop 7).takeWhile isSpace).length
    if text[7 + w]? = some (ch '=') then
      let b := 7 + w + 1 + ((text.drop (7 + w + 1)).takeWhile isSpace).length
      let n := ((text.drop b).takeWhile isDigit).length
      if n = 0 then none else some (b, n)
    else none
  else none

/-- `regex_search` for `(?:^|,| )max-age\s*=\s*(\d+)`, from the offset `pos` on: `boundary` says whether the
text may begin there. -/
def searchMaxAge (boundary : Bool) (pos : ℕ) : Bytes → Option (ℕ × ℕ)
  | [] => none
  | c :: rest =>
    let here := if boundary then maxAgeDigits (c :: rest) else none
    match here with
    | some (b, n) => some (pos + b, n)
    | none => searchMaxAge (c = ch ',' || c = ch ' ') (pos + 1) rest

/-- The `time_t` that a sum or difference ends up in. -/
def timeT (z : ℤ) : ℤ := z.bmod (2 ^ 64)

/-- `bounded_max_age(cc, sb)`. -/
def boundedMaxAge (cc : Bytes) (sb : Stat) (time : ℤ) : Bytes :=
  match searchMaxAge true 0 cc with
  | none => cc
  | some (digitsBegin, digits) =>
    let maxage := match scanintS 64 10 true cc digitsBegin with
      | .ok (maxage, _) => maxage
      | .error _ => 2 ^ 63 - 1
    let adjustedAge := min (max 1 (timeT (time - sb.mtime.toInt))) maxage
    if adjustedAge ≠ maxage then
      cc.take digitsBegin ++ decimalInt adjustedAge ++ cc.drop (digitsBegin + digits)
    else cc

/-! ## `exportd_handler::cache_control` -/

/-- The options that `cache_control` reads. -/
structure CcOptions where
  genericErrorCc : Bytes
  boundedMaxAge : Bool

/-- `S_ISDIR(sb->st_mode)`. -/
def Stat.isDir (sb : Stat) : Bool := sb.mode &&& 0o170000 = 0o040000

/-- `exportd_handler::cache_control(eno, path, sb)`. `ENOENT` is handled as no error; `95` is `ENOTSUP`. -/
def RuleEnv.cacheControl (env : RuleEnv) (opts : CcOptions) (eno : ℤ) (path : Bytes) (sb : Option Stat) :
    RuleM Bytes :=
  if eno = 0 ∨ eno = 2 then do
    -- The leading slash is stripped off.
    let path := path.drop 1
    let cc ← env.getCc path (sb.any Stat.isDir)
    match sb with
    | some sb =>
      if opts.boundedMaxAge then do
        let s ← get
        pure (Fs123.boundedMaxAge cc sb (env.time s.ticks))
      else pure cc
    | none => pure cc
  else if eno = 95 then pure (bytes "max-age=86400,stale-while-revalidate=864000")
  else pure opts.genericErrorCc

end Fs123
