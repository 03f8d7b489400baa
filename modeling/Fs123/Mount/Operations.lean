import Fs123.Core.StatScan
import Fs123.Mount.Readdir

/-!
# Looking up, opening and forgetting

The model of `begetattr`, `fs123_lookup`, `fs123_getattr`, `fs123_open`, `fs123_release` and `fs123_forget`. An
exception that an operation throws is replied by `CATCH_ERRS`; it leaves the state as it is at the `throw`.
-/

namespace Fs123

open Cxx MountM

/-! ## State -/

/-- The members of `attrcache_value_t` that `Begetattr` leaves out. -/
structure CopiedAttrs where
  staleWhileRevalidate : ℤ
  cacheable : Bool
  sb : Stat
  deriving DecidableEq

/-- `attrcache_value_t` with an expiration. -/
structure AttrReply extends Begetattr, CopiedAttrs
  deriving DecidableEq

/-- A `struct stat` of zeros. -/
def Stat.zero : Stat := ⟨0, 0, 0, 0, 0, 0, 0, 0, 0, 0, 0, 0, 0, 0, 0, 0⟩

/-- The mounted client with its open files. `copied` has the other members of the entries of the attribute cache:
those of the entry that is under the key. -/
structure ClientState where
  mount : MountState
  copied : AttrKey → CopiedAttrs
  files : OpenFiles

/-- The operations of the client. -/
abbrev ClientM (α : Type) := EStateM Fault ClientState α

namespace ClientM

def atMount {α : Type} (x : MountM α) : ClientM α := fun s =>
  match x s.mount with
  | .ok a mount => .ok a { s with mount }
  | .error f mount => .error f { s with mount }

def atFiles {α : Type} (x : Locked α) : ClientM α := fun s =>
  match x s.files with
  | .ok a files => .ok a { s with files }
  | .error f files => .error f { s with files }

end ClientM

open ClientM

/-- The configuration that the operations read. -/
structure ClientWorld extends DirWorld where
  privilegedServer : Bool
  squashAllUid : UInt32
  squashAllGid : UInt32
  squashRootUid : UInt32
  squashRootGid : UInt32
  noKernelDataCaching : Bool
  noKernelAttrCaching : Bool
  noKernelDentryCaching : Bool
  /-- `geteuid()` and `getegid()`. -/
  euid : UInt32
  egid : UInt32
  /-- The handle of a new string with the report of a special inode. -/
  reportHandle : Ino → ℕ

/-- The readings of the clock in one operation, and what `random_eviction` takes from the attribute cache. -/
structure AttrEnv where
  now : TimePoint
  /-- For `expired()`. The clock is past its minimum. -/
  now' : TimePoint
  min_lt : TimePoint.min < now'
  /-- For `ttl_or_stale`. -/
  now'' : TimePoint
  evicted : List AttrKey

/-! ## Attributes -/

/-- `S_IFMT`. -/
def sIfmt : ℕ := 0o170000

/-- `S_ISREG`. -/
def Stat.sIsreg (sb : Stat) : Bool := sb.mode.toNat &&& sIfmt = sIfreg

/-- `S_ISDIR`. -/
def Stat.sIsdir (sb : Stat) : Bool := sb.mode.toNat &&& sIfmt = sIfdir

/-- `attrcache_value_t(dr)`, with the expiration of the reply. What is not initialised is zero here. -/
def attrcacheValue (protoMinor : ℕ) (dr : DecodedReply) : Res AttrReply :=
  catchE
    (if dr.dec.eno = 0 then do
      let (sb, off) ← svscanStat dr.dec.content.data 0
      let estaleCookie ← if sb.sIsreg || sb.sIsdir then dr.dec.estaleCookie else .ok 0
      let validator ← if 3 ≤ protoMinor then dr.dec.validator
        else (scanintU 64 0 true dr.dec.content.data off).map Prod.fst
      .ok ⟨⟨dr.dec.eno, estaleCookie, validator, dr.expires⟩, ⟨dr.staleWhileRevalidate, dr.cacheable, sb⟩⟩
    else .ok ⟨⟨dr.dec.eno, 0, 0, dr.expires⟩, ⟨dr.staleWhileRevalidate, dr.cacheable, .zero⟩⟩)
    fun e => .error (.throws (e.nest .runtimeError (bytes "attrcache_value_t:attrcache_value_t: dr.eno="
      ++ decimalInt dr.dec.eno ++ bytes " dr.content()=" ++ dr.dec.content.data)))

/-- `clip(low, x, high)`. -/
def clip (low x high : ℤ) : ℤ := if high < x then high else if x < low then low else x

/-- `ttl_or_stale(expires, stale_while_revalidate)`, in nanoseconds. -/
def ttlOrStale (expires staleWhileRevalidate : ℤ) (now : TimePoint) : ℤ :=
  if now ≤ expires then expires - now
  else clip 0 (expires + staleWhileRevalidate - now) 1000000000

namespace ClientWorld

variable (w : ClientWorld)

/-- The permissions of `massage_attributes`. -/
def massageMode (mode : UInt32) : UInt32 :=
  let mode := mode &&& ~~~ 0o222
  if w.privilegedServer then mode
  else
    let isReg := mode &&& 0o170000 = 0o100000
    let isDir := mode &&& 0o170000 = 0o040000
    -- what `other` cannot read, nobody can
    let mode := if mode &&& 0o004 = 0 then
        let mode := mode &&& ~~~ 0o444
        if isReg then mode &&& ~~~ 0o111 else mode
      else mode
    if isDir ∧ mode &&& 0o001 = 0 then mode &&& ~~~ 0o111 else mode

/-- `massage_attributes(sb, ino)`. -/
def massageAttributes (sb : Stat) (ino : Ino) : Stat :=
  let uid := if 0 < w.squashAllUid then w.squashAllUid else sb.uid
  let gid := if 0 < w.squashAllGid then w.squashAllGid else sb.gid
  { sb with
    ino := .ofNat (ino &&& w.stInoMask)
    mode := w.massageMode sb.mode
    uid := if uid = 0 ∧ 0 < w.squashRootUid then w.squashRootUid else uid
    gid := if gid = 0 ∧ 0 < w.squashRootGid then w.squashRootGid else gid }

/-- The first part of `begetattr`: the entry of the attribute cache, if it can be used. -/
def cachedAttr (env : AttrEnv) (pino : Ino) (lc : Bytes) (ino : Ino) (noCache : Bool) :
    ClientM (Option AttrReply) := do
  let key := attrcacheKey pino lc
  if noCache then
    modify fun s => { s with mount := { s.mount with attrcache := s.mount.attrcache.erase key } }
    return none
  else
    let s ← get
    let (r, attrcache) := s.mount.attrcache.lookup key env.now
    set { s with mount := { s.mount with attrcache } }
    if r.expired env.now' then
      return none
    else if ← atMount (w.toWorld.cookieMismatch ino r.estaleCookie) then
      modify fun s => { s with mount := { s.mount with attrcache := s.mount.attrcache.erase key } }
      return none
    else
      return some ⟨r, s.copied key⟩

/-- `attrcache->insert(key, eav)`. -/
def insertAttr (key : AttrKey) (eav : AttrReply) (evicted : List AttrKey) : ClientM Unit := modify fun s =>
  { s with
    mount := { s.mount with attrcache := s.mount.attrcache.insert key eav.toBegetattr evicted }
    copied := match s.mount.attrcache.themap key with
      | some _ => s.copied
      | none => Function.update s.copied key eav.toCopiedAttrs }

/-- `begetattr(pino, lc, ino, max_stale, no_cache)`. -/
def begetattrOf (env : AttrEnv) (pino : Ino) (lc : Bytes) (ino : Ino) (maxStale : Option ℤ) (noCache : Bool) :
    ClientM AttrReply := do
  match ← w.cachedAttr env pino lc ino noCache with
  | some r => return r
  | none =>
    let name ← atMount (w.toWorld.fullname pino lc)
    let dr ← atMount (w.toWorld.beget ino ⟨.attr name, maxStale, noCache⟩ true)
    let eav ← atMount (ofRes fun _ => attrcacheValue w.cfg.protoMinor dr)
    if dr.dec.eno = 0 then
      insertAttr (attrcacheKey pino lc) eav env.evicted
    return eav

/-- `begetattr(ino, max_stale, no_cache)`. -/
def begetattr (env : AttrEnv) (ino : Ino) (maxStale : Option ℤ) (noCache : Bool) : ClientM AttrReply := do
  let (pino, name) ← atMount (ofRes fun s => s.inomap.inoToPinoName ino)
  w.begetattrOf env pino name ino maxStale noCache

/-! ## Special inodes -/

/-- `shared_getattr_special_ino(ino, fi)`; `fh` is the handle in `fi`, or 0. -/
def specialStat (ino : Ino) (fh : ℕ) : Res Stat := do
  let (ino, mode) ← sharedGetattrSpecialIno ino
  let size := if fh = 0 then 0 else (w.specialText fh).length
  let (uid, gid) := if ino = 3 then (w.euid, w.egid) else (0, 0)
  .ok { Stat.zero with ino := .ofNat ino, nlink := 1, mode := .ofNat mode, size := .ofNat size, uid, gid }

/-- The special inode of a name in the root: the `strcmp`s of `lookup_special_ino`. -/
def specialInoOf (name : Bytes) : Option Ino := [2, 3, 4, 5].find? fun ino => specialInoToFullname ino = .ok name

/-! ## The operations -/

/-- What `reply_entry` and `reply_attr` give to the kernel, with the timeouts in nanoseconds. -/
structure EntryParam where
  ino : Ino
  attr : Stat
  attrTimeout : ℤ
  entryTimeout : ℤ
  deriving DecidableEq

inductive LookupReply where
  | err (eno : ℤ)
  | entry (e : EntryParam)
  deriving DecidableEq

/-- `fs123_lookup(req, pino, name)`. -/
def fs123Lookup (env : AttrEnv) (pino : Ino) (name : Bytes) : ClientM LookupReply := do
  match if pino = 1 then specialInoOf name else none with
  | some cino =>
    let sb ← atMount (ofRes fun _ => w.specialStat cino 0)
    return .entry ⟨cino, sb, 0, 1000 * 1000000000⟩
  | none =>
    let reply ← w.begetattrOf env pino name 0 none false
    let ttl := ttlOrStale reply.goodTill reply.staleWhileRevalidate env.now''
    let attrTimeout := if w.noKernelAttrCaching then 0 else ttl
    let entryTimeout := if w.noKernelDentryCaching then 0 else ttl
    -- `ENOENT`: the kernel remembers that there is no such name
    if reply.eno = 2 then
      return .entry ⟨0, .zero, attrTimeout, entryTimeout⟩
    else if reply.eno ≠ 0 then
      return .err reply.eno
    else
      let ino := genino reply.estaleCookie pino name
      atMount fun s =>
        match s.inomap.inoRemember pino name ino reply.validator with
        | (.ok (), inomap) => .ok () { s with inomap }
        | (.error f, inomap) => .error f { s with inomap }
      return .entry ⟨ino, w.massageAttributes reply.sb ino, attrTimeout, entryTimeout⟩

inductive AttrOut where
  | err (eno : ℤ)
  | attr (sb : Stat) (timeout : ℤ)
  deriving DecidableEq

/-- `fs123_getattr(req, ino, fi)`; `fh` is the handle in `fi`, or 0. -/
def fs123Getattr (env : AttrEnv) (ino : Ino) (fh : ℕ) : ClientM AttrOut := do
  if 1 < ino ∧ ino ≤ maxSpecialIno then
    let sb ← atMount (ofRes fun _ => w.specialStat ino fh)
    return .attr sb 0
  else
    let reply ← w.begetattr env ino none false
    if reply.eno ≠ 0 then
      return .err reply.eno
    else
      return .attr (w.massageAttributes reply.sb ino)
        (if w.noKernelAttrCaching then 0 else ttlOrStale reply.goodTill reply.staleWhileRevalidate env.now'')

/-- What `reply_open` gives to the kernel. The flags are fields of one bit. -/
inductive OpenReply where
  | err (eno : ℤ)
  | opened (keepCache directIo : Bool) (fh : ℕ)
  deriving Repr, DecidableEq

/-- A value that is assigned to a bit-field of one bit. -/
def bitField (n : ℕ) : Bool := n % 2 = 1

/-- `O_DIRECT`. -/
def oDirect : ℕ := 0o40000

/-- `open_special_ino(req, ino, fi)`. The server statistics are asked for. -/
def openSpecialIno (ino : Ino) : ClientM OpenReply := do
  if ino = 5 then
    let reply ← atMount (w.toWorld.beget ino ⟨.stats, none, false⟩ false)
    if reply.dec.eno ≠ 0 then
      return .err reply.dec.eno
    else
      return .opened false false (w.reportHandle ino)
  else if ino = 3 then
    return .opened false false 0
  else
    return .opened false false (w.reportHandle ino)

/-- `ino_update_validator(ino, validator)`. -/
def updateValidator (ino : Ino) (validator : ℕ) : ClientM (ℕ ⊕ OutOfOrder) := atMount fun s =>
  match s.inomap.inoUpdateValidator w.stack ino validator with
  | (.ok r, inomap) => .ok r { s with inomap }
  | (.error f, inomap) => .error f { s with inomap }

/-- The end of `fs123_open`, when the validator has been recorded. -/
def finishOpen (ino : Ino) (flags : ℕ) (r : AttrReply) (oldValidator : ℕ) (env : RegisterEnv) :
    ClientM OpenReply := do
  let keepCache := oldValidator == r.validator
  let directIo := bitField (flags &&& oDirect) || w.noKernelDataCaching || !r.cacheable
  if directIo then
    return .opened keepCache directIo 0
  else
    let fh ← atFiles (openfileRegister ino r.toBegetattr env)
    return .opened keepCache directIo fh

/-- `fs123_open(req, ino, fi)`. There is a second try with `no_cache`, and no third one. -/
def fs123Open (env env' : AttrEnv) (ino : Ino) (flags : ℕ) (renv : RegisterEnv) : ClientM OpenReply := do
  if flags &&& 3 ≠ 0 then
    -- `EROFS`
    return .err 30
  else if flags &&& 0o220000 ≠ 0 then
    -- `ENOSYS`
    return .err 38
  else if 1 < ino ∧ ino ≤ maxSpecialIno then
    w.openSpecialIno ino
  else
    let r ← w.begetattr env ino none false
    if r.eno ≠ 0 then
      return .err r.eno
    else
      match ← w.updateValidator ino r.validator with
      | .inl oldValidator => w.finishOpen ino flags r oldValidator renv
      | .inr _ =>
        let r ← w.begetattr env' ino none true
        if r.eno ≠ 0 then
          return .err r.eno
        else
          match ← w.updateValidator ino r.validator with
          | .inl oldValidator => w.finishOpen ino flags r oldValidator renv
          | .inr _ =>
            atMount (notify (.invalInode ino))
            atMount (ofRes fun _ => sysFailure 116 (bytes "non-monotonic validator even with no_cache=true.  "
              ++ bytes "lowlevel_notify_inval_inode_detached(ino) called"))

/-- `fs123_release(req, ino, fi)`. -/
def fs123Release (ino : Ino) (fh : ℕ) : ClientM Unit :=
  if 1 < ino ∧ ino ≤ maxSpecialIno ∨ fh = 0 then pure () else atFiles (openfileRelease ino fh)

/-- `do_forget(ino, nlookup)`. -/
def doForget (ino : Ino) (nlookup : ℕ) : ClientM Unit :=
  if 1 < ino ∧ ino ≤ maxSpecialIno then pure ()
  else modify fun s => { s with mount := { s.mount with inomap := s.mount.inomap.inoForget ino nlookup } }

/-- `fs123_forget_multi(req, count, forgets)`. -/
def fs123ForgetMulti (forgets : List (Ino × ℕ)) : ClientM Unit := forgets.forM fun p => doForget p.1 p.2

end ClientWorld

end Fs123
