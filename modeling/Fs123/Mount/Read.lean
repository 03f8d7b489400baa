import Fs123.Mount.Beget

/-!
# Reading a file

The model of `fs123_read`. A read goes to the chunk that `off` is in, and to the next one when it is not
satisfied by the first. The reply is the bytes of both.
-/

namespace Fs123

open Cxx MountM

/-- What an operation replies to the kernel: `reply_err`, or `reply_buf` and `reply_iov`. -/
inductive ReadReply where
  | err (eno : ℤ)
  | buf (data : Bytes)
  deriving Repr, DecidableEq

/-- An `off_t` as a `size_t`. -/
def toSize (off : ℤ) : ℕ := (off % 2 ^ 64).toNat

/-- `read_special_ino(req, ino, size, off, fi)`. -/
def readSpecialIno (text : ℕ → Bytes) (ino : Ino) (size : ℕ) (off : ℤ) (fh : ℕ) : Res ReadReply :=
  if ino = 3 then .ok (.buf [])
  else if fh = 0 then sysFailure 5 (bytes "read_special_ino:  expected non-NUL fi && fi->fh")
  else if off < 0 then sysFailure 22 (bytes "read_special_ino with negative offset?")
  else .ok (.buf (((text fh).drop off.toNat).take size))

/-- `f_validator_and_content(dr)`. -/
def fValidatorAndContent (protoMinor : ℕ) (dr : DecodedReply) : Res (ℕ × Bytes) :=
  if 3 ≤ protoMinor then do
    let validator ← dr.dec.validator
    .ok (validator, dr.dec.content.data)
  else do
    let (monotonicValidator, next) ← svscanNetstring true dr.dec.content.data 0
    let validator ← svtoU 64 monotonicValidator.data
    let content ← substr dr.dec.content.data next npos
    .ok (validator, content)

namespace World

variable (w : World)

/-- `chunkbytes`. -/
def chunkbytes : ℕ := w.chunk * 1024 % 2 ^ 64

/-- What `fs123_read` does for one chunk: the errno of the reply, or its validator and its content. -/
def readChunk (ino : Ino) (name : Bytes) (inoValidator : ℕ) (startkib : ℕ) : MountM (ℤ ⊕ (ℕ × Bytes)) := do
  let reply ← w.begetchunkFile ino (toSsize startkib) false
  if reply.dec.eno ≠ 0 then return .inl reply.dec.eno
  let (rvalidator, content) ← ofRes fun _ => fValidatorAndContent w.cfg.protoMinor reply
  if inoValidator ≤ rvalidator then return .inr (rvalidator, content)
  -- The reply is older than what the inode map has: once more without caches.
  let reply ← w.begetchunkFile ino (toSsize startkib) true
  if reply.dec.eno ≠ 0 then return .inl reply.dec.eno
  let (rvalidator, content) ← ofRes fun _ => fValidatorAndContent w.cfg.protoMinor reply
  if inoValidator ≤ rvalidator then return .inr (rvalidator, content)
  ofRes fun _ => sysFailure 116
    (bytes "fs123_read:  monotonic_validator in the past even after no_cache retrieval fullname: " ++ name
      ++ bytes " r_validator: " ++ decimal rvalidator ++ bytes " ino_validator: " ++ decimal inoValidator)

/-- Wake up the open-file map when a reply is newer than what the inode map has. -/
def expireIfNewer (ino : Ino) (fh : ℕ) (inoValidator rvalidator : ℕ) : MountM Unit :=
  if inoValidator < rvalidator ∧ fh ≠ 0 then notify (.expireNow ino fh) else pure ()

/-- `fs123_read(req, ino, size, off, fi)`. An error that it throws is replied by `CATCH_ERRS`. -/
def fs123Read (ino : Ino) (size : ℕ) (off : ℤ) (fh : ℕ) : MountM ReadReply := do
  if 1 < ino ∧ ino ≤ maxSpecialIno then
    ofRes fun _ => readSpecialIno w.specialText ino size off fh
  else if w.chunkbytes < size then
    ofRes fun _ => sysFailure 22 (bytes "fs123_read is limited to size<=" ++ decimal w.chunkbytes)
  else do
    let (name, inoValidator) ← ofRes fun s => s.inomap.inoToFullnameValidator w.stack ino
    -- A division by zero is as undefined as an access out of bounds.
    if w.chunkbytes = 0 then throw .oob
    else do
      let chunknum := toSize off / w.chunkbytes
      let off0 := toSize off % w.chunkbytes
      let len0 := min size (w.chunkbytes - off0)
      match ← w.readChunk ino name inoValidator (chunknum * w.chunk % 2 ^ 64) with
      | .inl eno => return .err eno
      | .inr (rvalidator, content) =>
        expireIfNewer ino fh inoValidator rvalidator
        if content.length < off0 then return .buf []
        let iov0 := (content.drop off0).take (min len0 (content.length - off0))
        if content.length < w.chunkbytes ∨ iov0.length = size then return .buf iov0
        let nleft := size - len0
        match ← w.readChunk ino name inoValidator ((chunknum + 1) * w.chunk % 2 ^ 64) with
        | .inl eno => return .err eno
        | .inr (rvalidator, content) =>
          expireIfNewer ino fh inoValidator rvalidator
          return .buf (iov0 ++ content.take (min nleft content.length))

end World

end Fs123
