import Fs123.Client.Reply123
import Fs123.Common.Pod
import Mathlib.Tactic.NormNum

/-!
# The files of the disk cache

The model of `diskcache::serialize` and `diskcache::deserialize` as functions between replies and the bytes
of a cache file. A file is the plain data of the reply, the length of the content, the content, the url, the
length of the url as a 32-bit integer, and the magic number again.

`deserialize` returns a checked reply whatever is in the file. What `serialize` wrote comes back, but for a url
whose length does not fit (`image_round_trip_iff`).
-/

namespace Fs123

open Cxx

/-! ## The plain data of a reply -/

namespace Reply123

/-- The members from `magic` to `content_threeroe`. -/
abbrev Members : Type := ℤ × ℤ × ℤ × ℕ × ℤ × ℤ × ℕ × ℤ × ℤ × ℤ × Bytes

/-- Their types, in order. Every member lies at a multiple of its size, so there is no padding. -/
def pod : Pod Members :=
  (Pod.int 4).prod <| (Pod.int 4).prod <| (Pod.int 8).prod <| (Pod.uint 8).prod <| (Pod.int 8).prod <|
    (Pod.int 8).prod <| (Pod.uint 8).prod <| (Pod.int 8).prod <| (Pod.int 2).prod <| (Pod.int 2).prod <|
      Pod.chars 32

def members (r : Reply123) : Members :=
  (r.magic, r.eno72, r.expires, r.etag64, r.lastRefresh, r.staleWhileRevalidate, r.estaleCookie72,
    r.chunkNextOffset72, r.chunkNextMeta72, r.contentEncoding, r.contentThreeroe)

/-- The reply with these members and this content. -/
def ofMembers (content : Bytes) : Members → Reply123
  | (magic, eno72, expires, etag64, lastRefresh, staleWhileRevalidate, estaleCookie72, chunkNextOffset72,
      chunkNextMeta72, contentEncoding, contentThreeroe) =>
    { magic, eno72, expires, etag64, lastRefresh, staleWhileRevalidate, estaleCookie72, chunkNextOffset72,
      chunkNextMeta72, contentEncoding, contentThreeroe, content }

/-- A reply as the constructors make it: the members fit into their types, and the magic number is the one of
this program. -/
structure Held (r : Reply123) : Prop where
  fits : pod.Fits r.members
  magic : r.magic = replyMagic

end Reply123

/-- `reply123_pod_length`. -/
def podLength : ℕ := Reply123.pod.size

/-! ## System calls -/

/-- What one `read`, `readv` or `writev` of Linux transfers at most. -/
def maxTransfer : ℕ := 0x7ffff000

/-- `throw se(EINVAL, ..)`. -/
def throwEinval {α : Type} (what : Bytes) : Res α := throwE (.systemError .system 22) what

/-- What is found under a path. -/
structure CacheFile where
  isReg : Bool
  data : Bytes
  deriving Repr, DecidableEq

/-- `sew::read` or `sew::readv` of `n` bytes at the file position `pos`. -/
def CacheFile.read (file : CacheFile) (pos n : ℕ) : Bytes := slice file.data pos (min n maxTransfer)

/-- `sew::writev`, of buffers each with its `iov_len`, to a new file: the bytes that are written. The file
system has room for that many. The kernel refuses lengths that do not add up to an `ssize_t`. -/
def writev (room : ℕ) (iov : List (Bytes × ℕ)) : Res Bytes :=
  if 2 ^ 63 ≤ (iov.map Prod.snd).sum then throwEinval (bytes "writev")
  else .ok ((iov.flatMap fun v => v.1.take v.2).take (min maxTransfer room))

/-- `std::string::resize(n)`. -/
def checkResize (n : ℕ) : Res Unit :=
  if 2 ^ 63 ≤ n then throwE .lengthError (bytes "basic_string::_M_replace_aux") else .ok ()

/-! ## Reading -/

/-- The number of bytes that are not of the url, in `size_t` arithmetic. -/
def bytesNotCountingUrl (contentLen : ℕ) : ℕ := addW (addW (addW podLength 8) contentLen) (2 * 4)

/-- The part of `deserialize_no_unlink` for `returlp`, with the file position behind the content. -/
def CacheFile.readUrl (file : CacheFile) (pos contentLen : ℕ) : Res Bytes := do
  let urlsz := subW file.data.length (bytesNotCountingUrl contentLen)
  checkResize urlsz
  let nread := file.read pos (urlsz + 4 + 4)
  if nread.length ≠ urlsz + 4 + 4 then
    throwEinval (bytes "diskcache::deserialize: tried to read " ++ decimal (urlsz + 4 + 4)
      ++ bytes " url bytes.  Only got " ++ decimal nread.length)
  else
    let ulen := (Pod.int 4).get (slice nread urlsz 4)
    let cmagic := (Pod.int 4).get (nread.drop (urlsz + 4))
    if ulen ≠ (urlsz : ℤ).bmod (2 ^ 32) then
      throwEinval (bytes "diskcache::deserialize: cache says url len " ++ decimalInt ulen
        ++ bytes ", expected " ++ decimal urlsz)
    else if cmagic ≠ replyMagic then
      throwEinval (bytes "diskcache::deserialize: cache says magic " ++ decimalInt cmagic
        ++ bytes ", expected " ++ decimalInt replyMagic)
    else .ok (nread.take urlsz)

/-- The `if(returlp)` of `deserialize_no_unlink`. -/
def CacheFile.readUrlIf (file : CacheFile) (wanted : Bool) (pos contentLen : ℕ) : Res (Option Bytes) :=
  if wanted then (file.readUrl pos contentLen).map some else .ok none

/-- The part of `deserialize_no_unlink` behind the magic number. -/
def CacheFile.readContent (file : CacheFile) (wantUrl : Bool) (members : Reply123.Members)
    (contentLen : ℕ) : Res (Reply123 × Option Bytes) :=
  if file.data.length < bytesNotCountingUrl contentLen then
    throwEinval (bytes "diskcache::deserialize: st_size=" ++ decimal file.data.length
      ++ bytes ", should be >= " ++ decimal (bytesNotCountingUrl contentLen))
  else do
    checkResize contentLen
    let content := file.read (podLength + 8) contentLen
    if content.length ≠ contentLen then
      throwEinval (bytes "diskcache::deserialize:  tried to read " ++ decimal contentLen
        ++ bytes " content bytes.  Only got " ++ decimal content.length)
    else
      let url ← file.readUrlIf wantUrl (podLength + 8 + contentLen) contentLen
      let ret := Reply123.ofMembers content members
      if hexdigest ret.content ≠ ret.contentThreeroe then
        throwEinval (bytes "diskcache::deserialize:  threeroe mismatch:  threeroe(data): "
          ++ hexdigest ret.content ++ bytes ", threeroe(stored_in_header): " ++ cstr ret.contentThreeroe)
      else .ok (ret, url)

/-- `deserialize_no_unlink(rootfd, path, ret, returlp)`: what it leaves in `*ret`, and in `*returlp` if it
sets that. The argument is what the path leads to, if it can be opened. -/
def deserializeNoUnlink (file : Option CacheFile) (wantUrl : Bool) : Res (Reply123 × Option Bytes) :=
  match file with
  | none => .ok (.miss, none)
  | some file =>
    if ¬ file.isReg then throwEinval (bytes "diskcache::deserialize: not a regular file")
    else
      let nread := file.read 0 (podLength + 8)
      if nread.length ≠ podLength + 8 then
        throwEinval (bytes "diskcache::deserialize: expected to read " ++ decimal podLength ++ bytes "+"
          ++ decimal 8 ++ bytes " bytes.  Only got " ++ decimal nread.length)
      else
        let members := Reply123.pod.get (nread.take podLength)
        if members.1 ≠ replyMagic then .ok (.miss, none)
        else file.readContent wantUrl members ((Pod.uint 8).get (nread.drop podLength))

/-- `deserialize(path)`: the reply, and whether the file is renamed because it gave trouble. -/
def deserialize (file : Option CacheFile) : Res (Reply123 × Bool) :=
  catchE (do let (ret, _) ← deserializeNoUnlink file false; .ok (ret, false)) fun _ => .ok (.miss, true)

/-! ## Writing -/

/-- What `serialize` finds when it is called. -/
structure SerializeEnv where
  /-- The file system was read-only less than five minutes ago. -/
  deferred : Bool
  /-- The random number is not above the injection probability. -/
  injected : Bool
  /-- The new file can be created. -/
  created : Bool
  /-- The bytes that the file system has room for. -/
  room : ℕ

/-- `int32_t url_len = url.size()`. -/
def urlLen (url : Bytes) : ℤ := (url.length : ℤ).bmod (2 ^ 32)

/-- A signed length as an `iov_len`. -/
def iovLen (z : ℤ) : ℕ := (z % 2 ^ 64).toNat

/-- The buffers that are written, each with its `iov_len`. -/
def Reply123.iov (r : Reply123) (url : Bytes) : List (Bytes × ℕ) :=
  [(Reply123.pod.put r.members, podLength),
    ((Pod.uint 8).put r.content.length, 8),
    (r.content, r.content.length),
    (url, iovLen (urlLen url)),
    ((Pod.int 4).put (urlLen url), 4),
    ((Pod.int 4).put r.magic, 4)]

/-- The `try` block of `serialize`: the file. -/
def Reply123.writeImage (r : Reply123) (room : ℕ) (url : Bytes) : Res Bytes :=
  let nwrite : ℤ := (((r.iov url).map Prod.snd).sum : ℤ).bmod (2 ^ 64)
  if hexdigest r.content ≠ r.contentThreeroe then
    throwEinval (bytes "diskcache::serialize: threeroe mismatch: r.content.size(): "
      ++ decimal r.content.length ++ bytes ", threeroe(data): " ++ hexdigest r.content
      ++ bytes ", threeroe(in header): " ++ cstr r.contentThreeroe)
  else do
    let wrote ← writev room (r.iov url)
    if (wrote.length : ℤ) ≠ nwrite then
      throwE (.systemError .system 28) (bytes "Short write: " ++ decimal wrote.length ++ bytes " of "
        ++ decimalInt nwrite ++ bytes ".  ENOSPC is just a guess.")
    else .ok wrote

/-- `serialize(r, path, url)`: the file that gets to `path`, if one does. After an exception there is none,
neither at `path` nor at `path.new`. -/
def serialize (env : SerializeEnv) (r : Reply123) (path url : Bytes) : Res (Option Bytes) :=
  if env.deferred ∨ ¬ env.injected ∨ ¬ env.created then .ok none
  else catchE ((r.writeImage env.room url).map some) fun e =>
    .error (.throws (e.nest .runtimeError (bytes "diskcache::serialize(path=" ++ path ++ bytes "): failed")))

/-! ## What serialize writes -/

theorem podLength_eq : podLength = 92 := by decide

namespace Reply123

@[simp] theorem ofMembers_content (content : Bytes) (m : Members) : (ofMembers content m).content = content :=
  rfl

@[simp] theorem ofMembers_members (r : Reply123) : ofMembers r.content r.members = r := rfl

/-- The bytes of a cache file for a reply and a url. -/
def image (r : Reply123) (url : Bytes) : Bytes :=
  pod.put r.members ++ ((Pod.uint 8).put r.content.length ++ (r.content ++ (url
    ++ ((Pod.int 4).put url.length ++ (Pod.int 4).put replyMagic))))

theorem Held.pod_length {r : Reply123} (h : r.Held) : (pod.put r.members).length = podLength :=
  pod.put_length h.fits

theorem uint_put_length (w n : ℕ) : ((Pod.uint w).put n).length = w := leBytes_length w n

theorem int_put_length (w : ℕ) (z : ℤ) : ((Pod.int w).put z).length = w := leBytes_length w _

theorem Held.image_length {r : Reply123} (h : r.Held) (url : Bytes) :
    (r.image url).length = r.content.length + url.length + 108 := by
  simp only [image, List.length_append, h.pod_length, uint_put_length, int_put_length, podLength_eq]
  omega

end Reply123

/-- The value of a number as an `int32_t`. -/
theorem bmod_int32 (n : ℕ) : (n : ℤ).bmod (2 ^ 32)
    = if n % 2 ^ 32 < 2 ^ 31 then ((n % 2 ^ 32 : ℕ) : ℤ) else (n % 2 ^ 32 : ℕ) - 2 ^ 32 := by
  rw [Int.bmod_def]
  split_ifs <;> omega

/-- The `iov_len` of a url: its length modulo `2^32` if that is not negative as an `int32_t`, and else too much
for any buffer. -/
theorem iovLen_urlLen_of_lt {url : Bytes} (h : url.length % 2 ^ 32 < 2 ^ 31) :
    urlLen url = (url.length % 2 ^ 32 : ℕ) ∧ iovLen (urlLen url) = url.length % 2 ^ 32 := by
  have hlen : urlLen url = (url.length % 2 ^ 32 : ℕ) := by
    unfold urlLen
    rw [bmod_int32, if_pos h]
  refine ⟨hlen, ?_⟩
  rw [hlen, iovLen]
  omega

@[inherit_doc iovLen_urlLen_of_lt] theorem iovLen_urlLen_of_le {url : Bytes}
    (h : 2 ^ 31 ≤ url.length % 2 ^ 32) : 2 ^ 63 ≤ iovLen (urlLen url) := by
  have hlen : urlLen url = (url.length % 2 ^ 32 : ℕ) - 2 ^ 32 := by
    unfold urlLen
    rw [bmod_int32, if_neg (not_lt.mpr h)]
  rw [hlen, iovLen]
  omega

/-- The bytes that a `writev` of whole buffers writes. -/
theorem writev_eq_ok_iff {room : ℕ} {iov : List (Bytes × ℕ)} {wrote : Bytes} :
    writev room iov = .ok wrote ↔ (iov.map Prod.snd).sum < 2 ^ 63
      ∧ wrote = (iov.flatMap fun v => v.1.take v.2).take (min maxTransfer room) := by
  unfold writev
  split
  · next h =>
    rw [iff_false_intro (not_lt.mpr h), false_and, iff_false]
    exact throwE_ne_ok _ _ _
  · next h =>
    rw [Except.ok.injEq, eq_comm, and_iff_right (not_le.mp h)]

namespace Reply123

variable {r : Reply123} {room : ℕ} {url wrote : Bytes}

/-- The lengths of the buffers, for a url whose length is negative as an `int32_t` and for others. -/
theorem iov_sum (r : Reply123) (url : Bytes) : ((r.iov url).map Prod.snd).sum
    = r.content.length + iovLen (urlLen url) + 108 := by
  have hsum : ∀ (a b c d e f : Bytes) (p n : ℕ),
      (([(a, p), (b, 8), (c, c.length), (d, n), (e, 4), (f, 4)] : List (Bytes × ℕ)).map Prod.snd).sum
        = c.length + n + (p + 16) := by
    intro a b c d e f p n
    simp only [List.map_cons, List.map_nil, List.sum_cons, List.sum_nil]
    omega
  rw [iov, hsum, podLength_eq]

/-- The buffers hold the image of the reply with the url that is cut at its 32-bit length. -/
theorem iov_flatMap (h : r.Held) (hlen : url.length % 2 ^ 32 < 2 ^ 31) :
    ((r.iov url).flatMap fun v => v.1.take v.2) = r.image (url.take (url.length % 2 ^ 32)) := by
  have hmod : url.length % 2 ^ 32 ≤ url.length := Nat.mod_le _ _
  obtain ⟨hurl, hcut⟩ := iovLen_urlLen_of_lt hlen
  have htake : ∀ {b : Bytes} {n : ℕ}, b.length = n → b.take n = b := by
    rintro b n rfl
    exact List.take_length
  simp only [iov, List.flatMap_cons, List.flatMap_nil, List.append_nil, image, List.length_take,
    Nat.min_eq_left hmod]
  rw [htake h.pod_length, htake (uint_put_length _ _), htake rfl, htake (int_put_length _ _),
    htake (int_put_length _ _), hcut, hurl, h.magic]

/-- A file is written exactly if the hash of the content is right, the url does not have a negative length,
and there is room. -/
theorem writeImage_eq_ok_iff (h : r.Held) : r.writeImage room url = .ok wrote
    ↔ hexdigest r.content = r.contentThreeroe ∧ url.length % 2 ^ 32 < 2 ^ 31
      ∧ r.content.length + url.length % 2 ^ 32 + 108 ≤ min maxTransfer room
      ∧ wrote = r.image (url.take (url.length % 2 ^ 32)) := by
  have hmax : min maxTransfer room ≤ maxTransfer := min_le_left _ _
  have hmax' : maxTransfer = 2147479552 := rfl
  have hmod : url.length % 2 ^ 32 ≤ url.length := Nat.mod_le _ _
  unfold writeImage
  dsimp only
  split
  · next hne => simp [throwEinval, hne]
  next heq =>
  rw [not_not] at heq
  rw [and_iff_right heq, bind_eq_ok_iff]
  simp only [writev_eq_ok_iff, iov_sum]
  by_cases hlen : url.length % 2 ^ 32 < 2 ^ 31
  · have hcut := (iovLen_urlLen_of_lt hlen).2
    have himage := h.image_length (url.take (url.length % 2 ^ 32))
    rw [List.length_take, Nat.min_eq_left hmod] at himage
    rw [and_iff_right hlen, hcut, iov_flatMap h hlen]
    constructor
    · rintro ⟨b, ⟨hsum, rfl⟩, hwrote⟩
      split at hwrote
      · simp [throwE] at hwrote
      next hall =>
      rw [not_not, List.length_take, himage, Int.bmod_def] at hall
      have hroom : r.content.length + url.length % 2 ^ 32 + 108 ≤ min maxTransfer room := by omega
      refine ⟨hroom, ?_⟩
      rw [Except.ok.injEq] at hwrote
      rw [← hwrote, List.take_of_length_le (by omega)]
    · rintro ⟨hroom, rfl⟩
      refine ⟨_, ⟨by omega, rfl⟩, ?_⟩
      rw [List.take_of_length_le (by omega), himage, if_neg]
      rw [not_not, Int.bmod_def]
      omega
  · rw [not_lt] at hlen
    rw [iff_false_intro (not_lt.mpr hlen), false_and, iff_false]
    rintro ⟨b, ⟨hsum, -⟩, -⟩
    have := iovLen_urlLen_of_le hlen
    omega

end Reply123

/-! ## What deserialize reads back -/

/-- A read of a middle part of a file that is not too long. -/
theorem CacheFile.read_mid {isReg : Bool} {a b c : Bytes} {pos n : ℕ} (hpos : pos = a.length)
    (hn : n = b.length) (hmax : n ≤ maxTransfer) : CacheFile.read ⟨isReg, a ++ (b ++ c)⟩ pos n = b := by
  unfold read
  dsimp only
  rw [Nat.min_eq_left hmax, ← List.append_assoc]
  exact slice_append_mid a b c hpos hn

theorem checkResize_eq_ok {n : ℕ} (h : n < 2 ^ 63) : checkResize n = .ok () := if_neg (not_le.mpr h)

theorem bytesNotCountingUrl_eq {n : ℕ} (h : n < 2 ^ 63) : bytesNotCountingUrl n = n + 108 := by
  have hmod : sizeMod = 2 ^ 64 := rfl
  unfold bytesNotCountingUrl
  rw [podLength_eq, show addW 92 8 = 100 by decide, addW_eq (a := 100) (by omega), addW_eq (by omega)]
  omega

theorem get_int_put (w : ℕ) (z : ℤ) : (Pod.int w).get ((Pod.int w).put z) = z.bmod (256 ^ w) :=
  Pod.ofLe_leBytes_bmod w z

theorem get_uint_put {w n : ℕ} (h : n < 256 ^ w) : (Pod.uint w).get ((Pod.uint w).put n) = n :=
  (Pod.uint w).get_put h

/-- The end of an image gives the url back. -/
theorem CacheFile.readUrl_image {isReg : Bool} {front url : Bytes} {contentLen : ℕ}
    (hfront : front.length = contentLen + 100) (hurl : url.length < 2 ^ 31)
    (hmax : front.length + url.length + 8 ≤ maxTransfer) :
    CacheFile.readUrl ⟨isReg, front ++ (url ++ ((Pod.int 4).put url.length ++ (Pod.int 4).put replyMagic))⟩
      (podLength + 8 + contentLen) contentLen = .ok url := by
  have hmax' : maxTransfer = 2147479552 := rfl
  have hmod : sizeMod = 2 ^ 64 := rfl
  obtain ⟨x, hx⟩ : ∃ x, x = (Pod.int 4).put (url.length : ℤ) := ⟨_, rfl⟩
  obtain ⟨y, hy⟩ : ∃ y, y = (Pod.int 4).put replyMagic := ⟨_, rfl⟩
  have hxl : x.length = 4 := hx ▸ Reply123.int_put_length _ _
  have hyl : y.length = 4 := hy ▸ Reply123.int_put_length _ _
  rw [← hx, ← hy]
  have hlen : (url ++ (x ++ y)).length = url.length + 4 + 4 := by
    rw [List.length_append, List.length_append, hxl, hyl]
  have hdata : (front ++ (url ++ (x ++ y))).length = url.length + bytesNotCountingUrl contentLen := by
    rw [bytesNotCountingUrl_eq (by omega), List.length_append, hlen]
    omega
  have hsz : subW (front ++ (url ++ (x ++ y))).length (bytesNotCountingUrl contentLen) = url.length := by
    rw [hdata, subW_eq (by omega) ?_, Nat.add_sub_cancel]
    rw [bytesNotCountingUrl_eq (by omega)]
    omega
  have hread : CacheFile.read ⟨isReg, front ++ (url ++ (x ++ y))⟩ (podLength + 8 + contentLen)
      (url.length + 4 + 4) = url ++ (x ++ y) := by
    have hpos : podLength + 8 + contentLen = front.length := by
      rw [podLength_eq]
      omega
    have := @CacheFile.read_mid isReg front (url ++ (x ++ y)) [] _ _ hpos hlen.symm (by omega)
    rwa [List.append_nil] at this
  unfold readUrl
  dsimp only
  rw [hsz, checkResize_eq_ok (by omega), hread]
  simp only [bind, Except.bind]
  have hulen : (Pod.int 4).get (slice (url ++ (x ++ y)) url.length 4) = (url.length : ℤ).bmod (2 ^ 32) := by
    rw [← List.append_assoc, slice_append_mid url x y rfl hxl.symm, hx]
    rw [get_int_put, show (256 : ℕ) ^ 4 = 2 ^ 32 by norm_num]
  have hmagic : (Pod.int 4).get ((url ++ (x ++ y)).drop (url.length + 4)) = replyMagic := by
    rw [← List.append_assoc, List.drop_left' (by rw [List.length_append, hxl]), hy]
    rw [get_int_put]
    decide
  rw [if_neg (not_not.mpr hlen), if_neg (not_not.mpr hulen), if_neg (not_not.mpr hmagic), List.take_left]

/-- What is read from an image is the reply and the url that it was made of. -/
theorem deserializeNoUnlink_image {r : Reply123} {url : Bytes} (h : r.Held)
    (hhash : hexdigest r.content = r.contentThreeroe) (hurl : url.length < 2 ^ 31)
    (hmax : r.content.length + url.length + 108 ≤ maxTransfer) (wantUrl : Bool) :
    deserializeNoUnlink (some ⟨true, r.image url⟩) wantUrl = .ok (r, if wantUrl then some url else none) := by
  have hmax' : maxTransfer = 2147479552 := rfl
  have hpod := h.pod_length
  obtain ⟨a, ha⟩ : ∃ a, a = Reply123.pod.put r.members := ⟨_, rfl⟩
  obtain ⟨b, hb⟩ : ∃ b, b = (Pod.uint 8).put r.content.length := ⟨_, rfl⟩
  obtain ⟨c, hc⟩ : ∃ c, c = url ++ ((Pod.int 4).put url.length ++ (Pod.int 4).put replyMagic) := ⟨_, rfl⟩
  have hbl : b.length = 8 := hb ▸ Reply123.uint_put_length _ _
  rw [← ha] at hpod
  have himage : r.image url = (a ++ b) ++ (r.content ++ c) := by
    rw [Reply123.image, ← ha, ← hb, ← hc, List.append_assoc]
  have hab : (a ++ b).length = podLength + 8 := by rw [List.length_append, hpod, hbl]
  have hhead : CacheFile.read ⟨true, r.image url⟩ 0 (podLength + 8) = a ++ b := by
    rw [himage]
    exact CacheFile.read_mid (a := []) rfl hab.symm (by rw [podLength_eq]; decide)
  have hcontent : CacheFile.read ⟨true, r.image url⟩ (podLength + 8) r.content.length = r.content := by
    rw [himage]
    exact CacheFile.read_mid hab.symm rfl (by omega)
  have hend : CacheFile.readUrl ⟨true, r.image url⟩ (podLength + 8 + r.content.length) r.content.length
      = .ok url := by
    have hfront : (a ++ b ++ r.content).length = r.content.length + 100 := by
      rw [List.length_append, hab, podLength_eq]
      omega
    rw [himage, ← List.append_assoc, hc]
    exact CacheFile.readUrl_image hfront hurl (by omega)
  have hurlIf : CacheFile.readUrlIf ⟨true, r.image url⟩ wantUrl (podLength + 8 + r.content.length)
      r.content.length = .ok (if wantUrl then some url else none) := by
    unfold CacheFile.readUrlIf
    rw [hend]
    cases wantUrl <;> rfl
  have hmembers : Reply123.pod.get ((a ++ b).take podLength) = r.members := by
    rw [List.take_left' hpod, ha]
    exact Reply123.pod.get_put h.fits
  have hlen : (Pod.uint 8).get ((a ++ b).drop podLength) = r.content.length := by
    rw [List.drop_left' hpod, hb]
    exact get_uint_put (by omega)
  have hmagic : r.members.1 = replyMagic := h.magic
  unfold deserializeNoUnlink
  dsimp only
  rw [if_neg (not_not.mpr rfl), hhead, if_neg (not_not.mpr hab), hmembers, if_neg (not_not.mpr hmagic), hlen]
  unfold CacheFile.readContent
  rw [if_neg, checkResize_eq_ok (by omega), hcontent]
  · simp only [bind, Except.bind]
    rw [if_neg (not_not.mpr rfl), hurlIf]
    simp only
    rw [if_neg, Reply123.ofMembers_members]
    exact not_not.mpr hhash
  · rw [bytesNotCountingUrl_eq (by omega), h.image_length]
    omega

/-! ## Any file -/

/-- What `deserialize` does with a file: it returns, and the content of a valid reply has the hash that is
stored with it. -/
def Robust (file : Option CacheFile) : Prop :=
  ∃ ret renamed, deserialize file = .ok (ret, renamed)
    ∧ (ret.valid = false ∨ hexdigest ret.content = ret.contentThreeroe)

/-- Without the url, reading a file ends with an exception or with a reply that has been checked. -/
theorem readContent_cases (file : CacheFile) (members : Reply123.Members) (contentLen : ℕ) :
    Throws (file.readContent false members contentLen)
      ∨ ∃ ret, file.readContent false members contentLen = .ok (ret, none)
        ∧ hexdigest ret.content = ret.contentThreeroe := by
  unfold CacheFile.readContent checkResize throwEinval
  split
  · exact Or.inl (throws_throwE _ _)
  by_cases hbig : 2 ^ 63 ≤ contentLen
  · rw [if_pos hbig]
    exact Or.inl ⟨_, rfl⟩
  rw [if_neg hbig]
  simp only [bind, Except.bind]
  split
  · exact Or.inl (throws_throwE _ _)
  simp only [CacheFile.readUrlIf, Bool.false_eq_true, if_false]
  split
  · exact Or.inl (throws_throwE _ _)
  next heq => exact Or.inr ⟨_, rfl, not_not.mp heq⟩

/-- Every file is read to an exception, to an invalid reply, or to a checked one. -/
theorem deserializeNoUnlink_cases (file : Option CacheFile) :
    Throws (deserializeNoUnlink file false)
      ∨ ∃ ret, deserializeNoUnlink file false = .ok (ret, none)
        ∧ (ret.valid = false ∨ hexdigest ret.content = ret.contentThreeroe) := by
  rcases file with _ | file
  · exact Or.inr ⟨.miss, rfl, Or.inl rfl⟩
  unfold deserializeNoUnlink throwEinval
  dsimp only
  split
  · exact Or.inl (throws_throwE _ _)
  split
  · exact Or.inl (throws_throwE _ _)
  split
  · exact Or.inr ⟨.miss, rfl, Or.inl rfl⟩
  rcases readContent_cases file (Reply123.pod.get ((file.read 0 (podLength + 8)).take podLength))
    ((Pod.uint 8).get ((file.read 0 (podLength + 8)).drop podLength)) with h | ⟨ret, h, hhash⟩
  · exact Or.inl h
  · exact Or.inr ⟨ret, h, Or.inr hhash⟩

theorem robust (file : Option CacheFile) : Robust file := by
  rcases deserializeNoUnlink_cases file with ⟨e, he⟩ | ⟨ret, hret, hchecked⟩
  · refine ⟨.miss, true, ?_, Or.inl rfl⟩
    unfold deserialize
    rw [he]
    rfl
  · refine ⟨ret, false, ?_, hchecked⟩
    unfold deserialize
    rw [hret]
    rfl

/-! ## Round trip -/

/-- The reply comes back from a file, and so does the url if it is asked for. -/
def ImageReturns (r : Reply123) (url image : Bytes) : Prop :=
  deserialize (some ⟨true, image⟩) = .ok (r, false)
    ∧ deserializeNoUnlink (some ⟨true, image⟩) true = .ok (r, some url)

theorem serialize_eq_ok_iff {env : SerializeEnv} {r : Reply123} {path url image : Bytes} (h : r.Held) :
    serialize env r path url = .ok (some image)
      ↔ (env.deferred = false ∧ env.injected = true ∧ env.created = true)
        ∧ hexdigest r.content = r.contentThreeroe ∧ url.length % 2 ^ 32 < 2 ^ 31
        ∧ r.content.length + url.length % 2 ^ 32 + 108 ≤ min maxTransfer env.room
        ∧ image = r.image (url.take (url.length % 2 ^ 32)) := by
  rw [← Reply123.writeImage_eq_ok_iff h]
  unfold serialize
  split
  · next hgate =>
    refine iff_of_false (by simp) ?_
    rintro ⟨⟨hd, hi, hc⟩, -⟩
    simp [hd, hi, hc] at hgate
  next hgate =>
  rw [not_or, not_or, not_not, not_not, Bool.not_eq_true] at hgate
  rw [and_iff_right hgate, catchE_eq_ok_iff (by simp)]
  rcases r.writeImage env.room url with e | wrote
  · simp [Except.map]
  · simp [Except.map]

/-- What `serialize` writes comes back exactly if the length of the url fits into an `int32_t`, and whatever is
found under a path is read without an exception to an invalid reply or to one whose hash is right. -/
theorem image_round_trip_iff {env : SerializeEnv} {r : Reply123} {path url image : Bytes} (hr : r.Held)
    (himage : serialize env r path url = .ok (some image)) :
    (ImageReturns r url image ∧ ∀ file, Robust file) ↔ url.length < 2 ^ 31 := by
  obtain ⟨-, hhash, hlen, hroom, rfl⟩ := (serialize_eq_ok_iff hr).mp himage
  have hmod : url.length % 2 ^ 32 ≤ url.length := Nat.mod_le _ _
  have hmax : r.content.length + url.length % 2 ^ 32 + 108 ≤ maxTransfer := le_trans hroom (min_le_left _ _)
  have htake : (url.take (url.length % 2 ^ 32)).length = url.length % 2 ^ 32 := by
    rw [List.length_take, Nat.min_eq_left hmod]
  have hread := @deserializeNoUnlink_image r (url.take (url.length % 2 ^ 32)) hr hhash
    (by rw [htake]; exact hlen) (by rw [htake]; exact hmax)
  constructor
  · rintro ⟨⟨-, hback⟩, -⟩
    rw [hread true, Except.ok.injEq, Prod.mk.injEq, if_pos rfl, Option.some.injEq] at hback
    have := congrArg List.length hback.2
    rw [htake] at this
    omega
  · intro hlt
    have hurl : url.take (url.length % 2 ^ 32) = url := List.take_of_length_le (by omega)
    rw [hurl] at hread ⊢
    refine ⟨⟨?_, hread true⟩, robust⟩
    unfold deserialize
    rw [hread false]
    rfl

/-- The reply to a request for a symbolic link, and a disk with room for it. -/
def linkReply : Reply123 :=
  { Reply123.miss with
    eno72 := 0, expires := 1700000060000000000, etag64 := 77, lastRefresh := 1700000000000000000,
    contentEncoding := ceIdent, contentThreeroe := hexdigest (bytes "hi"), content := bytes "hi" }

@[inherit_doc linkReply] def roomyDisk : SerializeEnv := ⟨false, true, true, 4096⟩

theorem linkReply_held : linkReply.Held where
  fits := by
    have h := hexdigest_length (bytes "hi")
    exact ⟨by decide, by decide, by decide, by decide, by decide, by decide, by decide, by decide, by decide,
      by decide, h⟩
  magic := rfl

theorem image_round_trip_link :
    ImageReturns linkReply (bytes "/l/home") (linkReply.image (bytes "/l/home")) ∧ ∀ file, Robust file := by
  have himage : serialize roomyDisk linkReply (bytes "0/123") (bytes "/l/home")
      = .ok (some (linkReply.image (bytes "/l/home"))) :=
    (serialize_eq_ok_iff linkReply_held).mpr ⟨⟨rfl, rfl, rfl⟩, rfl, by decide, by decide, by decide⟩
  exact (image_round_trip_iff linkReply_held himage).mpr (by decide)

/-- A url of 4 GiB has the 32-bit length 0, and nothing of it gets into the file. -/
theorem long_url_not_recovered :
    ∃ image, serialize roomyDisk linkReply (bytes "0/123") (List.replicate (2 ^ 32) (ch 'a')) = .ok (some image)
      ∧ ¬ ImageReturns linkReply (List.replicate (2 ^ 32) (ch 'a')) image := by
  have hmod : (List.replicate (2 ^ 32) (ch 'a')).length % 2 ^ 32 = 0 := by
    rw [List.length_replicate, Nat.mod_self]
  refine ⟨linkReply.image [], ?_, ?_⟩
  · rw [serialize_eq_ok_iff linkReply_held, hmod, List.take_zero]
    exact ⟨⟨rfl, rfl, rfl⟩, rfl, by decide, by decide, rfl⟩
  · rintro ⟨-, hback⟩
    rw [deserializeNoUnlink_image linkReply_held rfl (by decide) (by decide), Except.ok.injEq, Prod.mk.injEq,
      if_pos rfl, Option.some.injEq] at hback
    have := congrArg List.length hback.2
    rw [List.length_replicate] at this
    simp at this

end Fs123
