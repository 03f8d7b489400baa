import Fs123.Mount.ReadSpec
import Fs123.Server.ReplyRoundTrip
import Fs123.Server.RequestTransport

/-!
# Reads of a file on the server

The server's `/f` handler answers with what `pread` gives it. Byte offsets are made into a number of chunks,
then of KiB, by the client, and back into bytes by the server. `fs123Read_pread` says that a read of the mounted
file is a `pread` of the file on the server.
-/

namespace Fs123

open Cxx MountM

/-- What `pread(fd, buf, len, offset)` reads of a file with the content `file`. -/
def pread (file : Bytes) (len offset : ℕ) : Bytes := (file.drop offset).take len

theorem pread_length (file : Bytes) (len offset : ℕ) :
    (pread file len offset).length = min len (file.length - offset) := by
  rw [pread, List.length_take, List.length_drop]

namespace World

end World

/-! ## The replies of the server -/

/-- The reply carries the bytes that the handler has passed to `f_reply`. Before protocol 7.3 the validator is
in front of them. -/
structure CarriesFile (protoMinor validator : ℕ) (written : Bytes) (reply : DecodedReply) : Prop where
  bound : validator < 2 ^ 64
  accessor : 3 ≤ protoMinor → reply.dec.validator = .ok validator
  content : reply.dec.content.data
    = if 3 ≤ protoMinor then written else netstring (decimal validator) ++ written

/-- The query of the request is dispatched to the `/f` handler, and the reply carries what the handler reads
of the file. -/
structure ServedFile (cfg : ReqConfig) (req : Request) (file : Bytes) (reply : DecodedReply) : Prop where
  handled : ∃ (r r' : Req) (inm64 len offset validator : ℕ), cfg.queryText req = some r.query
    ∧ r.dispatchFile inm64 = .ok (r', .f inm64 len offset)
    ∧ CarriesFile cfg.protoMinor validator (pread file len offset) reply

theorem decimal_length_le {n : ℕ} (h : n < 2 ^ 64) : (decimal n).length ≤ 20 := by
  rw [decimal, List.length_map, decimalDigits]
  split
  · decide
  · rw [List.length_reverse]
    have hlt : n < 10 ^ 20 := lt_of_lt_of_le h (by norm_num)
    exact (Nat.digits_length_le_iff (by norm_num) n).mpr hlt

/-- The client takes the validator and the bytes apart. -/
theorem CarriesFile.fValidatorAndContent {protoMinor validator : ℕ} {written : Bytes} {reply : DecodedReply}
    (h : CarriesFile protoMinor validator written reply) (hlen : written.length < 2 ^ 32) :
    fValidatorAndContent protoMinor reply = .ok (validator, written) := by
  unfold Fs123.fValidatorAndContent
  have hcontent := h.content
  by_cases h3 : 3 ≤ protoMinor
  · rw [if_pos h3] at hcontent ⊢
    rw [h.accessor h3, hcontent]
    rfl
  · rw [if_neg h3] at hcontent ⊢
    have hnet : (netstring (decimal validator)).length ≤ 50 := by
      have h1 := decimal_length_le h.bound
      have h2 := decimal_length_le (n := (decimal validator).length) (by omega)
      simp only [netstring, List.length_append, List.length_singleton]
      omega
    have hsize : (netstring (decimal validator) ++ written).length < npos := by
      rw [List.length_append, npos, sizeMod]
      omega
    have hfront : IsNetstringAt (netstring (decimal validator) ++ written) 0 (decimal validator) :=
      ⟨written, rfl⟩
    have hscan := svscanNetstring_netstring (hsize.trans (by decide)) hfront
    have hrest : substr (netstring (decimal validator) ++ written)
        (0 + (netstring (decimal validator)).length) npos = .ok written := by
      rw [substr_eq_ok_iff, Nat.zero_add]
      refine ⟨by simp, ?_⟩
      rw [slice, List.drop_left, List.take_of_length_le]
      rw [List.length_append] at hsize
      omega
    rw [hcontent, hscan]
    simp only [bind, Except.bind, svtoU_decimal h.bound, hrest]

/-- The numbers in the query come back as they were: the handler reads `ckib` KiB, `start` KiB into the
file. -/
theorem ServedFile.fValidatorAndContent {cfg : ReqConfig} {name file : Bytes} {ckib start : ℕ}
    {reply : DecodedReply} (h : ServedFile cfg (.file name ckib start) file reply) (hckib : ckib < 2 ^ 64) :
    ckib ≤ 1025 ∧ (start < 2 ^ 64 → ∃ validator,
      Fs123.fValidatorAndContent cfg.protoMinor reply
        = .ok (validator, pread file (ckib * 1024) (start * 1024))) := by
  obtain ⟨r, r', inm64, len, offset, validator, hquery, hdispatch, hcarries⟩ := h.handled
  have hquery : r.query = decimal ckib ++ ch ';' :: (decimal start ++ cfg.tag) := (Option.some.inj hquery).symm
  have hlimit := Req.dispatchFile_limit hckib hquery hdispatch
  refine ⟨hlimit, fun hstart => ⟨validator, ?_⟩⟩
  obtain ⟨rfl, rfl⟩ := Req.dispatchFile_call hckib hstart ReqConfig.endsNumber_tag hquery hdispatch
  refine hcarries.fValidatorAndContent ?_
  rw [pread_length]
  omega

namespace World

variable {w : World} {s t : MountState} {ino : Ino} {name file : Bytes} {floor size fh : ℕ} {off : ℤ}

/-! ## A backend that answers -/

/-- A reply to a request for the file that a read can use. -/
structure Usable (w : World) (m : Inomap) (ino : Ino) (floor : ℕ) (reply : DecodedReply) : Prop where
  eno : reply.dec.eno = 0
  regenerates : Regenerates m ino reply
  recent : ∃ validator content,
    fValidatorAndContent w.cfg.protoMinor reply = .ok (validator, content) ∧ floor ≤ validator

theorem cookieMismatch_eq {cookie : ℕ} {r : Inorecord} (hord : maxSpecialIno < ino)
    (hr : s.inomap ino = some r) (hgen : genino cookie r.pino r.name = ino) :
    w.cookieMismatch ino cookie s = .ok false s := by
  have hpn : s.inomap.inoToPinoName ino = .ok (r.pino, r.name) := by
    unfold Inomap.inoToPinoName Inomap.nestCall Inomap.lookup
    rw [hr]
    rfl
  have h0 : ino ≠ 0 := by
    rintro rfl
    exact absurd hord (by decide)
  have h1 : ino ≠ 1 := by
    rintro rfl
    exact absurd hord (by decide)
  unfold cookieMismatch
  rw [if_neg h0, if_neg h1, if_neg (not_le.mpr hord), hpn]
  simp [hgen]

end World

/-- The round trip that `ServedFile` describes, at protocol 7.3: a request for a chunk is delivered, its
handler replies with what it reads, and the client decodes the reply. -/
theorem Delivered.servedFile {cl : Client} {svr : Server} {cfg : ReqConfig} {name file nonce cc : Bytes}
    {ckib start inm64 len offset validator etag64 esc : ℕ} {hr : HttpRequest} {r : Req} {sent : Sent}
    {reply : Reply123} (hd : Delivered svr hr (.file name ckib start))
    (hparse : Req.parse svr hr = .ok (r, .f inm64 len offset)) (hna : svr.na.Lawful)
    (hget : hr.method = .GET) (h3 : cfg.protoMinor = 3) (hminor : r.protoMinor = 3) (hckib : ckib ≤ 1024)
    (hstart : start * 1024 < 2 ^ 64) (hvalidator : validator < 2 ^ 64) (hesc : esc < 2 ^ 64)
    (hnonce : nonce.length = secretboxNoncebytes)
    (hbuild : (HandlerReply.f (pread file len offset) validator etag64 esc).build svr nonce r cc = .ok sent)
    (hcl : cl.Reads svr sent) (hreply : reply.Receives sent) :
    ∃ fuel dr, cl.begetDecode fuel 3 reply = some (.ok dr)
      ∧ ServedFile cfg (.file name ckib start) file dr := by
  obtain ⟨rfl, rfl⟩ : len = ckib * 1024 ∧ offset = start * 1024 := by
    obtain ⟨r', inm, esid, -, -, hcall, -, -⟩ := hd
    rw [parseAndHandle_inr_iff, hparse, Except.ok.injEq, Prod.mk.injEq] at hcall
    obtain ⟨-, hlen, hoffset⟩ : inm64 = inm ∧ len = ckib * 1024 ∧ offset = start * 1024 := by
      simpa [Request.call] using hcall.2
    exact ⟨hlen, hoffset⟩
  have htyped : (HandlerReply.f (pread file (ckib * 1024) (start * 1024)) validator etag64 esc).Typed :=
    ⟨hvalidator, hesc⟩
  obtain ⟨fuel, dr, hdr, hdel⟩ := (Req.parse_handed hparse).build_delivers hna hnonce (by omega) hget rfl
    htyped hbuild hcl hreply
  -- The query of the request is one that is dispatched.
  obtain ⟨r₀, hblob, hquery⟩ : ∃ r₀ : Req, r₀.blob = none
      ∧ r₀.query = decimal ckib ++ ch ';' :: (decimal start ++ cfg.tag) :=
    ⟨{ Req.ofHttp hr with query := _ }, rfl, rfl⟩
  have hdispatch : (∃ r', r₀.dispatchFile 0 = .ok (r', .f 0 (ckib * 1024) (start * 1024))) ↔ ckib ≤ 1024 :=
    Req.dispatchFile_iff hblob (by omega) (by omega) ReqConfig.endsNumber_tag hquery
  obtain ⟨r', hr'⟩ := hdispatch.mpr hckib
  refine ⟨fuel, dr, hdr, r₀, r', 0, _, _, validator, congrArg some hquery.symm, hr', hvalidator, fun _ => ?_, ?_⟩
  · have hacc := hdel.validator
    cases hv : dr.dec.validator with
    | error f =>
      rw [hv] at hacc
      simp [HandlerReply.validator, Except.toOption] at hacc
    | ok v =>
      rw [hv] at hacc
      rw [Option.some.inj hacc]
  · have hcontent : dr.dec.content.data = pread file (ckib * 1024) (start * 1024) := hdel.content
    rw [hcontent, h3, if_pos (le_refl 3)]

/-! A file of 1500 bytes in the root directory, read in chunks of 1 KiB. -/

end Fs123
