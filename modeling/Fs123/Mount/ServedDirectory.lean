import Fs123.Exportd.DirChunksSpec
import Fs123.Mount.ReaddirRuns
import Fs123.Server.ReplyRoundTrip

/-!
# From the directory of the server to that of the mount

The chunks that `exportd_handler::d` sends for a directory are the pages of a `Listing` (`Chunks`), with the
directory's own offsets as starts. So what `fs123_readdir` replies, call after call, is the stream of the server's
`readdir`, with offsets of its own (`served_directory_read`).
-/

namespace Fs123

open Cxx Greedy Transition

/-- An entry as it stands in a reply. -/
def DirEntry.listed (dir : OpenedDir) (e : DirEntry) : Listed where
  name := e.dName
  dType := e.dType
  estaleCookie := dir.entryEsc e
  name_ne := e.dName_ne_nil
  name_le := e.dName_length_le
  dType_ge := le_trans (by decide) (Int.natCast_nonneg _)
  dType_lt := lt_trans (Int.ofNat_lt.mpr e.dType_lt) (by decide)
  cookie_lt := dir.entryEsc_lt e

theorem DirEntry.texts_listed (dir : OpenedDir) (es : List DirEntry) :
    Listed.texts (es.map (DirEntry.listed dir)) = es.flatMap (DirEntry.text dir.entryEsc) := by
  induction es with
  | nil => rfl
  | cons e es ih =>
    rw [List.map_cons, Listed.texts_cons, ih]
    rfl

/-! ## Chunks as pages -/

/-- The chunks from a start on, each with its start, as the pages of a listing. -/
structure Chunks (dl : DirListing) (chunkstart : Bytes) (sent : List DirEntry) (pages : List (Bytes × List Listed)) :
    Prop where
  ne : pages ≠ []
  first : ((pages[0]?).map Prod.fst).getD [] = chunkstart
  start : ∀ i, 0 < i → (((pages[i]?).map Prod.fst).getD [] = [] ↔ pages.length ≤ i)
  entries_ne : ∀ i, i + 1 < pages.length → ((pages[i]?).map Prod.snd).getD [] ≠ []
  sends : ∀ i < pages.length, DirListing.IsStart (((pages[i]?).map Prod.fst).getD [])
    ∧ ∃ es, dl.Sends (((pages[i]?).map Prod.fst).getD []) es (((pages[i + 1]?).map Prod.fst).getD [])
      ∧ ((pages[i]?).map Prod.snd).getD [] = es.map (DirEntry.listed dl.dir)
  entries : pages.flatMap Prod.snd = sent.map (DirEntry.listed dl.dir)

theorem DirListing.isStart_nextstart (dl : DirListing) (rest : List DirEntry) : IsStart (dl.nextstart rest) := by
  rw [nextstart]
  split
  · exact Or.inl rfl
  · refine Or.inr ⟨_, ?_, rfl⟩
    cases (dl.cut rest).1.getLast? with
    | none => exact (by decide : 0 < 2 ^ 64)
    | some e => exact e.lastOff_lt

theorem DirListing.Valid.chunks {dl : DirListing} (hv : dl.Valid) {chunkstart : Bytes} {pages : List (List DirEntry)}
    (h : dl.Pages chunkstart pages) (hstart : IsStart chunkstart) : ∃ ps, Chunks dl chunkstart pages.flatten ps := by
  induction h with
  | @last chunkstart sent hsends =>
    refine ⟨[(chunkstart, sent.map (DirEntry.listed dl.dir))], List.cons_ne_nil _ _, rfl, ?_, ?_, ?_, ?_⟩
    · intro i hi
      rw [List.getElem?_eq_none (show [_].length ≤ i from hi)]
      exact ⟨fun _ => hi, fun _ => rfl⟩
    · intro i hi
      simp at hi
    · intro i hi
      obtain rfl : i = 0 := by simpa using hi
      exact ⟨hstart, sent, hsends, rfl⟩
    · simp
  | @more chunkstart nextstart sent pages hsends hnext hsent _ ih =>
    obtain ⟨rest, -, -, hrest⟩ := (hv.sends_iff hstart).mp hsends
    obtain ⟨ps, hps⟩ := ih (hrest ▸ dl.isStart_nextstart rest)
    have hpos := List.length_pos_iff.mpr hps.ne
    refine ⟨(chunkstart, sent.map (DirEntry.listed dl.dir)) :: ps, List.cons_ne_nil _ _, rfl, ?_, ?_, ?_, ?_⟩
    · intro i hi
      obtain ⟨i, rfl⟩ := Nat.exists_eq_succ_of_ne_zero hi.ne'
      rw [List.getElem?_cons_succ, List.length_cons, Nat.succ_le_succ_iff]
      rcases Nat.eq_zero_or_pos i with rfl | hi
      · rw [hps.first]
        constructor
        · exact fun h => absurd h hnext
        · intro h
          omega
      · exact hps.start i hi
    · intro i hi
      cases i with
      | zero => simpa using hsent
      | succ i => exact hps.entries_ne i (by simpa using hi)
    · intro i hi
      cases i with
      | zero =>
        refine ⟨hstart, sent, ?_, rfl⟩
        rw [List.getElem?_cons_succ, hps.first]
        exact hsends
      | succ i => exact hps.sends i (by simpa using hi)
    · rw [List.flatMap_cons, hps.entries, List.flatten_cons, List.map_append]

/-- The listing that the chunks make up. -/
def Chunks.listing {dl : DirListing} {sent : List DirEntry} {pages : List (Bytes × List Listed)}
    (h : Chunks dl [] sent pages)
    (hlen : 4 + (sent.flatMap (DirEntry.text dl.dir.entryEsc)).length < 2 ^ 63) : Listing where
  pages
  pages_ne := h.ne
  start_eq_nil_iff i := by
    rcases Nat.eq_zero_or_pos i with rfl | hi
    · simp only [h.first, true_or]
    · rw [h.start i hi]
      omega
  entries_ne := h.entries_ne
  length_lt := by
    rw [h.entries, DirEntry.texts_listed]
    exact hlen

/-! ## A mount of the directory -/

/-- The mount asks for the directory as the listing says, and each chunk that the server sends is delivered. The
cookie of the replies fits the inode. -/
structure Asks (w : DirWorld) (dl : DirListing) (ino pino : Ino) (s : MountState) : Prop where
  pino : s.inomap.inoToPino ino = .ok pino
  name : s.inomap.inoToFullname w.stack ino = .ok dl.name
  cfg : w.cfg = dl.cfg
  chunk : w.chunk = dl.ckib
  stem : ∀ chunkstart, ∃ stem, w.client.encryptRequest (w.cfg.urlstem (.dir dl.name dl.ckib chunkstart)) = .ok stem
  answers : ∀ chunkstart sent next, DirListing.IsStart chunkstart → dl.Sends chunkstart sent next → ∀ n, ∃ reply,
    w.answer n ⟨.dir dl.name dl.ckib chunkstart, none, false⟩ = .ok reply
      ∧ (HandlerReply.d next dl.dir.etag64 dl.dir.esc).Delivers (sent.flatMap (DirEntry.text dl.dir.entryEsc)) reply.dec
  cookie : w.ignoreEstaleMismatch = true ∨ (ino = 1 ∧ s.rootCookie.getD dl.dir.esc = dl.dir.esc)
    ∨ (maxSpecialIno < ino ∧ ∃ r, s.inomap ino = some r ∧ genino dl.dir.esc r.pino r.name = ino)

theorem toOption_eq_some {α : Type} {x : Res α} {a : α} (h : x.toOption = some a) : x = .ok a := by
  cases x with
  | error f => cases h
  | ok b => rw [Option.some.inj h]

theorem Asks.mounted {w : DirWorld} {dl : DirListing} {ino pino : Ino} {s : MountState} {sent : List DirEntry}
    {pages : List (Bytes × List Listed)} (h : Asks w dl ino pino s) (hp : Chunks dl [] sent pages)
    (hlen : 4 + (sent.flatMap (DirEntry.text dl.dir.entryEsc)).length < 2 ^ 63) :
    Mounted w (hp.listing hlen) ino pino s := by
  refine ⟨h.pino, dl.name, h.name, ?_⟩
  intro i hi
  rw [h.chunk]
  refine ⟨h.stem _, fun n => ?_⟩
  obtain ⟨hstart, es, hsends, hes⟩ := hp.sends i hi
  obtain ⟨reply, hreply, hdel⟩ := h.answers _ _ _ hstart hsends n
  refine ⟨reply, hreply, ⟨hdel.eno, ?_, toOption_eq_some hdel.chunkNextStart⟩, dl.dir.esc,
    toOption_eq_some hdel.estaleCookie, h.cookie⟩
  have hpage : (hp.listing hlen).page i = es.map (DirEntry.listed dl.dir) := hes
  rw [hdel.content, hpage, DirEntry.texts_listed]

/-- What is to be read of a directory with these entries. -/
def dirStream (w : DirWorld) (dl : DirListing) (ino pino : Ino) : List Dirent :=
  Listing.specialsFrom ino 0
    ++ direntsOf w ino pino (Listing.base ino) (dl.dir.stream.entries.map (DirEntry.listed dl.dir))

/-- A directory of the server that can be read in chunks, read through the mount by a reader that goes on with the
offset of the last entry: each call adds entries in the order of the server's `readdir` until all of them are there,
each of them once, and no call replies with nothing before that. -/
theorem served_directory_read {w : DirWorld} {dl : DirListing} {ino pino : Ino} (hv : dl.Valid)
    (hfirst : dl.cfg.cachetag = 0 ∨ dl.cfg.protoMinor < 3)
    (hcuts : ∀ e ∈ cuts (DirEntry.textSize dl.dir.entryEsc) (dl.ckib * 1024) dl.dir.stream.entries,
      dl.cfg.cachetag = 0 ∧ 0 ≤ e.dOff)
    (hlen : 4 + (dl.dir.stream.entries.flatMap (DirEntry.text dl.dir.entryEsc)).length < 2 ^ 63)
    (hroot : ino = 1 → dl.dir.stream.entries ≠ []) {calls : List (MountState × ℕ)}
    (hcalls : ∀ c ∈ calls, Asks w dl ino pino c.1 ∧ ∀ d ∈ dirStream w dl ino pino, w.room d ≤ c.2) :
    ∃ r, run (w.readOn ino) .opened calls = some r ∧ r.received <+: dirStream w dl ino pino
      ∧ (r.received = dirStream w dl ino pino ∨ calls.length ≤ r.received.length)
      ∧ ∀ q ∈ r.replies, q.2 = [] → r.received = dirStream w dl ino pino := by
  have hpaged := (@paged_iff _ _ _ dl.dir.stream.entries dl.Resumable fun e _ => hv.textSize_le e).mpr hcuts
  obtain ⟨pages, hpages, hflat⟩ := hv.pages_of_paged hpaged [] [] (Or.inl rfl) rfl
    (DirListing.entriesFrom_nil_iff.mpr ⟨hfirst, rfl⟩)
  obtain ⟨ps, hps⟩ := hv.chunks hpages (Or.inl rfl)
  rw [hflat] at hps
  have hentries : (hps.listing hlen).entries = dl.dir.stream.entries.map (DirEntry.listed dl.dir) := hps.entries
  have hstream : (hps.listing hlen).stream w ino pino = dirStream w dl ino pino := by
    rw [Listing.stream, hentries]
    rfl
  have hne : ino = 1 → (hps.listing hlen).entries ≠ [] := by
    intro h
    rw [hentries, Ne, List.map_eq_nil_iff]
    exact hroot h
  rw [← hstream] at hcalls ⊢
  exact readdir_once hne fun c hc => ⟨(hcalls c hc).1.mounted hps hlen, (hcalls c hc).2⟩

/-! A mount that is answered by the server itself. -/

/-- The reply to a request for a chunk. -/
def DirListing.answer (dl : DirListing) (chunkstart : Bytes) : Res DecodedReply := do
  let rest ← dl.entriesFrom chunkstart
  .ok ⟨0, 0, true, ⟨0, ⟨0, (dl.cut rest).1.flatMap (DirEntry.text dl.dir.entryEsc)⟩,
    [(⟨0, keyCookie⟩, ⟨0, decimal dl.dir.esc⟩), (⟨0, keyNextstart⟩, ⟨0, dl.nextstart rest⟩)]⟩⟩

/-- A client without secrets, on 64-bit Linux. -/
def DirListing.world (dl : DirListing) : DirWorld where
  cfg := dl.cfg
  client := ⟨sodiumHi, none, true, false⟩
  chunk := dl.ckib
  ignoreEstaleMismatch := false
  answer _ req :=
    match req.request with
    | .dir _ _ chunkstart => dl.answer chunkstart
    | .attr _ | .file _ _ _ | .link _ | .statfs _ | .xattr _ _ _ | .stats => throwE .runtimeError []
  flush _ _ := .ok ()
  specialText _ := []
  stack := 8
  stInoMask := 2 ^ 64 - 1
  direntSize := linuxDirentSize
  direntSize_pos := linuxDirentSize_pos
  direntSize_le := linuxDirentSize_le

theorem DirListing.Valid.answer_delivers {dl : DirListing} (hv : dl.Valid) {chunkstart : Bytes} {sent : List DirEntry}
    {next : Bytes} (hstart : DirListing.IsStart chunkstart) (h : dl.Sends chunkstart sent next)
    (hesc : dl.dir.esc < 2 ^ 64) : ∃ reply, dl.answer chunkstart = .ok reply
      ∧ (HandlerReply.d next dl.dir.etag64 dl.dir.esc).Delivers (sent.flatMap (DirEntry.text dl.dir.entryEsc))
        reply.dec := by
  obtain ⟨rest, hrest, htexts, hnext⟩ := (hv.sends_iff hstart).mp h
  have hcookie : svtoU 64 (decimal dl.dir.esc) = .ok dl.dir.esc := svtoU_decimal hesc
  have hne : keyNextstart ≠ keyCookie := by decide
  have hnv : keyNextstart ≠ keyValidator ∧ keyCookie ≠ keyValidator := by decide
  refine ⟨_, by rw [DirListing.answer, hrest]; rfl, rfl, htexts, ?_, ?_, ?_⟩
  · simp [Decoded.estaleCookie, Decoded.at, rethrowAs, bind, Except.bind, hcookie, HandlerReply.cookie, Except.toOption]
  · simp [Decoded.validator, Decoded.at, rethrowAs, bind, Except.bind, hnv.1, hnv.2, HandlerReply.validator,
      Except.toOption, throwE, catchE]
  · simp [Decoded.chunkNextStart, Decoded.at, rethrowAs, hne.symm, HandlerReply.nextstart, Except.toOption, hnext]

def longIno : Ino := genino 0 1 (bytes "x")

/-- The four long names at `/x`. -/
def longDirectory : DirListing := longListing (.ofEntries (longEntries 3 (by decide) (by decide)) (by decide))

def longState : MountState where
  inomap := Function.update (fun _ => none) longIno (some ⟨bytes "x", 1, 1, 5⟩)
  attrcache := ⟨0, fun _ => none⟩
  rootCookie := none
  asked := 0
  notices := []

theorem longState_inomap : longState.inomap longIno = some ⟨bytes "x", 1, 1, 5⟩ := by
  show Function.update (fun _ : Ino => (none : Option Inorecord)) longIno _ longIno = _
  rw [Function.update_self]

theorem longState_asks : Asks longDirectory.world longDirectory longIno 1 longState where
  pino := by
    unfold Inomap.inoToPino Inomap.lookup
    rw [longState_inomap]
    rfl
  name := by
    have hne : longIno ≠ 1 := by decide +kernel
    unfold Inomap.inoToFullname Inomap.lookup
    rw [if_neg hne, longState_inomap]
    rfl
  cfg := rfl
  chunk := rfl
  stem chunkstart := ⟨_, rfl⟩
  answers chunkstart sent next hstart h n := (longListing_valid _).answer_delivers hstart h (by decide)
  cookie := by
    have hlt : maxSpecialIno < longIno := by decide +kernel
    exact Or.inr (Or.inr ⟨hlt, _, longState_inomap, rfl⟩)

/-- Six calls with a buffer for one entry each: the four entries, and then the end. -/
theorem served_directory_read_long : ∃ r, run (longDirectory.world.readOn longIno) .opened
    (List.replicate 6 (longState, 280)) = some r
      ∧ r.received = dirStream longDirectory.world longDirectory longIno 1 := by
  have hlen : (dirStream longDirectory.world longDirectory longIno 1).length = 4 := by
    have hne : longIno ≠ 1 := by decide +kernel
    rw [dirStream, Listing.specialsFrom, if_neg hne, List.nil_append, Listing.length_direntsOf]
    rfl
  have hroom : ∀ d ∈ dirStream longDirectory.world longDirectory longIno 1,
      longDirectory.world.room d ≤ 280 := by
    intro d hd
    have hne : longIno ≠ 1 := by decide +kernel
    rw [dirStream, Listing.specialsFrom, if_neg hne, List.nil_append] at hd
    exact longDirectory.world.direntSize_le _ (name_length_le hd)
  obtain ⟨r, hrun, hprefix, hprogress, -⟩ := @served_directory_read longDirectory.world longDirectory longIno 1
    (longListing_valid _) (Or.inl rfl) (by decide +kernel) (by decide +kernel)
    (fun h => absurd h (by decide +kernel)) (List.replicate 6 (longState, 280)) (by
      intro c hc
      obtain rfl := List.eq_of_mem_replicate hc
      exact ⟨longState_asks, hroom⟩)
  refine ⟨r, hrun, hprogress.resolve_right fun hle => ?_⟩
  have hshort := hprefix.length_le
  rw [List.length_replicate] at hle
  omega

end Fs123
