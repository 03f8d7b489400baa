import Fs123.Exportd.DirChunks
import Fs123.Server.DispatchSpec
import Fs123.Server.ReplySpec

/-!
# Reading a directory chunk by chunk

A client reads a directory by sending the start of the next chunk back until there is none. The text that it
sends passes its query, the parse of the server and `svto<long>`, and `d` goes on from where `seekdir` leads
(`entriesFrom`). `chunks_continue_iff` says which directories can be read to their end.
-/

namespace Fs123

open Cxx Greedy

/-! ## One chunk -/

namespace DirEntry

/-- The line of an entry in a reply. -/
def text (entryEsc : DirEntry → ℕ) (e : DirEntry) : Bytes :=
  netstring e.dName ++ [ch ' '] ++ decimalInt e.dType ++ [ch ' '] ++ decimal (entryEsc e) ++ [ch '\n']

/-- The room that an entry takes. -/
def textSize (entryEsc : DirEntry → ℕ) (e : DirEntry) : ℕ := (e.text entryEsc).length

theorem decimal_length_le_of_lt {n k : ℕ} (h : n < 10 ^ (k + 1)) : (decimal n).length ≤ k + 1 := by
  rw [decimal_length]
  exact decimalDigits_length_le h

/-- Every entry fits into the smallest buffer. -/
theorem textSize_le {entryEsc : DirEntry → ℕ} (hesc : ∀ e, entryEsc e < 2 ^ 64) (e : DirEntry) :
    e.textSize entryEsc ≤ 1024 := by
  have hname := e.dName_length_le
  have htype : (decimalInt (e.dType : ℤ)).length ≤ 3 :=
    @decimal_length_le_of_lt e.dType 2 (lt_trans e.dType_lt (by decide))
  have hcount : (decimal e.dName.length).length ≤ 3 := @decimal_length_le_of_lt _ 2 (by omega)
  have hcookie : (decimal (entryEsc e)).length ≤ 20 :=
    @decimal_length_le_of_lt _ 19 (lt_trans (hesc e) (by decide))
  rw [textSize, text, netstring]
  simp only [List.length_append, List.length_singleton]
  omega

theorem lastOff_lt (e : DirEntry) : e.lastOff < 2 ^ 64 := by
  have := Int.emod_lt_of_pos e.dOff (show (0 : ℤ) < 2 ^ 64 by decide)
  have := Int.emod_nonneg e.dOff (show (2 : ℤ) ^ 64 ≠ 0 by decide)
  rw [lastOff]
  omega

/-- The unsigned offset is below `2^63` if the kernel's value is not negative, and then it is that value. -/
theorem lastOff_lt_iff (e : DirEntry) : e.lastOff < 2 ^ 63 ↔ 0 ≤ e.dOff := by
  have := e.le_dOff
  have := e.dOff_lt
  rw [lastOff]
  omega

theorem lastOff_eq {e : DirEntry} (h : 0 ≤ e.dOff) : (e.lastOff : ℤ) = e.dOff := by
  have := e.dOff_lt
  rw [lastOff]
  omega

end DirEntry

namespace Req

variable {r : Req} {entryEsc : DirEntry → ℕ}

/-- An entry is added exactly if it fits. -/
theorem addDirent_withBuf {f c b : Bytes} (hd : r.function = bytes "d") (hsmall : Small f c b)
    (hback : backRoom ≤ b.length) (e : DirEntry) :
    (r.withBuf f c b).addDirent e.dName e.dType (entryEsc e)
      = .ok (if e.textSize entryEsc ≤ b.length - backRoom
          then (r.withBuf f (c ++ e.text entryEsc) (b.drop (e.textSize entryEsc)), true)
          else (r.withBuf f c b, false)) := by
  have havail : (r.withBuf f c b).bufContentAvailBack = .ok (b.length - backRoom) := by
    rw [bufContentAvailBack, withBuf_availBack r hsmall, if_neg (by rw [backRoom] at hback; omega), backRoom,
      Nat.sub_sub]
  have hlen := e.dName_length_le
  have hne := List.length_pos_iff.mpr e.dName_ne_nil
  unfold addDirent
  rw [if_neg (show ¬ (r.withBuf f c b).function ≠ bytes "d" from not_not.mpr hd), if_neg (by omega),
    if_neg (by omega)]
  simp only [bind, Except.bind, havail]
  rw [← DirEntry.text, ← DirEntry.textSize]
  by_cases hfit : e.textSize entryEsc ≤ b.length - backRoom
  · rw [if_neg (by omega), if_pos hfit,
      append_withBuf r hsmall (show (e.text entryEsc).length ≤ b.length by rw [← DirEntry.textSize]; omega)]
    rfl
  · rw [if_pos (by omega), if_neg hfit]

/-- The loop over the entries adds those that fit. -/
theorem readEntries_withBuf {f : Bytes} (hd : r.function = bytes "d") (es : List DirEntry) :
    ∀ (c b : Bytes) (lastOff : ℕ), Small f c b → backRoom ≤ b.length →
      (r.withBuf f c b).readEntries entryEsc lastOff es
        = .ok (r.withBuf f (c ++ (fitting (DirEntry.textSize entryEsc) (b.length - backRoom) es).1.flatMap
              (DirEntry.text entryEsc))
              (b.drop ((fitting (DirEntry.textSize entryEsc) (b.length - backRoom) es).1.flatMap
                (DirEntry.text entryEsc)).length),
            ((fitting (DirEntry.textSize entryEsc) (b.length - backRoom) es).1.getLast?.map
              DirEntry.lastOff).getD lastOff,
            (fitting (DirEntry.textSize entryEsc) (b.length - backRoom) es).2.isEmpty) := by
  induction es with
  | nil =>
    intro c b lastOff _ _
    simp [readEntries, fitting]
  | cons e es ih =>
    intro c b lastOff hsmall hback
    rw [readEntries, addDirent_withBuf hd hsmall hback]
    simp only [bind, Except.bind]
    by_cases hfit : e.textSize entryEsc ≤ b.length - backRoom
    · have hdrop : (b.drop (e.textSize entryEsc)).length - backRoom
          = b.length - backRoom - e.textSize entryEsc := by
        rw [List.length_drop]
        omega
      have hsmall' : Small f (c ++ e.text entryEsc) (b.drop (e.textSize entryEsc)) := by
        unfold Small at hsmall ⊢
        rw [List.length_append, ← DirEntry.textSize, List.length_drop]
        omega
      have hrest := ih (c ++ e.text entryEsc) (b.drop (e.textSize entryEsc)) e.lastOff hsmall'
        (by rw [List.length_drop]; omega)
      rw [if_pos hfit, fitting_cons hfit]
      dsimp only
      rw [if_pos rfl, hrest, hdrop, List.flatMap_cons, List.append_assoc, List.getLast?_cons, List.length_append,
        List.drop_drop, ← DirEntry.textSize]
      cases (fitting (DirEntry.textSize entryEsc) (b.length - backRoom - e.textSize entryEsc) es).1.getLast? with
      | none => rfl
      | some last => rfl
    · rw [if_neg hfit, fitting, if_neg hfit]
      simp

end Req

/-! ## The requests -/

/-- A directory, and the requests that a client reads it with. -/
structure DirListing where
  cfg : ReqConfig
  name : Bytes
  ckib : ℕ
  /-- The request as the server has it before it looks at the query. -/
  req : Req
  inm64 : ℕ
  dir : OpenedDir

namespace DirListing

section Defs

variable (l : DirListing)

/-- The request for the chunk with this start. -/
def request (chunkstart : Bytes) : Req :=
  { l.req with query := (l.cfg.queryText (.dir l.name l.ckib chunkstart)).getD [] }

/-- The server's answer to it, and the request as it is then. -/
def Replies (chunkstart : Bytes) (r : Req) (answer : DirAnswer) : Prop :=
  ∃ r₀ inm64 start, (l.request chunkstart).dispatchDir l.inm64 = .ok (r₀, .d inm64 start)
    ∧ exportdD (.ok (.inr l.dir)) r₀ inm64 start = .ok (r, answer)

/-- A chunk with these entries, which `d_reply` sends. -/
def Sends (chunkstart : Bytes) (sent : List DirEntry) (nextstart : Bytes) : Prop :=
  ∃ r etag64 esc cc, l.Replies chunkstart r (.dReply nextstart etag64 esc cc)
    ∧ r.content = sent.flatMap (DirEntry.text l.dir.entryEsc)
    ∧ ∀ svr, (HandlerReply.d nextstart etag64 esc).Contract svr r

/-- The chunks that the client gets when it sends each `nextstart` back: every chunk but the last one has an
entry. -/
inductive Pages : Bytes → List (List DirEntry) → Prop
  | last {chunkstart : Bytes} {sent : List DirEntry} : l.Sends chunkstart sent [] → Pages chunkstart [sent]
  | more {chunkstart nextstart : Bytes} {sent : List DirEntry} {pages : List (List DirEntry)} :
    l.Sends chunkstart sent nextstart → nextstart ≠ [] → sent ≠ [] → Pages nextstart pages →
    Pages chunkstart (sent :: pages)

/-- The client and the server speak the same version, the length is one that the server accepts, and the client
does not have the directory already. -/
structure Valid : Prop where
  minor : l.cfg.protoMinor = 2 ∨ l.cfg.protoMinor = 3
  req_minor : l.req.protoMinor = l.cfg.protoMinor
  function : l.req.function = bytes "d"
  blob : l.req.blob = none
  ckib_pos : 1 ≤ l.ckib
  ckib_le : l.ckib ≤ 1025
  cachetag : l.cfg.cachetag < 2 ^ 64
  etag64 : l.dir.etag64 ≠ l.inm64

/-- The `start` that `d` is called with. -/
def start (chunkstart : Bytes) : Bytes :=
  if l.cfg.protoMinor < 3 ∧ chunkstart = [] then [] else chunkstart ++ l.cfg.tag

/-- The entries that it goes on with. -/
def entriesFrom (chunkstart : Bytes) : Res (List DirEntry) := l.dir.stream.startingAt (l.start chunkstart)

end Defs

variable {l : DirListing} {chunkstart : Bytes} {rest : List DirEntry} {r : Req} {answer : DirAnswer}

theorem not_percent_tag (cfg : ReqConfig) : ch '%' ∉ cfg.tag := by
  unfold ReqConfig.tag
  split
  · rw [List.mem_cons, not_or]
    exact ⟨by decide, not_mem_decimal (by decide) _⟩
  · exact List.not_mem_nil

theorem Valid.tag_length_le (h : l.Valid) : l.cfg.tag.length ≤ 21 := by
  have hlen : (decimal l.cfg.cachetag).length ≤ 20 :=
    @DirEntry.decimal_length_le_of_lt _ 19 (lt_trans h.cachetag (by decide))
  unfold ReqConfig.tag
  split
  · rw [List.length_cons]
    omega
  · exact Nat.zero_le _

/-- A text that need not be escaped gets to `d` with the cachetag behind it. -/
theorem Valid.dispatchDir (h : l.Valid) (hc : ∀ b ∈ chunkstart, urlSafe b = true)
    (hlen : chunkstart.length ≤ 20) :
    (l.request chunkstart).dispatchDir l.inm64
      = .ok ((l.request chunkstart).withBuf (zeros Req.frontRoom) [] (zeros (l.ckib * 1024 + Req.backRoom)),
        .d l.inm64 (l.start chunkstart)) := by
  obtain ⟨rq, hrq⟩ : ∃ rq, rq = l.request chunkstart := ⟨_, rfl⟩
  have htag := h.tag_length_le
  have hckib : (decimal l.ckib).length ≤ 4 :=
    @DirEntry.decimal_length_le_of_lt _ 3 (lt_of_le_of_lt h.ckib_le (by decide))
  have hquery : rq.query = decimal l.ckib ++ ch ';' :: (l.cfg.startText chunkstart ++ l.cfg.tag) := by
    rw [hrq]
    rfl
  have hminor : rq.protoMinor = l.cfg.protoMinor := by
    rw [hrq]
    exact h.req_minor
  have hblob : rq.blob = none := by
    rw [hrq]
    exact h.blob
  have hstart : (l.cfg.startText chunkstart).length ≤ 22 := by
    unfold ReqConfig.startText
    rw [(urlescape_eq_self_iff chunkstart).mpr hc]
    have h10 : (bytes "1;0").length = 3 := by decide
    have h0 : (bytes "0;").length = 2 := by decide
    split_ifs
    · omega
    · rw [List.length_append]
      omega
    · omega
  have hsize : rq.query.length < sizeMod := by
    have h64 : 50 < sizeMod := by decide
    rw [hquery, List.length_append, List.length_cons, List.length_append]
    omega
  have hplain : urlunescape (chunkstart ++ l.cfg.tag) = .ok (chunkstart ++ l.cfg.tag) := by
    rw [urlunescape_eq_self_iff, List.mem_append, not_or]
    exact ⟨fun hmem => ne_percent_of_urlSafe (hc _ hmem) rfl, not_percent_tag l.cfg⟩
  rw [← hrq, start]
  rcases h.minor with h2 | h3
  · by_cases hnil : chunkstart = []
    · rw [ReqConfig.startText, if_pos (by omega), if_pos hnil] at hquery
      rw [if_pos ⟨by omega, hnil⟩, Req.dispatchDir_eq_ok_iff [] hblob h.ckib_le le_rfl hsize
        (Req.dirQuery_72_begin (by rw [hminor, h2]; rfl) h.ckib_le hquery), List.drop_length]
      exact ⟨rfl, rfl⟩
    · rw [ReqConfig.startText, if_pos (by omega), if_neg hnil, List.append_assoc] at hquery
      obtain ⟨hdir, hdrop⟩ := Req.dirQuery_72_start (by rw [hminor, h2]; rfl) h.ckib_le hquery
      have hoff : (decimal l.ckib).length + 3 ≤ rq.query.length := by
        rw [hquery, show bytes "0;" = [ch '0', ch ';'] by decide]
        simp only [List.length_append, List.length_cons]
        omega
      rw [if_neg (by simp [hnil]), Req.dispatchDir_eq_ok_iff _ hblob h.ckib_le hoff hsize hdir, hdrop]
      exact ⟨rfl, hplain⟩
  · rw [ReqConfig.startText, if_neg (by omega), (urlescape_eq_self_iff chunkstart).mpr hc] at hquery
    have hoff : (decimal l.ckib).length + 1 ≤ rq.query.length := by
      rw [hquery, List.length_append, List.length_cons]
      omega
    rw [if_neg (by omega), Req.dispatchDir_eq_ok_iff _ hblob h.ckib_le hoff hsize
      (Req.dirQuery_73 (by rw [hminor, h3]; rfl) h.ckib_le hquery), hquery, Req.drop_ckib]
    exact ⟨rfl, hplain⟩

/-- The request with the entries that fit into its buffer. -/
def chunkReq (l : DirListing) (chunkstart : Bytes) (sent : List DirEntry) : Req :=
  (l.request chunkstart).withBuf (zeros Req.frontRoom) (sent.flatMap (DirEntry.text l.dir.entryEsc))
    ((zeros (l.ckib * 1024 + Req.backRoom)).drop (sent.flatMap (DirEntry.text l.dir.entryEsc)).length)

/-- How the entries are cut into those of this chunk and the others. -/
def cut (l : DirListing) (rest : List DirEntry) : List DirEntry × List DirEntry :=
  fitting (DirEntry.textSize l.dir.entryEsc) (l.ckib * 1024) rest

/-- The start of the next chunk. -/
def nextstart (l : DirListing) (rest : List DirEntry) : Bytes :=
  if (l.cut rest).2.isEmpty then []
  else decimal (((l.cut rest).1.getLast?.map DirEntry.lastOff).getD 0)

/-- The reply is what `d` makes of the entries from the start on. -/
theorem Valid.replies_iff (h : l.Valid) (hc : ∀ b ∈ chunkstart, urlSafe b = true)
    (hlen : chunkstart.length ≤ 20) : l.Replies chunkstart r answer
      ↔ ∃ rest, l.entriesFrom chunkstart = .ok rest ∧ r = l.chunkReq chunkstart (l.cut rest).1
        ∧ answer = .dReply (l.nextstart rest) l.dir.etag64 l.dir.esc l.dir.cc := by
  have hfd : (l.request chunkstart).function = bytes "d" := h.function
  have hroom : (zeros (l.ckib * 1024 + Req.backRoom)).length - Req.backRoom = l.ckib * 1024 := by
    rw [zeros_length, Nat.add_sub_cancel]
  have hsize : l.ckib * 1024 ≤ maxReplySize + Req.backRoom := by
    have h1025 : maxReplySize = 1049600 := by decide
    have := h.ckib_le
    omega
  have hrun : ∀ rest, ((l.request chunkstart).withBuf (zeros Req.frontRoom) []
      (zeros (l.ckib * 1024 + Req.backRoom))).readEntries l.dir.entryEsc 0 rest
      = .ok (l.chunkReq chunkstart (l.cut rest).1, ((l.cut rest).1.getLast?.map DirEntry.lastOff).getD 0,
        (l.cut rest).2.isEmpty) := by
    intro rest
    rw [Req.readEntries_withBuf hfd rest [] _ 0 (Req.small_of_le (by rw [zeros_length]; omega)
      (by rw [zeros_length, List.length_nil]; omega)) (by rw [zeros_length]; omega), hroom]
    rfl
  have hd : ∀ r₀, exportdD (.ok (.inr l.dir)) r₀ l.inm64 (l.start chunkstart) = .ok (r, answer)
      ↔ ∃ rest, l.entriesFrom chunkstart = .ok rest
        ∧ ∃ lastOff atEof, r₀.readEntries l.dir.entryEsc 0 rest = .ok (r, lastOff, atEof)
        ∧ answer = .dReply (if atEof then [] else decimal lastOff) l.dir.etag64 l.dir.esc l.dir.cc := by
    intro r₀
    unfold exportdD entriesFrom
    rw [bind_eq_ok_iff]
    constructor
    · rintro ⟨_, hopened, hrest⟩
      obtain rfl := Except.ok.inj hopened
      dsimp only at hrest
      rw [if_neg h.etag64] at hrest
      obtain ⟨rest, hentries, hrest⟩ := bind_eq_ok_iff.mp hrest
      obtain ⟨⟨r', lastOff, atEof⟩, hread, hrest⟩ := bind_eq_ok_iff.mp hrest
      rw [Except.ok.injEq, Prod.mk.injEq] at hrest
      exact ⟨rest, hentries, lastOff, atEof, hrest.1 ▸ hread, hrest.2.symm⟩
    · rintro ⟨rest, hentries, lastOff, atEof, hread, rfl⟩
      refine ⟨_, rfl, ?_⟩
      dsimp only
      rw [if_neg h.etag64]
      exact bind_eq_ok_iff.mpr ⟨rest, hentries, bind_eq_ok_iff.mpr ⟨_, hread, rfl⟩⟩
  unfold Replies
  rw [h.dispatchDir hc hlen]
  constructor
  · rintro ⟨r₀, inm64, start, hcall, hreply⟩
    rw [Except.ok.injEq, Prod.mk.injEq, HandlerCall.d.injEq] at hcall
    obtain ⟨rfl, rfl, rfl⟩ := hcall
    obtain ⟨rest, hentries, lastOff, atEof, hread, rfl⟩ := (hd _).mp hreply
    rw [hrun, Except.ok.injEq, Prod.mk.injEq, Prod.mk.injEq] at hread
    obtain ⟨rfl, rfl, rfl⟩ := hread
    exact ⟨rest, hentries, rfl, rfl⟩
  · rintro ⟨rest, hentries, rfl, rfl⟩
    exact ⟨_, _, _, rfl, (hd _).mpr ⟨rest, hentries, _, _, hrun rest, rfl⟩⟩

/-! ## The starts -/

theorem tag_eq_nil_iff (cfg : ReqConfig) : cfg.tag = [] ↔ cfg.cachetag = 0 := by
  unfold ReqConfig.tag
  split
  · next h => simp [h]
  · next h => simp [not_not.mp h]

/-- The first chunk is asked for without a start, unless the cachetag is taken for one. -/
theorem entriesFrom_nil_iff : l.entriesFrom [] = .ok rest
    ↔ (l.cfg.cachetag = 0 ∨ l.cfg.protoMinor < 3) ∧ rest = l.dir.stream.entries := by
  unfold entriesFrom start DirStream.startingAt
  by_cases hfirst : l.cfg.cachetag = 0 ∨ l.cfg.protoMinor < 3
  · have hnil : (if l.cfg.protoMinor < 3 ∧ ([] : Bytes) = [] then [] else [] ++ l.cfg.tag) = [] := by
      rcases hfirst with hzero | hlt
      · rw [(tag_eq_nil_iff _).mpr hzero, List.append_nil, ite_self]
      · rw [if_pos ⟨hlt, rfl⟩]
    rw [hnil, if_pos rfl, Except.ok.injEq, and_iff_right hfirst, eq_comm]
  · rw [not_or] at hfirst
    have htag : (if l.cfg.protoMinor < 3 ∧ ([] : Bytes) = [] then [] else [] ++ l.cfg.tag)
        = ch ';' :: decimal l.cfg.cachetag := by
      rw [if_neg fun hand => hfirst.2 hand.1, ReqConfig.tag, if_pos hfirst.1]
      rfl
    refine iff_of_false ?_ (fun hand => absurd hand.1 (not_or.mpr hfirst))
    rw [htag, if_neg (List.cons_ne_nil _ _)]
    intro hread
    obtain ⟨z, hz, -⟩ := bind_eq_ok_iff.mp hread
    rw [catchE_eq_ok_iff (by simp [httpthrow])] at hz
    exact svtoS_cons_ne_ok (by decide) (by decide) (by decide) z hz

/-- A start that was sent is sent back, unless it is too large for a `long` or has a cachetag behind it. -/
theorem entriesFrom_decimal_iff {n : ℕ} (hn : n < 2 ^ 64) :
    l.entriesFrom (decimal n) = .ok rest
      ↔ (l.cfg.cachetag = 0 ∧ n < 2 ^ 63) ∧ rest = l.dir.stream.seekdir n := by
  obtain ⟨d, ds, hdec, -⟩ := decimal_cons n
  have hstart : l.start (decimal n) = decimal n ++ l.cfg.tag := by
    rw [start, if_neg (by simp [hdec])]
  unfold entriesFrom DirStream.startingAt
  rw [hstart, if_neg (by simp [hdec]), bind_eq_ok_iff]
  by_cases hzero : l.cfg.cachetag = 0
  · rw [(tag_eq_nil_iff _).mpr hzero, List.append_nil]
    constructor
    · rintro ⟨z, hz, hrest⟩
      rw [catchE_eq_ok_iff (by simp [httpthrow])] at hz
      obtain ⟨hlt, rfl⟩ := (svtoS_decimal_iff (by decide) hn).mp hz
      exact ⟨⟨hzero, hlt⟩, (Except.ok.inj hrest).symm⟩
    · rintro ⟨⟨-, hlt⟩, rfl⟩
      refine ⟨n, ?_, rfl⟩
      rw [catchE_eq_ok_iff (by simp [httpthrow])]
      exact (svtoS_decimal_iff (by decide) hn).mpr ⟨hlt, rfl⟩
  · refine iff_of_false ?_ (fun hand => absurd hand.1.1 hzero)
    rintro ⟨z, hz, -⟩
    rw [catchE_eq_ok_iff (by simp [httpthrow]), ReqConfig.tag, if_pos hzero] at hz
    exact svtoS_decimal_cons (by decide) hn (endsNumber_semicolon _) (by decide) z hz

/-- What a client sends as a start: nothing, or an offset. -/
def IsStart (chunkstart : Bytes) : Prop := chunkstart = [] ∨ ∃ n, n < 2 ^ 64 ∧ chunkstart = decimal n

theorem IsStart.plain (hstart : IsStart chunkstart) :
    (∀ b ∈ chunkstart, urlSafe b = true) ∧ chunkstart.length ≤ 20 := by
  rcases hstart with rfl | ⟨n, hn, rfl⟩
  · simp
  · refine ⟨?_, @DirEntry.decimal_length_le_of_lt n 19 (lt_trans hn (by decide))⟩
    intro b hb
    obtain ⟨d, hd, rfl⟩ := List.mem_map.mp hb
    have hlt := decimalDigits_lt hd
    interval_cases d <;> decide

/-- From this entry one can go on. -/
def Resumable (l : DirListing) (e : DirEntry) : Prop := l.cfg.cachetag = 0 ∧ 0 ≤ e.dOff

/-- The offset of an entry leads to the entry behind it, if it leads anywhere. -/
theorem entriesFrom_lastOff_iff {pre rest' : List DirEntry} {e : DirEntry}
    (hentries : l.dir.stream.entries = pre ++ e :: rest) :
    l.entriesFrom (decimal e.lastOff) = .ok rest' ↔ l.Resumable e ∧ rest' = rest := by
  rw [entriesFrom_decimal_iff e.lastOff_lt, e.lastOff_lt_iff, Resumable]
  apply and_congr_right
  rintro ⟨-, hpos⟩
  rw [DirEntry.lastOff_eq hpos, l.dir.stream.seekdir_dOff pre e rest hentries]

/-! ## The chunks -/

theorem text_ne_nil (entryEsc : DirEntry → ℕ) (e : DirEntry) : e.text entryEsc ≠ [] := by
  simp [DirEntry.text]

theorem Valid.textSize_le (h : l.Valid) (e : DirEntry) :
    DirEntry.textSize l.dir.entryEsc e ≤ l.ckib * 1024 := by
  have := DirEntry.textSize_le l.dir.entryEsc_lt e
  have := h.ckib_pos
  omega

/-- The last entry of a chunk gives the next start. -/
theorem nextstart_of_cut {sent left : List DirEntry} {e : DirEntry} (hcut : l.cut rest = (sent ++ [e], left)) :
    l.nextstart rest = if left.isEmpty then [] else decimal e.lastOff := by
  rw [nextstart, hcut, List.getLast?_concat]
  rfl

/-- Where entries are left, some are sent. -/
theorem Valid.cut_cons (h : l.Valid) (hne : rest ≠ []) :
    ∃ sent e left, l.cut rest = (sent ++ [e], left) ∧ rest = sent ++ e :: left :=
  fitting_concat (fun e _ => h.textSize_le e) hne

theorem nextstart_eq_nil_iff : l.nextstart rest = [] ↔ (l.cut rest).2 = [] := by
  obtain ⟨d, ds, hdec, -⟩ := decimal_cons (((l.cut rest).1.getLast?.map DirEntry.lastOff).getD 0)
  rw [nextstart, hdec]
  split
  · next hnil => simpa using hnil
  · next hnil => simpa using hnil

/-- `d_reply` has no objection. -/
theorem Valid.contract (h : l.Valid) (svr : Server) : (HandlerReply.d (l.nextstart rest) l.dir.etag64
    l.dir.esc).Contract svr (l.chunkReq chunkstart (l.cut rest).1) := by
  refine ⟨h.function, ?_, ?_⟩
  · intro hsize
    by_cases hne : rest = []
    · rw [nextstart_eq_nil_iff, hne]
      rfl
    · obtain ⟨sent, e, left, hcut, -⟩ := h.cut_cons hne
      rw [chunkReq, Req.withBuf_size, hcut, List.length_eq_zero_iff, List.flatMap_append] at hsize
      simp [text_ne_nil] at hsize
  · intro _
    rw [nextstart]
    split
    · exact Or.inl rfl
    · refine Or.inr ⟨_, svtoU_decimal ?_⟩
      cases (l.cut rest).1.getLast? with
      | none => exact (by decide : 0 < 2 ^ 64)
      | some e => exact e.lastOff_lt

theorem Valid.sends_iff (h : l.Valid) (hstart : IsStart chunkstart) {sent : List DirEntry} {next : Bytes} :
    l.Sends chunkstart sent next ↔ ∃ rest, l.entriesFrom chunkstart = .ok rest
      ∧ (l.cut rest).1.flatMap (DirEntry.text l.dir.entryEsc) = sent.flatMap (DirEntry.text l.dir.entryEsc)
      ∧ next = l.nextstart rest := by
  obtain ⟨hc, hlen⟩ := hstart.plain
  unfold Sends
  constructor
  · rintro ⟨r, etag64, esc, cc, hreply, hcontent, -⟩
    obtain ⟨rest, hentries, rfl, hanswer⟩ := (h.replies_iff hc hlen).mp hreply
    rw [DirAnswer.dReply.injEq] at hanswer
    rw [chunkReq, Req.withBuf_content] at hcontent
    exact ⟨rest, hentries, hcontent, hanswer.1⟩
  · rintro ⟨rest, hentries, htext, rfl⟩
    refine ⟨l.chunkReq chunkstart (l.cut rest).1, l.dir.etag64, l.dir.esc, l.dir.cc,
      (h.replies_iff hc hlen).mpr ⟨rest, hentries, rfl, rfl⟩, ?_, fun svr => h.contract svr⟩
    rw [chunkReq, Req.withBuf_content, htext]

theorem Pages.sends {pages : List (List DirEntry)} (hp : l.Pages chunkstart pages) :
    ∃ sent next, l.Sends chunkstart sent next := by
  cases hp with
  | last hsends => exact ⟨_, _, hsends⟩
  | more hsends _ _ _ => exact ⟨_, _, hsends⟩

/-- A client that gets to the end has found an offset to go on from behind each chunk. -/
theorem Valid.paged_of_pages (h : l.Valid) {pages : List (List DirEntry)} (hp : l.Pages chunkstart pages) :
    ∀ pre rest, IsStart chunkstart → l.dir.stream.entries = pre ++ rest → l.entriesFrom chunkstart = .ok rest →
      Paged (DirEntry.textSize l.dir.entryEsc) (l.ckib * 1024) l.Resumable rest := by
  induction hp with
  | last hsends =>
    intro pre rest hstart _ hfrom
    obtain ⟨rest', hfrom', -, hnext⟩ := (h.sends_iff hstart).mp hsends
    obtain rfl := Except.ok.inj (hfrom.symm.trans hfrom')
    exact .last rest (nextstart_eq_nil_iff.mp hnext.symm)
  | more hsends hne _ hpages ih =>
    intro pre rest hstart hentries hfrom
    obtain ⟨rest', hfrom', -, rfl⟩ := (h.sends_iff hstart).mp hsends
    obtain rfl := Except.ok.inj (hfrom.symm.trans hfrom')
    have hrest : rest ≠ [] := by
      rintro rfl
      exact hne (nextstart_eq_nil_iff.mpr rfl)
    obtain ⟨sent, e, left, hcut, hsplit⟩ := h.cut_cons hrest
    have hnext := nextstart_of_cut hcut
    have hleft : left ≠ [] := by
      rw [Ne, nextstart_eq_nil_iff, hcut] at hne
      exact hne
    rw [if_neg (by simpa using hleft)] at hnext
    have hentries' : l.dir.stream.entries = (pre ++ sent) ++ e :: left := by
      rw [hentries, hsplit, List.append_assoc]
    have hstart' : IsStart (l.nextstart rest) := Or.inr ⟨_, e.lastOff_lt, hnext⟩
    obtain ⟨sent', next', hsends'⟩ := hpages.sends
    obtain ⟨rest₂, hfrom₂, -⟩ := (h.sends_iff hstart').mp hsends'
    obtain ⟨hok, rfl⟩ := (entriesFrom_lastOff_iff hentries').mp (hnext ▸ hfrom₂)
    exact .more rest sent rest₂ e hcut hleft hok
      (ih (pre ++ sent ++ [e]) rest₂ hstart' (by rw [hentries']; simp) hfrom₂)

/-- And where there is one behind each chunk, the client gets every entry. -/
theorem Valid.pages_of_paged (h : l.Valid)
    (hp : Paged (DirEntry.textSize l.dir.entryEsc) (l.ckib * 1024) l.Resumable rest) :
    ∀ chunkstart pre, IsStart chunkstart → l.dir.stream.entries = pre ++ rest →
      l.entriesFrom chunkstart = .ok rest → ∃ pages, l.Pages chunkstart pages ∧ pages.flatten = rest := by
  induction hp with
  | last rest hnil =>
    intro chunkstart pre hstart _ hfrom
    have hall : (l.cut rest).1 = rest := by
      have happ := fitting_append (DirEntry.textSize l.dir.entryEsc) (l.ckib * 1024) rest
      rwa [hnil, List.append_nil] at happ
    refine ⟨[rest], .last ((h.sends_iff hstart).mpr ⟨rest, hfrom, by rw [hall], ?_⟩), by simp⟩
    exact (nextstart_eq_nil_iff.mpr hnil).symm
  | more rest sent left e hcut hleft hok _ ih =>
    intro chunkstart pre hstart hentries hfrom
    have hsplit : rest = sent ++ e :: left := by
      have happ := fitting_append (DirEntry.textSize l.dir.entryEsc) (l.ckib * 1024) rest
      rw [hcut] at happ
      rw [← happ, List.append_assoc]
      rfl
    have hentries' : l.dir.stream.entries = (pre ++ sent) ++ e :: left := by
      rw [hentries, hsplit, List.append_assoc]
    have hnext : l.nextstart rest = decimal e.lastOff := by
      rw [nextstart_of_cut hcut, if_neg (by simpa using hleft)]
    obtain ⟨d, ds, hdec, -⟩ := decimal_cons e.lastOff
    obtain ⟨pages, hpages, hflat⟩ := ih (decimal e.lastOff) (pre ++ sent ++ [e]) (Or.inr ⟨_, e.lastOff_lt, rfl⟩)
      (by rw [hentries']; simp) ((entriesFrom_lastOff_iff hentries').mpr ⟨hok, rfl⟩)
    refine ⟨(sent ++ [e]) :: pages, .more ((h.sends_iff hstart).mpr ⟨rest, hfrom, ?_, hnext.symm⟩)
      (by simp [hdec]) (by simp) hpages, ?_⟩
    · rw [show l.cut rest = (sent ++ [e], left) from hcut]
    · rw [List.flatten_cons, hflat, hsplit, List.append_assoc]
      rfl

end DirListing

/-- A directory can be read to its end exactly if its first chunk is asked for without a start, and each chunk
before the last one ends with an offset that is not negative and has no cachetag behind it. -/
theorem chunks_continue_iff {l : DirListing} (h : l.Valid) :
    (∃ pages, l.Pages [] pages ∧ pages.flatten = l.dir.stream.entries)
      ↔ (l.cfg.cachetag = 0 ∨ l.cfg.protoMinor < 3)
        ∧ ∀ e ∈ cuts (DirEntry.textSize l.dir.entryEsc) (l.ckib * 1024) l.dir.stream.entries,
          l.cfg.cachetag = 0 ∧ 0 ≤ e.dOff := by
  have hiff := @paged_iff _ _ _ l.dir.stream.entries l.Resumable fun e _ => h.textSize_le e
  constructor
  · rintro ⟨pages, hpages, -⟩
    obtain ⟨sent, next, hsends⟩ := hpages.sends
    obtain ⟨rest, hfrom, -⟩ := (h.sends_iff (Or.inl rfl)).mp hsends
    obtain ⟨hfirst, rfl⟩ := DirListing.entriesFrom_nil_iff.mp hfrom
    exact ⟨hfirst, hiff.mp (h.paged_of_pages hpages [] _ (Or.inl rfl) rfl hfrom)⟩
  · rintro ⟨hfirst, hcuts⟩
    exact h.pages_of_paged (hiff.mpr hcuts) [] [] (Or.inl rfl) rfl
      (DirListing.entriesFrom_nil_iff.mpr ⟨hfirst, rfl⟩)

/-- A stream whose offsets are all different. -/
def DirStream.ofEntries (entries : List DirEntry) (h : (entries.map DirEntry.dOff).Nodup) : DirStream where
  entries
  seekdir off := (entries.dropWhile fun e => e.dOff ≠ off).tail
  seekdir_dOff pre e post hsplit := by
    rw [hsplit, List.map_append, List.map_cons, List.nodup_middle, List.nodup_cons, List.mem_append, not_or] at h
    rw [hsplit, List.dropWhile_append_of_pos, List.dropWhile_cons_of_neg (by simp), List.tail_cons]
    intro e' he'
    have hne : e'.dOff ≠ e.dOff := fun heq => h.1.1 (List.mem_map.mpr ⟨e', he', heq⟩)
    simpa using hne

/-- A file whose name has 250 bytes. -/
def longEntry (c : Char) (dOff : ℤ) (hlo : -2 ^ 63 ≤ dOff) (hhi : dOff < 2 ^ 63) : DirEntry where
  dName := List.replicate 250 (ch c)
  dType := 8
  dOff
  dName_ne_nil := by
    rw [Ne, List.replicate_eq_nil_iff]
    decide
  dName_length_le := by
    rw [List.length_replicate]
    decide
  dType_lt := by decide
  le_dOff := hlo
  dOff_lt := hhi

/-- Four such files, of which three fit into a chunk, with this offset behind the third one. -/
def longEntries (third : ℤ) (hlo : -2 ^ 63 ≤ third) (hhi : third < 2 ^ 63) : List DirEntry :=
  [longEntry 'a' 1 (by decide) (by decide), longEntry 'b' 2 (by decide) (by decide), longEntry 'c' third hlo hhi,
    longEntry 'd' 4 (by decide) (by decide)]

/-- A client that reads a directory in chunks of 1 KiB. -/
def longListing (stream : DirStream) : DirListing where
  cfg := ⟨3, 0⟩
  name := bytes "/x"
  ckib := 1
  req := { Req.ofHttp ⟨bytes "/fs123/7/3/d/x?1;", .GET, none, none, []⟩ with
    protoMinor := 3
    function := bytes "d"
    pathInfo := bytes "/x"
    kvpairs := [(keyRequest, bytes "/fs123/7/3/d/x?1;")] }
  inm64 := 0
  dir := ⟨stream, 0, 77, bytes "max-age=30", fun _ => 0, fun _ => by decide⟩

theorem longListing_valid (stream : DirStream) : (longListing stream).Valid :=
  ⟨Or.inr rfl, rfl, rfl, rfl, le_refl 1, show 1 ≤ 1025 by decide, show 0 < 2 ^ 64 by decide,
    show 77 ≠ 0 by decide⟩

/-- The client goes on behind the third file. -/
theorem chunks_continue_three : ∃ pages,
    (longListing (.ofEntries (longEntries 3 (by decide) (by decide)) (by decide))).Pages [] pages
      ∧ pages.flatten = longEntries 3 (by decide) (by decide) :=
  (chunks_continue_iff (longListing_valid _)).mpr ⟨Or.inl rfl, by decide +kernel⟩

/-- The file system's offset behind the third file has all bits set. The client cannot go on. -/
theorem negative_offset_refused :
    (longListing (.ofEntries (longEntries (-1) (by decide) (by decide)) (by decide))).Valid
      ∧ ¬ ∃ pages,
        (longListing (.ofEntries (longEntries (-1) (by decide) (by decide)) (by decide))).Pages [] pages := by
  refine ⟨longListing_valid _, ?_⟩
  rintro ⟨pages, hpages⟩
  have hpaged := (longListing_valid _).paged_of_pages hpages [] _ (Or.inl rfl) rfl
    (DirListing.entriesFrom_nil_iff.mpr ⟨Or.inl rfl, rfl⟩)
  rw [paged_iff fun e _ => (longListing_valid _).textSize_le e] at hpaged
  have hall := List.all_eq_true.mpr fun e he => decide_eq_true (hpaged e he).2
  exact absurd hall (by decide +kernel)

end Fs123
