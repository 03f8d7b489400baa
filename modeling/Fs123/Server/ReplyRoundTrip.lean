import Fs123.Client.BegetDecode
import Fs123.Server.ReplySpec

/-!
# The round trip of a 7.3 reply

A handler's reply, sent by the server and decoded by the client, gives the client what the handler has
passed: the server puts the pairs in front of the content one by one, and the client reads them from the
front.

The content of an `n` reply is the handler's text followed by the server's own statistics.
-/

namespace Fs123

open Cxx

/-! ## What a handler passes -/

namespace HandlerReply

/-- The arguments are values of their C++ types. -/
def Typed : HandlerReply → Prop
  | .a _ validator esc => validator < 2 ^ 64 ∧ esc < 2 ^ 64
  | .d _ _ esc => esc < 2 ^ 64
  | .f _ validator _ esc => validator < 2 ^ 64 ∧ esc < 2 ^ 64
  | .errno eno => -2 ^ 31 ≤ eno ∧ eno < 2 ^ 31
  | _ => True

/-- The errno that the handler passes. -/
def eno : HandlerReply → ℤ
  | .errno eno => eno
  | _ => 0

/-- The estale cookie that the handler passes. -/
def cookie : HandlerReply → Option ℕ
  | .a _ _ esc => some esc
  | .d _ _ esc => some esc
  | .f _ _ _ esc => some esc
  | _ => none

/-- The content validator that the handler passes. -/
def validator : HandlerReply → Option ℕ
  | .a _ validator _ => some validator
  | .f _ validator _ _ => some validator
  | _ => none

/-- The start of the next chunk that the handler passes. -/
def nextstart : HandlerReply → Option Bytes
  | .d nextstart _ _ => some nextstart
  | _ => none

/-- The content that the handler passes, as an argument or through the buffer. -/
def passed (r : Req) : HandlerReply → Bytes
  | .a sb _ _ => sb.text
  | .f written _ _ _ => written
  | .l target => target
  | .s sv => sv.text
  | .x xattr => xattr
  | .n body => body
  | .p body _ => body
  | .d _ _ _ => r.content
  | .errno _ => r.content

/-- What the server adds to the content: its statistics, to an `n` reply. -/
def suffix (svr : Server) : HandlerReply → Bytes
  | .n _ => svr.serverStats
  | _ => []

theorem content_eq_passed {svr : Server} {r : Req} (rep : HandlerReply) (h3 : 3 ≤ r.protoMinor) :
    rep.content svr r = rep.passed r ++ rep.suffix svr := by
  cases rep <;> simp [content, passed, suffix, h3]

/-- The decoded reply has the values of the reply, and `content`. An accessor of something that was not
passed throws. -/
structure Delivers (rep : HandlerReply) (content : Bytes) (d : Decoded) : Prop where
  eno : d.eno = rep.eno
  content : d.content.data = content
  estaleCookie : d.estaleCookie.toOption = rep.cookie
  validator : d.validator.toOption = rep.validator
  chunkNextStart : d.chunkNextStart.toOption = rep.nextstart

/-- The pairs of the reply in the order of its text. -/
def pairs (rep : HandlerReply) (echo : List (Bytes × Bytes)) (content : Bytes) : List (Bytes × Bytes) :=
  (echo ++ rep.kvs).reverse ++ [(keyContent, content)]

theorem frame_eq_pairsText (rep : HandlerReply) (echo : List (Bytes × Bytes)) (content : Bytes) :
    Req.frame (echo ++ rep.kvs) content = pairsText (rep.pairs echo content) := by
  rw [Req.frame, pairs, pairsText_append, pairsText_singleton]

end HandlerReply

/-! ## Reading the pairs -/

/-- `kvmap.at` looks the key up among the pairs. -/
theorem Denotes.at_eq {d : Decoded} {kvs : List (Bytes × Bytes)} (h : Denotes d kvs) (key : Bytes) :
    d.at key = match (kvs.filter fun kv => isOther kv.1).find? fun kv => kv.1 = key with
      | some kv => .ok kv.2
      | none => throwE .outOfRange (bytes "map::at") := by
  rw [← h.kvmap, List.find?_map]
  unfold Decoded.at
  cases hfind : d.kvmap.find? fun kv => kv.1.data = key with
  | none =>
    have : List.find? ((fun kv : Bytes × Bytes => decide (kv.1 = key))
        ∘ fun kv : View × View => (kv.1.data, kv.2.data)) d.kvmap = none := hfind
    rw [this]
    rfl
  | some kv =>
    have : List.find? ((fun kv : Bytes × Bytes => decide (kv.1 = key))
        ∘ fun kv : View × View => (kv.1.data, kv.2.data)) d.kvmap = some kv := hfind
    rw [this]
    rfl

section Denotes

variable {rep : HandlerReply} {echo : List (Bytes × Bytes)} (content : Bytes)

/-- The pairs that go into the client's map are the member's own. -/
theorem filter_pairs (hecho : echo = [] ∨ ∃ uri, echo = [(keyRequest, uri)]) :
    (rep.pairs echo content).filter (fun kv => isOther kv.1)
      = rep.kvs.reverse.filter fun kv => isOther kv.1 := by
  have hr : isOther keyRequest = false := by decide
  have hc : isOther keyContent = false := by decide
  unfold HandlerReply.pairs
  rw [List.reverse_append, List.filter_append, List.filter_append]
  rcases hecho with rfl | ⟨uri, rfl⟩
  · simp [hc]
  · simp [hc, hr]

theorem accepts_pairs (ht : rep.Typed) (hecho : echo = [] ∨ ∃ uri, echo = [(keyRequest, uri)]) :
    Accepts (rep.pairs echo content) := by
  refine ⟨?_, ?_⟩
  · intro v hv
    have hmem : (keyErrno, v) ∈ rep.kvs := by
      unfold HandlerReply.pairs at hv
      simp only [List.mem_append, List.mem_reverse, List.mem_singleton, Prod.mk.injEq] at hv
      rcases hv with (hv | hv) | hv
      · rcases hecho with rfl | ⟨uri, rfl⟩
        · simp at hv
        · simp only [List.mem_singleton, Prod.mk.injEq] at hv
          exact absurd hv.1 (by decide)
      · exact hv
      · exact absurd hv.1 (by decide)
    have h1 : keyErrno ≠ keyCookie := by decide
    have h2 : keyErrno ≠ keyValidator := by decide
    have h3 : keyErrno ≠ keyNextstart := by decide
    cases rep with
    | errno eno =>
      obtain rfl : v = decimalInt eno := by simpa [HandlerReply.kvs] using hmem
      exact ⟨eno, svtoS_decimalInt (by decide) ht.1 ht.2⟩
    | _ => simp [HandlerReply.kvs, h1, h2, h3] at hmem
  · have hmap : ((rep.pairs echo content).map Prod.fst).filter isOther
        = (rep.kvs.reverse.filter fun kv => isOther kv.1).map Prod.fst := by
      rw [List.filter_map, ← filter_pairs content hecho]
      rfl
    have h1 : keyValidator ≠ keyCookie := by decide
    have h2 : keyNextstart ≠ keyCookie := by decide
    have o1 : isOther keyValidator = true := by decide
    have o2 : isOther keyCookie = true := by decide
    have o3 : isOther keyNextstart = true := by decide
    have o4 : isOther keyErrno = false := by decide
    rw [hmap]
    cases rep <;> simp [HandlerReply.kvs, h1, h2, o1, o2, o3, o4]

variable {content}

/-- What the pairs of a reply describe is what the handler has passed. -/
theorem Denotes.delivers {d : Decoded} (ht : rep.Typed)
    (hecho : echo = [] ∨ ∃ uri, echo = [(keyRequest, uri)])
    (h : Denotes d (rep.pairs echo content)) : rep.Delivers content d := by
  have hat := h.at_eq
  simp only [filter_pairs content hecho] at hat
  have h1 : keyValidator ≠ keyCookie := by decide
  have h2 : keyNextstart ≠ keyCookie := by decide
  have h3 : keyNextstart ≠ keyValidator := by decide
  have o1 : isOther keyValidator = true := by decide
  have o2 : isOther keyCookie = true := by decide
  have o3 : isOther keyNextstart = true := by decide
  have o4 : isOther keyErrno = false := by decide
  refine ⟨?_, ?_, ?_, ?_, ?_⟩
  · -- Only the member's own pairs can hold an errno.
    have hlast : lastValue keyErrno (rep.pairs echo content)
        = lastValue keyErrno rep.kvs.reverse := by
      unfold HandlerReply.pairs
      rw [lastValue_append, if_neg (by decide), List.reverse_append]
      rcases hecho with rfl | ⟨uri, rfl⟩
      · simp
      · rw [List.reverse_singleton, lastValue_append, if_neg (by decide)]
    have hn := h.eno
    rw [hlast] at hn
    have e1 : keyCookie ≠ keyErrno := by decide
    have e2 : keyValidator ≠ keyErrno := by decide
    have e3 : keyNextstart ≠ keyErrno := by decide
    cases rep with
    | errno eno =>
      have hval : svtoS 32 (decimalInt eno) = .ok d.eno := by
        simpa [HandlerReply.kvs, lastValue] using hn
      rw [svtoS_decimalInt (by decide) ht.1 ht.2, Except.ok.injEq] at hval
      exact hval.symm
    | _ => simpa [HandlerReply.kvs, HandlerReply.eno, lastValue, e1, e2, e3] using hn
  · have hc := h.content
    unfold HandlerReply.pairs at hc
    rwa [lastValue_append, if_pos rfl] at hc
  · unfold Decoded.estaleCookie
    rw [hat]
    cases rep with
    | a sb validator esc =>
      simp [HandlerReply.kvs, HandlerReply.cookie, o1, o2, h1, rethrowAs, bind, Except.bind,
        svtoU_decimal ht.2, Except.toOption]
    | d nextstart etag64 esc =>
      simp [HandlerReply.kvs, HandlerReply.cookie, o3, o2, h2, rethrowAs, bind, Except.bind,
        svtoU_decimal ht, Except.toOption]
    | f written validator etag64 esc =>
      simp [HandlerReply.kvs, HandlerReply.cookie, o1, o2, h1, rethrowAs, bind, Except.bind,
        svtoU_decimal ht.2, Except.toOption]
    | _ =>
      simp [HandlerReply.kvs, HandlerReply.cookie, o4, rethrowAs, bind, Except.bind, catchE, throwE,
        Except.toOption]
  · unfold Decoded.validator
    rw [hat]
    cases rep with
    | a sb validator esc =>
      simp [HandlerReply.kvs, HandlerReply.validator, o1, rethrowAs, bind, Except.bind,
        svtoU_decimal ht.1, Except.toOption]
    | f written validator etag64 esc =>
      simp [HandlerReply.kvs, HandlerReply.validator, o1, rethrowAs, bind, Except.bind,
        svtoU_decimal ht.1, Except.toOption]
    | _ =>
      simp [HandlerReply.kvs, HandlerReply.validator, o2, o3, o4, h3, h1.symm, rethrowAs, bind,
        Except.bind, catchE, throwE, Except.toOption]
  · unfold Decoded.chunkNextStart
    rw [hat]
    cases rep <;> simp [HandlerReply.kvs, HandlerReply.nextstart, o1, o2, o3, o4, h2.symm, h3.symm,
      rethrowAs, catchE, throwE, Except.toOption]

end Denotes

/-! ## From the handler to the client -/

/-- The client can read the server's replies: it accepts plaintext if that is what is sent, and it knows
the secret that the server encodes with. -/
structure Client.Reads (cl : Client) (svr : Server) (sent : Sent) : Prop where
  na : cl.na = svr.na
  plaintext : sent.contentEncoding = ceIdent → cl.acceptPlaintextReplies = true
  secret : ∀ sm sid, svr.secretManager = some sm → sm.getEncodeSid = .ok sid →
    ∃ csm, cl.secretMgr = some csm ∧ csm.getSharedkey sid = sm.getSharedkey sid

/-- The record that the client's backend makes of a reply. -/
structure Reply123.Receives (reply : Reply123) (sent : Sent) : Prop where
  content : reply.content = sent.body
  contentEncoding : reply.contentEncoding = sent.contentEncoding
  valid : reply.valid = true

section Client

variable {svr : Server} {cl : Client} {reply : Reply123} {sent : Sent} {nonce plain : Bytes}

/-- The client gets at the plaintext of either encoding. -/
theorem Sent.Carries.begetDecode (h : sent.Carries svr nonce plain) (hna : svr.na.Lawful)
    (hnonce : nonce.length = secretboxNoncebytes) (hplain : plain.length + 64 < 2 ^ 32)
    (hcl : cl.Reads svr sent) (hreply : reply.Receives sent) (fuel minor : ℕ) :
    cl.begetDecode fuel minor reply = decodedReply fuel minor reply plain := by
  cases h with
  | ident hce hbody =>
    have hre : reply.contentEncoding = ceIdent := hreply.contentEncoding.trans hce
    rw [Client.begetDecode_ident hre (hcl.plaintext hce), hreply.content, hbody]
  | secretbox sm sid secret hsm hsid hsecret hpos hle hlen hce hbody =>
    obtain ⟨csm, hcsm, hkey⟩ := hcl.secret sm sid hsm hsid
    have hpad : padding secretboxPadding plain.length ≤ 32 := Nat.sub_le _ _
    refine Client.begetDecode_envelope (hcl.na ▸ hna) (hreply.contentEncoding.trans hce) hcsm
      (hkey.trans hsecret) hlen hpos hle (show 0 < secretboxPadding by decide) hnonce ?_ ?_
    · rw [recordSize_eq (by decide), secretboxMacbytes]
      omega
    · rw [hreply.content, hbody, hcl.na]

/-- On the text of acceptable pairs the constructor returns what the pairs describe. -/
theorem decodedReply_pairsText {kvs : List (Bytes × Bytes)} (hvalid : reply.valid = true)
    (hlen : (pairsText kvs).length < sizeMod) (hacc : Accepts kvs) :
    ∃ dr, decodedReply kvs.length 3 reply (pairsText kvs) = some (.ok dr) ∧ Denotes dr.dec kvs := by
  obtain ⟨s, hs, hden⟩ := decodePairs_pairsText hlen hacc (le_refl kvs.length)
  refine ⟨⟨reply.expires, reply.staleWhileRevalidate, 0 < reply.maxAge, s.dec⟩, ?_, hden⟩
  unfold decodedReply
  rw [if_pos hvalid]
  simp only [decodeStart, le_refl, if_true, hs]

end Client

section RoundTrip

variable {svr : Server} {cl : Client} {reply : Reply123} {sent : Sent} {nonce cc : Bytes}
  {hr : HttpRequest} {r : Req} {rep : HandlerReply}

/-- The round trip from a request that a handler holds. -/
theorem Req.Handed.build_delivers (hna : svr.na.Lawful) (hnonce : nonce.length = secretboxNoncebytes)
    (hh : r.Handed svr hr) (h3 : 3 ≤ r.protoMinor) (hget : hr.method = .GET)
    (hfr : rep.framed = true) (ht : rep.Typed) (hbuild : rep.build svr nonce r cc = .ok sent)
    (hcl : cl.Reads svr sent) (hreply : reply.Receives sent) :
    ∃ fuel dr, cl.begetDecode fuel 3 reply = some (.ok dr)
      ∧ rep.Delivers (rep.content svr r) dr.dec := by
  obtain ⟨f, b, hreg, heq⟩ := hh.build_eq nonce cc h3 (Req.contract_of_build h3 hbuild) hfr
  rw [heq] at hbuild
  have hback : 34 ≤ b.length := hreg.back
  have hlt := hreg.header_lt
  obtain ⟨hcarry, hfit⟩ := Req.commonReply200_carries (r := r.addKvs rep.kvs) hna hnonce hreg.small
    (by omega) h3 (hh.method.trans hget) hh.ohdrs hbuild
  have hecho : r.kvpairs = [] ∨ ∃ uri, r.kvpairs = [(keyRequest, uri)] := by
    rcases hh.echo with ⟨-, h⟩ | ⟨-, h⟩
    · exact Or.inl h
    · exact Or.inr h
  -- The framing took its bytes from the front, so the body is as long as the blob at most.
  have hlen : (Req.frame (r.addKvs rep.kvs).kvpairs (rep.content svr r)).length + 64 < 2 ^ 32 := by
    rw [Req.frame_length]
    omega
  have hframe : Req.frame (r.addKvs rep.kvs).kvpairs (rep.content svr r)
      = pairsText (rep.pairs r.kvpairs (rep.content svr r)) := rep.frame_eq_pairsText _ _
  have hsize : 2 ^ 32 < sizeMod := by decide
  rw [hframe] at hcarry hlen
  obtain ⟨dr, hdr, hden⟩ := decodedReply_pairsText hreply.valid (by omega)
    (accepts_pairs (rep.content svr r) ht hecho)
  refine ⟨(rep.pairs r.kvpairs (rep.content svr r)).length, dr, ?_, hden.delivers ht hecho⟩
  rw [hcarry.begetDecode hna hnonce hlen hcl hreply, hdr]

/-- Every reply that the server sends at protocol 7.3 is decoded by the client to what the handler has
passed, with the server's statistics after the text of an `n` reply. -/
theorem reply_roundTrip (hna : svr.na.Lawful) (hnonce : nonce.length = secretboxNoncebytes)
    {r₀ : Req} {call : HandlerCall} (hparse : Req.parse svr hr = .ok (r₀, call))
    (hget : hr.method = .GET) {entries : List Req.Dirent} (hadd : r₀.addDirents entries = .ok r)
    (h3 : r.protoMinor = 3) (hfr : rep.framed = true) (ht : rep.Typed)
    (hbuild : rep.build svr nonce r cc = .ok sent) (hcl : cl.Reads svr sent)
    (hreply : reply.Receives sent) :
    ∃ fuel dr, cl.begetDecode fuel 3 reply = some (.ok dr)
      ∧ rep.Delivers (rep.passed r ++ rep.suffix svr) dr.dec := by
  have hh : r.Handed svr hr := (Req.parse_handed hparse).addDirents hadd
  rw [← rep.content_eq_passed (by omega)]
  exact hh.build_delivers hna hnonce (by omega) hget hfr ht hbuild hcl hreply

end RoundTrip

/-- A server without secrets, after its first request was an `/n`. -/
def statsServer : Server where
  na := sodiumHi
  ev := libevent
  secretManager := none
  acceptPlaintextRequests := true
  serverStats := bytes ("requests: 1\nreply_bytes: 0\nINM_requests: 0\na_requests: 0\nf_requests: 0\n"
    ++ "d_requests: 0\nl_requests: 0\nx_requests: 0\ns_requests: 0\nn_requests: 1\np_requests: 0\n"
    ++ "reply_200s: 0\nreply_304s: 0\nreply_others: 0\n")

/-- `GET /fs123/7/3/n`. -/
def statsHttp : HttpRequest := ⟨bytes "/fs123/7/3/n", .GET, none, none, []⟩

/-- The request that the handler gets. -/
def statsReq : Req :=
  { Req.ofHttp statsHttp with
    protoMinor := 3
    function := bytes "n"
    kvpairs := [(keyRequest, bytes "/fs123/7/3/n")] }

/-- The handler's text. -/
def statsReply : HandlerReply := .n (bytes "exports: 1\n")

private def plainClient : Client := ⟨sodiumHi, none, true, false⟩

private theorem parse_stats : Req.parse statsServer statsHttp = .ok (statsReq, .n) := by
  decide

private theorem stats_content_length :
    (statsReply.content statsServer statsReq).length = 210 := by
  decide +kernel

private theorem stats_build :
    ∃ sent, statsReply.build statsServer (upTo 24) statsReq (bytes "max-age=30") = .ok sent := by
  have hh := Req.parse_handed parse_stats
  have hc : statsReply.Contract statsServer statsReq :=
    ⟨rfl, le_of_eq_of_le stats_content_length (by decide)⟩
  refine (hh.build_total libevent_lawful (Sodium.ofTable_lawful _ _ _) ⟨by simp [statsServer]⟩
    (by decide) (by decide) (by decide) hc rfl).1 ?_
  rw [stats_content_length]
  decide

private def received (sent : Sent) : Reply123 :=
  { Reply123.miss with
    eno72 := 0, content := sent.body, contentEncoding := sent.contentEncoding }

private theorem plainClient_reads (sent : Sent) : plainClient.Reads statsServer sent :=
  ⟨rfl, fun _ => rfl, fun sm _ h => by simp [statsServer] at h⟩

theorem reply_roundTrip_stats :
    ∃ sent fuel dr, statsReply.build statsServer (upTo 24) statsReq (bytes "max-age=30") = .ok sent
      ∧ plainClient.begetDecode fuel 3 (received sent) = some (.ok dr)
      ∧ statsReply.Delivers (statsReply.passed statsReq ++ statsReply.suffix statsServer) dr.dec := by
  obtain ⟨sent, hsent⟩ := stats_build
  obtain ⟨fuel, dr, hdr, hdel⟩ := reply_roundTrip (Sodium.ofTable_lawful _ _ _) (by decide)
    parse_stats rfl (show statsReq.addDirents [] = .ok statsReq from rfl) rfl rfl
    (show statsReply.Typed from trivial) hsent (plainClient_reads sent)
    (show (received sent).Receives sent from ⟨rfl, rfl, rfl⟩)
  exact ⟨sent, fuel, dr, hsent, hdr, hdel⟩

/-- The content that the client decodes is not the one that the handler has passed. -/
theorem stats_not_delivered :
    Req.parse statsServer statsHttp = .ok (statsReq, .n)
      ∧ ∃ sent fuel dr,
        statsReply.build statsServer (upTo 24) statsReq (bytes "max-age=30") = .ok sent
        ∧ plainClient.begetDecode fuel 3 (received sent) = some (.ok dr)
        ∧ ¬ statsReply.Delivers (statsReply.passed statsReq) dr.dec := by
  refine ⟨parse_stats, ?_⟩
  obtain ⟨sent, hsent⟩ := stats_build
  obtain ⟨fuel, dr, hdr, hdel⟩ := (Req.parse_handed parse_stats).build_delivers
    (Sodium.ofTable_lawful _ _ _) (by decide) (by decide) rfl rfl
    (show statsReply.Typed from trivial) hsent (plainClient_reads sent)
    (show (received sent).Receives sent from ⟨rfl, rfl, rfl⟩)
  refine ⟨sent, fuel, dr, hsent, hdr, fun hbad => ?_⟩
  have hlen := congrArg List.length (hdel.content.symm.trans hbad.content)
  rw [stats_content_length] at hlen
  exact absurd hlen (by decide)

end Fs123
