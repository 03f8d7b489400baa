import Fs123.Client.Getreply
import Fs123.Codec.RoundTrip
import Fs123.Server.ParseSpec
import Fs123.Server.SendSpec
import Mathlib.Data.List.TakeWhile

/-!
# The way of an ETag

A handler's etag is mixed with a key on its way out, stored by the client, echoed in an `If-None-Match`
header, and unmixed on its way in. The key is a hash of the secret id that the content was encoded with;
the server unmixes with the id that it encodes with, whether or not the content was encoded.
-/

namespace Fs123

open Cxx

/-! ## The ETag of a reply -/

/-- No header is an ETag. -/
def NoEtag (hdrs : List (Bytes × Bytes)) : Prop := ∀ h ∈ hdrs, lower h.1 ≠ bytes "etag"

theorem NoEtag.append {a b : List (Bytes × Bytes)} (ha : NoEtag a) (hb : NoEtag b) : NoEtag (a ++ b) := by
  intro h hh
  rcases List.mem_append.mp hh with hh | hh
  · exact ha h hh
  · exact hb h hh

theorem NoEtag.nil : NoEtag [] := by
  intro h hh
  simp at hh

theorem NoEtag.singleton {name value : Bytes} (h : lower name ≠ bytes "etag") : NoEtag [(name, value)] := by
  intro h' hh
  rw [List.mem_singleton.mp hh]
  exact h

/-- The http response that a reply is on the wire. -/
def Sent.response (sent : Sent) : HttpResponse := ⟨sent.status, sent.headers, sent.body⟩

/-- The key that an etag is mixed with for a secret id. -/
def etagKey (esid : Bytes) : ℕ := if esid = [] then 0 else threeroeHash64 esid

theorem etagKey_lt (esid : Bytes) : etagKey esid < 2 ^ 64 := by
  unfold etagKey
  split
  · decide
  · exact threeroeHash64_lt esid

theorem trimOws_eq_self {a : Bytes} (hh : ∀ c, a.head? = some c → c ≠ ch ' ' ∧ c ≠ ch '\t')
    (hl : ∀ c, a.getLast? = some c → c ≠ ch ' ' ∧ c ≠ ch '\t') : trimOws a = a := by
  have hdrop : ∀ l : Bytes, (∀ c, l.head? = some c → c ≠ ch ' ' ∧ c ≠ ch '\t') →
      (l.dropWhile fun c => c = ch ' ' || c = ch '\t') = l := by
    intro l hl
    cases l with
    | nil => rfl
    | cons c l =>
      have := hl c rfl
      rw [List.dropWhile_cons, if_neg (by simp [this])]
  unfold trimOws
  rw [hdrop a hh, hdrop a.reverse (by rw [List.head?_reverse]; exact hl), List.reverse_reverse]

/-- The client keeps the last header of a name. -/
theorem hdr_last {key name : Bytes} (hname : lower name = key) (a : List (Bytes × Bytes))
    {b : List (Bytes × Bytes)} (hb : ∀ h ∈ b, lower h.1 ≠ key) (status : ℤ) (body value : Bytes) :
    (⟨status, a ++ (name, value) :: b, body⟩ : HttpResponse).hdr key = some (trimOws value) := by
  have hnone : b.reverse.find? (fun h => lower h.1 = key) = none := by
    rw [List.find?_eq_none]
    intro h hh
    simpa using hb h (List.mem_reverse.mp hh)
  unfold HttpResponse.hdr
  rw [List.reverse_append, List.reverse_cons, List.append_assoc, List.find?_append, hnone, Option.none_or,
    List.singleton_append, List.find?_cons_of_pos (by simp [hname])]
  rfl

theorem hdr_eq_none {key : Bytes} {a : List (Bytes × Bytes)} (ha : ∀ h ∈ a, lower h.1 ≠ key) (status : ℤ)
    (body : Bytes) : (⟨status, a, body⟩ : HttpResponse).hdr key = none := by
  unfold HttpResponse.hdr
  rw [Option.map_eq_none_iff, List.find?_eq_none]
  intro h hh
  simpa using ha h (List.mem_reverse.mp hh)

/-- The client finds the one ETag among other headers. -/
theorem hdr_etag (a : List (Bytes × Bytes)) {b : List (Bytes × Bytes)} (hb : NoEtag b) (status : ℤ) (body : Bytes)
    (n : ℕ) (esid : Bytes) :
    (⟨status, a ++ [(bytes "ETag", etagMangle n esid)] ++ b, body⟩ : HttpResponse).hdr (bytes "etag")
      = some (etagMangle n esid) := by
  rw [List.append_assoc, List.singleton_append, hdr_last (by decide) a hb, Option.some.injEq]
  apply trimOws_eq_self
  · intro c hc
    obtain rfl : ch '"' = c := by simpa [etagMangle] using hc
    decide
  · intro c hc
    unfold etagMangle at hc
    rw [List.getLast?_append_of_ne_nil _ (by simp)] at hc
    obtain rfl : ch '"' = c := by simpa using hc
    decide

theorem hdr_no_etag {a : List (Bytes × Bytes)} (ha : NoEtag a) (status : ℤ) (body : Bytes) :
    (⟨status, a, body⟩ : HttpResponse).hdr (bytes "etag") = none :=
  hdr_eq_none ha status body

/-- A quoted number other than zero is read back, zero is not. -/
theorem parseQuotedEtag_decimal {n : ℕ} (h : n < 2 ^ 64) :
    catchE (parseQuotedEtag ([ch '"'] ++ decimal n ++ [ch '"'])) (fun _ => .ok 0) = .ok n := by
  obtain ⟨d, ds, hdec, hd, h0, hnil⟩ := decimal_cons n
  have hfind : findChar ([ch '"'] ++ decimal n ++ [ch '"']) (ch '"') 0 = some 0 :=
    findChar_cons_self _ _
  have hget : ([ch '"'] ++ decimal n ++ [ch '"']).getD 1 0 = digitByte d := by rw [hdec]; rfl
  unfold parseQuotedEtag
  rw [hfind]
  simp only [Nat.zero_add, hget]
  by_cases hn : n = 0
  · rw [if_pos]
    · subst hn
      rfl
    · rw [h0.mpr hn]
      decide
  · have hd0 : digitByte d ≠ ch '0' := by
      intro hc
      have := congrArg UInt8.toNat hc
      rw [digitByte_toNat hd, show (ch '0').toNat = 48 by decide] at this
      exact hn (h0.mp (by omega))
    have hscan : scanintU 64 10 false ([ch '"'] ++ decimal n ++ [ch '"']) 1
        = .ok (n, 1 + (decimal n).length) :=
      scanintU_ten_decimal h rfl rfl
    have hquote : ([ch '"'] ++ decimal n ++ [ch '"'])[1 + (decimal n).length]? = some (ch '"') :=
      getElem?_append_cons _ _ _ (by simp [Nat.add_comm])
    rw [if_neg hd0, hscan]
    simp only [bind, Except.bind, hquote]
    rfl

/-- What the client stores of a mangled etag: the number on the wire. -/
theorem getEtag64_mangled (a : List (Bytes × Bytes)) {b : List (Bytes × Bytes)} (hb : NoEtag b) (status : ℤ)
    (body : Bytes) {n : ℕ} (hn : n < 2 ^ 64) (esid : Bytes) :
    (⟨status, a ++ [(bytes "ETag", etagMangle n esid)] ++ b, body⟩ : HttpResponse).getEtag64
      = .ok (n ^^^ etagKey esid) := by
  unfold HttpResponse.getEtag64
  rw [hdr_etag a hb]
  exact parseQuotedEtag_decimal (Nat.xor_lt_two_pow hn (etagKey_lt esid))

namespace Req

variable {svr : Server} {nonce cc : Bytes} {r r' : Req}

/-- The secret id that `maybe_encode_content` returns. -/
def replySid (svr : Server) (r : Req) : Res Bytes :=
  if r.function = bytes "p" then .ok [] else svr.encodeSid

theorem ensurePbuf_frame (h : r.ensurePbuf = .ok r') : r'.ohdrs = r.ohdrs ∧ r'.function = r.function := by
  unfold ensurePbuf at h
  split at h
  · obtain ⟨-, -, rfl⟩ := allocatePbuf_eq_ok_iff.mp h
    exact ⟨rfl, rfl⟩
  · rw [← Except.ok.inj h]
    exact ⟨rfl, rfl⟩

theorem replySid_none (hsm : svr.secretManager = none) (r : Req) : r.replySid svr = .ok [] := by
  unfold replySid Server.encodeSid
  rw [hsm, ite_self]

theorem replySid_p (hp : r.function = bytes "p") : r.replySid svr = .ok [] := by
  rw [replySid, if_pos hp]

theorem replySid_some {sm : SecretManager} (hsm : svr.secretManager = some sm)
    (hp : r.function ≠ bytes "p") : r.replySid svr = sm.getEncodeSid := by
  unfold replySid Server.encodeSid
  rw [if_neg hp, hsm]

theorem maybeEncodeContent_sid {esid : Bytes} (h : r.maybeEncodeContent svr nonce = .ok (r', esid)) :
    r'.ohdrs = r.ohdrs ∧ r.replySid svr = .ok esid := by
  unfold maybeEncodeContent at h
  cases hsm : svr.secretManager with
  | none =>
    rw [hsm, Except.ok.injEq, Prod.mk.injEq] at h
    obtain ⟨rfl, rfl⟩ := h
    exact ⟨rfl, replySid_none hsm r⟩
  | some sm =>
    rw [hsm] at h
    dsimp only at h
    by_cases hp : r.function = bytes "p"
    · rw [if_pos hp, Except.ok.injEq, Prod.mk.injEq] at h
      obtain ⟨rfl, rfl⟩ := h
      exact ⟨rfl, replySid_p hp⟩
    · rw [if_neg hp] at h
      split at h
      · simp [httpthrow] at h
      · obtain ⟨sid, hsid, h⟩ := bind_eq_ok_iff.mp h
        obtain ⟨secret, -, h⟩ := bind_eq_ok_iff.mp h
        rcases heq : encode svr.na r.acceptEncoding sid secret (r.blob.getD []) r.buf secretboxPadding
          (.random nonce) with ⟨res, mem⟩
        rw [heq] at h
        dsimp only at h
        obtain ⟨buf, -, h⟩ := bind_eq_ok_iff.mp h
        rw [Except.ok.injEq, Prod.mk.injEq] at h
        obtain ⟨rfl, rfl⟩ := h
        exact ⟨rfl, (replySid_some hsm hp).trans hsid⟩

/-- What the client stores of the etag of a reply. -/
theorem encryptAndSend200_etag {etag64 : ℕ} {sent : Sent} (hno : NoEtag r.ohdrs) (hlt : etag64 < 2 ^ 64)
    (h : r.encryptAndSend200 svr nonce cc etag64 = .ok sent) :
    ∃ esid, r.replySid svr = .ok esid ∧ sent.response.getEtag64
      = .ok (if etag64 = 0 then 0 else etag64 ^^^ etagKey esid) := by
  unfold encryptAndSend200 at h
  obtain ⟨r₁, h₁, h⟩ := bind_eq_ok_iff.mp h
  obtain ⟨r₂, h₂, h⟩ := bind_eq_ok_iff.mp h
  obtain ⟨r₃, h₃, h⟩ := bind_eq_ok_iff.mp h
  obtain ⟨⟨r₄, esid⟩, h₄, h⟩ := bind_eq_ok_iff.mp h
  dsimp only at h
  obtain ⟨r₅, h₅, h⟩ := bind_eq_ok_iff.mp h
  obtain ⟨r₆, h₆, h⟩ := bind_eq_ok_iff.mp h
  obtain ⟨r₇, h₇, h⟩ := bind_eq_ok_iff.mp h
  rw [Except.ok.injEq] at h
  subst h
  obtain ⟨-, rfl⟩ := addHdr_eq_ok_iff.mp h₁
  obtain ⟨-, rfl⟩ := addHdr_eq_ok_iff.mp h₂
  obtain ⟨hohdrs₃, hfun₃⟩ := ensurePbuf_frame h₃
  obtain ⟨hohdrs₄, hsid⟩ := maybeEncodeContent_sid h₄
  rw [replySid, hfun₃] at hsid
  refine ⟨esid, hsid, ?_⟩
  -- Four headers may come before the ETag and one after it.
  obtain ⟨before, hbefore, hnob⟩ : ∃ before, r₅.ohdrs = before ∧ NoEtag before := by
    refine ⟨_, rfl, ?_⟩
    rw [addHdrIf_eq_ok h₅]
    simp only [hohdrs₄, hohdrs₃]
    refine NoEtag.append (NoEtag.append (NoEtag.append hno (NoEtag.singleton (by decide)))
      (NoEtag.singleton (by decide))) ?_
    split
    · exact NoEtag.singleton (by decide)
    · exact NoEtag.nil
  obtain ⟨after, hafter, hnoa⟩ : ∃ after, r₇.ohdrs = r₆.ohdrs ++ after ∧ NoEtag after := by
    refine ⟨_, by rw [addHdrIf_eq_ok h₇], ?_⟩
    split
    · exact NoEtag.singleton (by decide)
    · exact NoEtag.nil
  unfold Sent.response
  simp only [hafter]
  rw [addHdrIf_eq_ok h₆]
  simp only [hbefore]
  by_cases h0 : etag64 = 0
  · rw [if_pos h0, if_neg (by simp [h0]), List.append_nil]
    unfold HttpResponse.getEtag64
    rw [hdr_no_etag (hnob.append hnoa)]
  · have hmangled : cstr (etagMangle etag64 esid) = etagMangle etag64 esid := by
      apply cstr_eq_self
      unfold etagMangle
      simp only [List.mem_append, List.mem_singleton, not_or]
      exact ⟨⟨by decide, not_mem_decimal (by decide) _⟩, by decide⟩
    rw [if_neg h0, if_pos (by simp [h0]), hmangled]
    exact getEtag64_mangled before hnoa 200 _ hlt esid

/-- The headers of a 7.2 reply are no ETags. -/
theorem Prepared.noEtag (h : Prepared r r') (hno : NoEtag r.ohdrs) : NoEtag r'.ohdrs := by
  obtain ⟨hdrs, heq, h72⟩ := h.ohdrs
  rw [heq]
  refine hno.append fun x hx => ?_
  have hmem := h72 x hx
  simp only [headers72, List.mem_cons, List.not_mem_nil, or_false] at hmem
  rcases hmem with hmem | hmem | hmem
  all_goals
    rw [hmem]
    decide

end Req

/-- Every reply member sends the etag that it is given, mixed with the key of the id that the content of
the request's function is encoded with. -/
theorem HandlerReply.build_etag {svr : Server} {nonce cc : Bytes} {r : Req} {rep : HandlerReply}
    {sent : Sent} (hno : NoEtag r.ohdrs) (hlt : rep.etag64 < 2 ^ 64)
    (h : rep.build svr nonce r cc = .ok sent) :
    ∃ esid, r.replySid svr = .ok esid ∧ sent.response.getEtag64
      = .ok (if rep.etag64 = 0 then 0 else rep.etag64 ^^^ etagKey esid) := by
  obtain ⟨r', hprep, hsend⟩ := HandlerReply.build_send h
  have hsid : r'.replySid svr = r.replySid svr := by
    unfold Req.replySid
    rw [hprep.function]
  rw [← hsid]
  exact Req.encryptAndSend200_etag (hprep.noEtag hno) hlt hsend

/-! ## The etag of a later request -/

/-- The etag that a handler is given. -/
def HandlerCall.inm64 : HandlerCall → Option ℕ
  | .d inm64 _ => some inm64
  | .f inm64 _ _ => some inm64
  | .p inm64 _ => some inm64
  | _ => none

namespace Req

variable {svr : Server} {hr : HttpRequest} {r : Req} {call : HandlerCall}

theorem dispatch_inm64 {r' : Req} {inm64 i : ℕ} (h : r.dispatch svr hr inm64 = .ok (r', call))
    (hi : call.inm64 = some i) : i = inm64 := by
  unfold dispatch at h
  have hsame : ∀ {call' : HandlerCall}, (.ok (r, call') : Res (Req × HandlerCall)) = .ok (r', call) →
      call' = call := by
    intro call' h
    rw [Except.ok.injEq, Prod.mk.injEq] at h
    exact h.2
  split_ifs at h
  · rw [← hsame h] at hi
    simp [HandlerCall.inm64] at hi
  · unfold dispatchDir at h
    obtain ⟨⟨lenkib, off⟩, -, h⟩ := bind_eq_ok_iff.mp h
    obtain ⟨-, -, h⟩ := bind_eq_ok_iff.mp h
    obtain ⟨start, -, h⟩ := bind_eq_ok_iff.mp h
    obtain ⟨r₁, -, h⟩ := bind_eq_ok_iff.mp h
    obtain ⟨start', -, h⟩ := bind_eq_ok_iff.mp h
    rw [Except.ok.injEq, Prod.mk.injEq] at h
    rw [← h.2] at hi
    exact (Option.some.inj hi).symm
  · unfold dispatchFile at h
    obtain ⟨⟨lenkib, offsetkib⟩, -, h⟩ := bind_eq_ok_iff.mp h
    obtain ⟨-, -, h⟩ := bind_eq_ok_iff.mp h
    obtain ⟨r₁, -, h⟩ := bind_eq_ok_iff.mp h
    obtain ⟨buf, -, h⟩ := bind_eq_ok_iff.mp h
    split at h
    · simp [httpthrow] at h
    · rw [Except.ok.injEq, Prod.mk.injEq] at h
      rw [← h.2] at hi
      exact (Option.some.inj hi).symm
  · rw [← hsame h] at hi
    simp [HandlerCall.inm64] at hi
  · rw [← hsame h] at hi
    simp [HandlerCall.inm64] at hi
  · unfold dispatchXattr at h
    obtain ⟨⟨lenkib, first⟩, -, h⟩ := bind_eq_ok_iff.mp h
    obtain ⟨-, -, h⟩ := bind_eq_ok_iff.mp h
    dsimp only at h
    split at h
    · simp [httpthrow] at h
    · split at h
      · simp [httpthrow] at h
      · rw [Except.ok.injEq, Prod.mk.injEq] at h
        rw [← h.2] at hi
        simp [HandlerCall.inm64] at hi
  · rw [← hsame h] at hi
    simp [HandlerCall.inm64] at hi
  · rw [← hsame h] at hi
    exact (Option.some.inj hi).symm
  · simp [httpthrow] at h

/-- A handler is given what the `If-None-Match` header unmixes to. -/
theorem parse_inm64 {i : ℕ} (h : parse svr hr = .ok (r, call)) (hi : call.inm64 = some i) :
    ∃ esid, svr.encodeSid = .ok esid ∧ inmDemangle (headInm hr) esid = .ok i := by
  unfold parse at h
  obtain ⟨r₁, -, h⟩ := bind_eq_ok_iff.mp h
  split at h
  · simp [httpthrow] at h
  · obtain ⟨r₂, -, h⟩ := bind_eq_ok_iff.mp h
    obtain ⟨r₃, -, h⟩ := bind_eq_ok_iff.mp h
    obtain ⟨esid, hesid, h⟩ := bind_eq_ok_iff.mp h
    obtain ⟨inm64, hinm, h⟩ := bind_eq_ok_iff.mp h
    rw [dispatch_inm64 h hi]
    exact ⟨esid, hesid, hinm⟩

end Req

/-- The header for a stored etag, as `backend123_http::refresh` makes it. -/
def echoEtag (et64 : ℕ) : Option Bytes :=
  if et64 ≠ 0 then some ([ch '"'] ++ decimal et64 ++ [ch '"']) else none

/-- The server unmixes the number that the client has stored with its own key. -/
theorem inmDemangle_echo {hr : HttpRequest} {et64 : ℕ} (het : et64 < 2 ^ 64)
    (hecho : hr.ifNoneMatch = echoEtag et64) (esid : Bytes) :
    inmDemangle (Req.headInm hr) esid = .ok (if et64 = 0 then 0 else etagKey esid ^^^ et64) := by
  unfold Req.headInm
  rw [hecho]
  unfold echoEtag
  by_cases h0 : et64 = 0
  · rw [if_neg (by simp [h0]), if_pos h0]
    rfl
  · have hcomma : ch ',' ∉ [ch '"'] ++ decimal et64 ++ [ch '"'] := by
      simp only [List.mem_append, List.mem_singleton, not_or]
      exact ⟨⟨by decide, not_mem_decimal (by decide) _⟩, by decide⟩
    have htake : ([ch '"'] ++ decimal et64 ++ [ch '"']).takeWhile (· ≠ ch ',')
        = [ch '"'] ++ decimal et64 ++ [ch '"'] := by
      rw [List.takeWhile_eq_self_iff]
      intro c hc
      have hne : c ≠ ch ',' := fun h => hcomma (h ▸ hc)
      simpa using hne
    have hparse := parseQuotedEtag_decimal het
    rw [if_pos h0, if_neg h0, Option.getD_some, htake]
    unfold inmDemangle
    rw [if_neg (by simp)]
    rcases hp : parseQuotedEtag ([ch '"'] ++ decimal et64 ++ [ch '"']) with (e | _) | n
    · rw [hp] at hparse
      exact absurd (Except.ok.inj hparse).symm h0
    · rw [hp] at hparse
      simp [catchE] at hparse
    · rw [hp] at hparse
      rw [← Except.ok.inj hparse]
      rfl

section Return

variable {svr svr' : Server} {hr hr' : HttpRequest} {r₀ r r' : Req} {call call' : HandlerCall}
  {entries : List Req.Dirent} {rep : HandlerReply} {nonce cc esid : Bytes} {sent : Sent} {et64 inm64 : ℕ}

/-- The number on the wire for the etag of a reply to `r`. -/
def wireEtag (r : Req) (etag64 : ℕ) (esid : Bytes) : ℕ :=
  etag64 ^^^ if r.function = bytes "p" then 0 else etagKey esid

/-- A later handler is given the etag that was passed, or 0 if the number on the wire is 0, exactly if the
reply's function is not `p`, or there is no etag or no key to mix it with. -/
theorem etag_returns_iff (hfirst : Req.parse svr hr = .ok (r₀, call))
    (hent : r₀.addDirents entries = .ok r) (hlt : rep.etag64 < 2 ^ 64)
    (hbuild : rep.build svr nonce r cc = .ok sent) (hstored : sent.response.getEtag64 = .ok et64)
    (hecho : hr'.ifNoneMatch = echoEtag et64) (hesid : svr.encodeSid = .ok esid)
    (hsame : svr'.encodeSid = .ok esid) (hlater : Req.parse svr' hr' = .ok (r', call'))
    (hinm : call'.inm64 = some inm64) :
    (inm64 = rep.etag64 ∨ (inm64 = 0 ∧ wireEtag r rep.etag64 esid = 0))
      ↔ (r.function = bytes "p" → rep.etag64 = 0 ∨ etagKey esid = 0) := by
  have hh := (Req.parse_handed hfirst).addDirents hent
  obtain ⟨sid, hsid, hstore⟩ := HandlerReply.build_etag (by rw [hh.ohdrs]; exact NoEtag.nil) hlt hbuild
  rw [hstored, Except.ok.injEq] at hstore
  have hkey : etagKey sid = if r.function = bytes "p" then 0 else etagKey esid := by
    unfold Req.replySid at hsid
    split at hsid
    next hp =>
      rw [if_pos hp, ← Except.ok.inj hsid]
      rfl
    next hp =>
      rw [hesid] at hsid
      rw [if_neg hp, Except.ok.inj hsid]
  have hetlt : et64 < 2 ^ 64 := by
    rw [hstore]
    split
    · decide
    · exact Nat.xor_lt_two_pow hlt (etagKey_lt sid)
  obtain ⟨esid', hesid', hdemangle⟩ := Req.parse_inm64 hlater hinm
  rw [hsame, Except.ok.injEq] at hesid'
  subst hesid'
  rw [inmDemangle_echo hetlt hecho, Except.ok.injEq] at hdemangle
  unfold wireEtag
  rw [hkey] at hstore
  by_cases h0 : rep.etag64 = 0
  · have het : et64 = 0 := by rw [hstore, if_pos h0]
    rw [if_pos het] at hdemangle
    exact iff_of_true (Or.inl (by rw [← hdemangle, h0])) fun _ => Or.inl h0
  · rw [if_neg h0] at hstore
    by_cases hp : r.function = bytes "p"
    · rw [if_pos hp, Nat.xor_zero] at hstore
      rw [if_neg (by rw [hstore]; exact h0), hstore] at hdemangle
      rw [if_pos hp, Nat.xor_zero]
      constructor
      · intro h _
        right
        rcases h with h | h
        · rw [← hdemangle] at h
          have := congrArg (· ^^^ rep.etag64) h
          simpa [Nat.xor_assoc] using this
        · exact absurd h.2 h0
      · intro h
        left
        rw [← hdemangle, (h hp).resolve_left h0, Nat.zero_xor]
    · rw [if_neg hp] at hstore
      rw [if_neg hp]
      refine iff_of_true ?_ fun h => absurd h hp
      by_cases het : et64 = 0
      · rw [if_pos het] at hdemangle
        exact Or.inr ⟨hdemangle.symm, by rw [← hstore, het]⟩
      · left
        rw [if_neg het, hstore] at hdemangle
        rw [← hdemangle, Nat.xor_comm rep.etag64, ← Nat.xor_assoc, Nat.xor_self, Nat.zero_xor]

end Return

/-- A server, and a peer's request to it. -/
def peerServer (sm : Option SecretManager) : Server := ⟨sodiumHi, libevent, sm, true, []⟩

@[inherit_doc peerServer] def peerGet (inm : Option Bytes) : HttpRequest :=
  ⟨bytes "/fs123/7/3/p/x", .GET, none, inm, []⟩

/-- The request that `peerGet` is parsed to. -/
def peerReq (inm : Bytes) : Req :=
  { Req.ofHttp (peerGet none) with
    protoMinor := 3, function := bytes "p", pathInfo := bytes "/x", inm := inm }

/-- The reply to `peerGet`, with the etag 5. -/
def peerSent : Sent :=
  ⟨200, [(bytes "Cache-control", []), (bytes "Content-type", bytes "application/octet-stream"),
    (bytes "ETag", [ch '"', ch '5', ch '"']), (hhTrsum, hexdigest (bytes "ok"))], bytes "ok"⟩

set_option maxRecDepth 2000 in
/-- Without secrets a peer's etag 5 is given back. -/
theorem etag_returns_iff_peer :
    ∃ r' inm64, Req.parse (peerServer none) (peerGet (echoEtag 5)) = .ok (r', .p inm64 [])
      ∧ (inm64 = 5 ∨ (inm64 = 0 ∧ wireEtag (peerReq []) 5 [] = 0)) := by
  have hfirst : Req.parse (peerServer none) (peerGet none) = .ok (peerReq [], .p 0 []) := rfl
  have hent : (peerReq []).addDirents [] = .ok (peerReq []) := rfl
  have hlt : (HandlerReply.p (bytes "ok") 5).etag64 < 2 ^ 64 := by decide
  have hbuild : (HandlerReply.p (bytes "ok") 5).build (peerServer none) [] (peerReq []) [] = .ok peerSent := rfl
  have hstored : peerSent.response.getEtag64 = .ok 5 := rfl
  have hlater : Req.parse (peerServer none) (peerGet (echoEtag 5))
      = .ok (peerReq [ch '"', ch '5', ch '"'], .p 5 []) := rfl
  refine ⟨_, 5, hlater, ?_⟩
  exact (etag_returns_iff hfirst hent hlt hbuild hstored rfl rfl rfl hlater rfl).mpr fun _ => Or.inr rfl

set_option maxRecDepth 2000 in
/-- With a secret manager the peer that has sent the etag 5 is given another number back. -/
theorem peer_etag_not_returned :
    ∃ r' inm64,
      Req.parse (peerServer (oneSecret (bytes "k") (upTo 32))) (peerGet none) = .ok (peerReq [], .p 0 [])
      ∧ (HandlerReply.p (bytes "ok") 5).build (peerServer (oneSecret (bytes "k") (upTo 32))) [] (peerReq [])
        [] = .ok peerSent
      ∧ peerSent.response.getEtag64 = .ok 5
      ∧ Req.parse (peerServer (oneSecret (bytes "k") (upTo 32))) (peerGet (echoEtag 5))
        = .ok (r', .p inm64 [])
      ∧ inm64 ≠ 5 ∧ inm64 ≠ 0 :=
  ⟨_, etagKey (bytes "k") ^^^ 5, rfl, rfl, rfl, rfl, by decide, by decide⟩

end Fs123
