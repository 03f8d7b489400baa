import Fs123.Client.DiskcacheRefresh
import Fs123.Peer.PeerMap
import Fs123.Peer.PeerUrl

/-!
# Requests across the distributed cache

The model of `distrib_cache_backend::refresh` between a disk cache and the http backends, in the two
arrangements of `distrib_cache_backend.hpp`. A reply comes with its `Source`: who produced its content, and in
answer to what kind of request.

A request that is passed on arrives as a new `req123`, which has neither the `no_cache` nor the `max_stale` of
the one that it was made for. `no_cache_end_to_end_iff` says what the caller can count on.
-/

namespace Fs123

open Cxx

/-- Who produced a content. -/
inductive Source where
  /-- The origin server, or a proxy, in answer to a request of this call that said `no-cache` or did not. -/
  | origin (noCache : Bool)
  /-- A disk cache, whose copy had expired or not. -/
  | disk (expired : Bool)
  /-- A disk cache, and another source has confirmed it. -/
  | revalidated (source : Source)
  /-- A peer has passed it on. -/
  | peer (source : Source)
  deriving Repr, DecidableEq

/-- A `backend123`: `refresh(req, r)` leaves a reply, and its result says whether it is a new one. -/
abbrev Backend := BackendReq → Reply123 → Res (Reply123 × Bool × Source)

/-- The http backend for the origin server, which sends `no-cache` if the request has it. -/
def httpBackend (http : BackendReq → Reply123 → Res (Reply123 × Bool)) : Backend := fun req r =>
  (http req r).map fun answer => (answer.1, answer.2, .origin req.options.noCache)

/-- The source of what a disk cache has served. -/
def Served.source (served : Served Source) : Source :=
  match served.provenance with
  | .disk => .disk (served.reply.expires ≤ served.reading)
  | .upstream true source => source
  | .upstream false source => .revalidated source

/-- A disk cache in front of another backend. It always returns true. An overflow has no meaning. -/
def DiskState.backend (disk : DiskState) (upstream : Backend) : Backend := fun req _ =>
  ((({ disk with upstream } : RefreshEnv Source).refresh req).getD (.error .oob)).map fun served =>
    (served.reply, true, served.source)

/-- A peer, as it is seen by the http backend that was made for its url. -/
structure PeerHost where
  /-- What its http server makes of a stem: the path, the query, and the etag of an `If-None-Match`. -/
  receive : Bytes → Bytes × Option Bytes × ℕ
  defaults : ReqDefaults
  serverBackend : Backend
  /-- The reply that a 200 or a 304 with the peer's reply is read to. -/
  deliver : Reply123 → Res Reply123
  confirm : Reply123 → Reply123 → Res Reply123

/-- The reply that `p` starts with. -/
def initialReply (etag64 : ℕ) : Reply123 :=
  if etag64 = 0 then .miss else { Reply123.miss with eno72 := 0, etag64 }

/-- The http backend for a peer. The stem of a client's request never asks for the uuid. -/
def PeerHost.refresh (host : PeerHost) : Backend := fun req r => do
  let (pathInfo, query, etag64) := host.receive req.urlstem
  match ← peerHandlerP host.defaults pathInfo query etag64 with
  | .uuid => throwE .runtimeError (bytes "not a reply to a request of a client")
  | .refresh myreq etag64 => do
    let (reply, modified, source) ← host.serverBackend myreq (initialReply etag64)
    let delivered ← if modified then host.deliver reply else host.confirm r reply
    .ok (delivered, modified, .peer source)

/-- `distrib_cache_backend::refresh(req, reply)`. -/
def distribRefresh (peerMap : PeerMap) (upstream : Backend) (hosts : Bytes → PeerHost) : Backend := fun req r =>
  if req.noPeerCache then upstream req r
  else do
    let p ← peerMap.lookup req.urlstem
    match p.be with
    | .upstream => upstream req r
    | .http peerurl =>
      catchE ((hosts peerurl).refresh { req with urlstem := forwardedStem req.urlstem } r) fun _ =>
        upstream req r

/-- The arrangements with one disk cache on each node. -/
inductive Arrangement where
  | inFront
  | behind
  deriving Repr, DecidableEq

/-- A process of the distributed cache, at the time of the call. -/
structure Member where
  disk : DiskState
  peerMap : PeerMap
  http : BackendReq → Reply123 → Res (Reply123 × Bool)
  receive : Bytes → Bytes × Option Bytes × ℕ
  defaults : ReqDefaults
  deliver : Reply123 → Res Reply123
  confirm : Reply123 → Reply123 → Res Reply123

namespace Arrangement

/-- The backend that the fuse callbacks use. -/
def refresh (a : Arrangement) (me : Member) (hosts : Bytes → PeerHost) : Backend :=
  match a with
  | .inFront => me.disk.backend (distribRefresh me.peerMap (httpBackend me.http) hosts)
  | .behind => distribRefresh me.peerMap (me.disk.backend (httpBackend me.http)) hosts

/-- The backend that `p` uses: the disk cache. -/
def serverBackend (a : Arrangement) (me : Member) (hosts : Bytes → PeerHost) : Backend :=
  match a with
  | .inFront => me.disk.backend (distribRefresh me.peerMap (httpBackend me.http) hosts)
  | .behind => me.disk.backend (httpBackend me.http)

/-- A member as the others see it. -/
def host (a : Arrangement) (me : Member) (hosts : Bytes → PeerHost) : PeerHost where
  receive := me.receive
  defaults := me.defaults
  serverBackend := a.serverBackend me hosts
  deliver := me.deliver
  confirm := me.confirm

end Arrangement

/-! ## One disk cache -/

section DiskCache

variable {disk : DiskState} {upstream : Backend} {req : BackendReq} {r r' : Reply123} {modified : Bool}
  {source : Source} {usable : Bool}

/-- Nothing goes wrong in a disk cache itself. -/
structure DiskState.Healthy (disk : DiskState) : Prop where
  connected : disk.disconnected = false
  background : disk.background = .ok ()
  stored : ∀ r, disk.stored r = .ok ()

/-- What the disk cache decides to do with its copy. -/
def DiskState.decision (disk : DiskState) (options : StaleOptions) : Option Freshness :=
  (cachedReply disk.file).freshness options disk.now

theorem DiskState.backend_of_served {served : Served Source}
    (h : ({ disk with upstream } : RefreshEnv Source).refresh req = some (.ok served)) :
    disk.backend upstream req r = .ok (served.reply, true, served.source) := by
  rw [backend, h]
  rfl

theorem DiskState.backend_of_hit (h : disk.decision req.options = some .hit) :
    disk.backend upstream req r = .ok (cachedReply disk.file, true, .disk false) := by
  rw [backend_of_served (RefreshEnv.refresh_of_servesCached (Or.inl h))]
  rcases Reply123.freshness_cases h with ⟨-, -, hlt⟩ | ⟨hne, -⟩ | ⟨u, hne, -⟩
  · simp [Served.source, hlt]
  · simp at hne
  · simp at hne

theorem DiskState.backend_of_stale (hd : disk.Healthy) (h : disk.decision req.options = some .stale) :
    disk.backend upstream req r = .ok (cachedReply disk.file, true, .disk true) := by
  rw [backend_of_served (RefreshEnv.refresh_of_servesCached (Or.inr ⟨h, hd.background⟩))]
  rcases Reply123.freshness_cases h with ⟨hne, -⟩ | ⟨-, -, hle, -⟩ | ⟨u, hne, -⟩
  · simp at hne
  · simp [Served.source, hle]
  · simp at hne

/-- A miss leads to what upstream answers with. -/
theorem DiskState.backend_of_miss (hd : disk.Healthy) (h : disk.decision req.options = some (.miss usable))
    (hup : upstream req (cachedReply disk.file) = .ok (r', modified, source))
    (hcontract : modified = false → req.options.noCache = false) :
    disk.backend upstream req r
      = .ok (r', true, if modified then source else .revalidated source) := by
  have hasks : ({ disk with upstream } : RefreshEnv Source).Asks req usable := by
    refine ⟨h, ?_⟩
    rw [hd.connected]
    simp
  rw [backend_of_served (RefreshEnv.refresh_of_answers hasks ⟨hup, hcontract, hd.stored r'⟩)]
  cases modified with
  | false => rfl
  | true => rfl

/-- Without a decision, or without an answer that has a meaning, there is none. -/
theorem DiskState.backend_of_none (h : disk.decision req.options = none) :
    disk.backend upstream req r = .error .oob := by
  have hserve : ({ disk with upstream } : RefreshEnv Source).serve req (cachedReply disk.file) = none := by
    unfold DiskState.decision at h
    rw [RefreshEnv.serve]
    dsimp only
    rw [h]
  rw [backend, RefreshEnv.refresh, RefreshEnv.refreshBody_eq, hserve]
  rfl

theorem DiskState.backend_of_oob (hd : disk.Healthy) (h : disk.decision req.options = some (.miss usable))
    (hup : upstream req (cachedReply disk.file) = .error .oob) :
    disk.backend upstream req r = .error .oob := by
  have hcon : ¬ (disk.disconnected = true ∧ usable = true) := by
    rw [hd.connected]
    simp
  have hrefresh : ({ disk with upstream } : RefreshEnv Source).upstreamRefresh req (cachedReply disk.file) usable
      = .error .oob := by
    rw [RefreshEnv.upstreamRefresh, if_neg hcon]
    dsimp only
    rw [hup]
    rfl
  have hserve : ({ disk with upstream } : RefreshEnv Source).serve req (cachedReply disk.file)
      = some (.error .oob) := by
    unfold DiskState.decision at h
    rw [RefreshEnv.serve]
    dsimp only
    rw [h]
    dsimp only
    rw [hrefresh]
  rw [backend, RefreshEnv.refresh, RefreshEnv.refreshBody_eq, hserve]
  rfl

end DiskCache

/-! ## A peer -/

/-- Nothing goes wrong at a member in a request to the origin server, which does not answer a `no-cache` request
with a 304. -/
structure Member.Healthy (me : Member) (req : BackendReq) : Prop where
  disk : me.disk.Healthy
  http : ∀ r, ∃ r' modified, me.http req r = .ok (r', modified) ∧ (modified = false → req.options.noCache = false)

/-- Nothing goes wrong at a peer that a stem is passed on to. -/
structure Member.Reached (me : Member) (urlstem : Bytes) : Prop where
  answers : ∃ myreq etag64, me.Healthy myreq
    ∧ peerHandlerP me.defaults (me.receive (forwardedStem urlstem)).1 (me.receive (forwardedStem urlstem)).2.1
      (me.receive (forwardedStem urlstem)).2.2 = .ok (.refresh myreq etag64)
  delivered : ∀ reply, ∃ r, me.deliver reply = .ok r

/-- The request that `p` makes has the default options, and must not be passed on. -/
theorem peerHandlerP_refresh {defaults : ReqDefaults} {pathInfo : Bytes} {query : Option Bytes}
    {inm64 etag64 : ℕ} {myreq : BackendReq}
    (h : peerHandlerP defaults pathInfo query inm64 = .ok (.refresh myreq etag64)) :
    myreq.options = (BackendReq.ofStem defaults []).options ∧ myreq.noPeerCache = true := by
  unfold peerHandlerP at h
  dsimp only at h
  split at h
  · simp [httpthrow] at h
  split at h
  · split at h
    · simp at h
    · simp [httpthrow] at h
  · rw [Except.ok.injEq, PeerHandling.refresh.injEq] at h
    rw [← h.1]
    exact ⟨rfl, rfl⟩

/-- What the disk cache of a peer decides on a request that was passed on. -/
def Member.peerDecision (me : Member) : Option Freshness :=
  me.disk.decision (BackendReq.ofStem me.defaults []).options

section Peer

variable {a : Arrangement} {me peer : Member} {hosts : Bytes → PeerHost} {req : BackendReq} {r : Reply123}
  {urlstem : Bytes} {f : Freshness}

/-- A request that must not be passed on goes from the disk cache to the origin server. -/
theorem Arrangement.serverBackend_eq (a : Arrangement) (hno : req.noPeerCache = true) :
    ∃ upstream, a.serverBackend me hosts = me.disk.backend upstream
      ∧ ∀ r, upstream req r = httpBackend me.http req r := by
  cases a with
  | inFront =>
    refine ⟨_, rfl, ?_⟩
    intro r
    rw [distribRefresh, if_pos hno]
  | behind => exact ⟨_, rfl, fun r => rfl⟩

/-- The content that the peer's disk cache comes up with is an expired one of its own only when it decides to
serve it stale. -/
theorem Member.Healthy.serverBackend_some (h : peer.Healthy req) (hno : req.noPeerCache = true)
    (hd : peer.disk.decision req.options = some f) :
    ∃ reply source, a.serverBackend peer hosts req r = .ok (reply, true, source)
      ∧ (source = .disk true ↔ f = .stale) := by
  obtain ⟨upstream, heq, hup⟩ := @Arrangement.serverBackend_eq peer hosts req a hno
  rw [heq]
  cases f with
  | hit => exact ⟨_, _, DiskState.backend_of_hit hd, by simp⟩
  | stale => exact ⟨_, _, DiskState.backend_of_stale h.disk hd, by simp⟩
  | miss usable =>
    obtain ⟨r', modified, hhttp, hcontract⟩ := h.http (cachedReply peer.disk.file)
    have hanswer : upstream req (cachedReply peer.disk.file)
        = .ok (r', modified, .origin req.options.noCache) := by
      rw [hup, httpBackend, hhttp]
      rfl
    refine ⟨_, _, DiskState.backend_of_miss h.disk hd hanswer hcontract, ?_⟩
    cases modified with
    | false => simp
    | true => simp

theorem Member.Reached.refresh_some (h : peer.Reached urlstem) (hd : peer.peerDecision = some f) :
    ∃ reply source, (a.host peer hosts).refresh { req with urlstem := forwardedStem urlstem } r
        = .ok (reply, true, .peer source)
      ∧ (source = .disk true ↔ f = .stale) := by
  obtain ⟨myreq, etag64, hhealthy, hp⟩ := h.answers
  obtain ⟨hopt, hno⟩ := peerHandlerP_refresh hp
  rw [Member.peerDecision, ← hopt] at hd
  obtain ⟨reply, source, hanswer, hiff⟩ :=
    @Member.Healthy.serverBackend_some a peer hosts myreq (initialReply etag64) f hhealthy hno hd
  obtain ⟨delivered, hdelivered⟩ := h.delivered reply
  refine ⟨delivered, source, ?_, hiff⟩
  unfold PeerHost.refresh Arrangement.host
  dsimp only
  rw [hp]
  simp only [bind, Except.bind]
  rw [hanswer]
  simp only [if_true]
  rw [hdelivered]

theorem Member.Reached.refresh_none (h : peer.Reached urlstem) (hd : peer.peerDecision = none) :
    (a.host peer hosts).refresh { req with urlstem := forwardedStem urlstem } r = .error .oob := by
  obtain ⟨myreq, etag64, hhealthy, hp⟩ := h.answers
  obtain ⟨hopt, hno⟩ := peerHandlerP_refresh hp
  rw [Member.peerDecision, ← hopt] at hd
  obtain ⟨upstream, heq, -⟩ := @Arrangement.serverBackend_eq peer hosts myreq a hno
  unfold PeerHost.refresh Arrangement.host
  dsimp only
  rw [hp]
  simp only [bind, Except.bind]
  rw [heq, DiskState.backend_of_none hd]

end Peer

/-! ## The whole way -/

/-- The request is passed on to the peer at this url. -/
def Member.Forwards (me : Member) (req : BackendReq) (peerurl : Bytes) : Prop :=
  req.noPeerCache = false ∧ ∃ p, me.peerMap.lookup req.urlstem = .ok p ∧ p.be = .http peerurl

/-- The request gets to the distributed cache. -/
def Arrangement.AsksPeers (a : Arrangement) (me : Member) (req : BackendReq) : Prop :=
  match a with
  | .inFront => ∃ usable, me.disk.decision req.options = some (.miss usable)
  | .behind => True

/-- What a request may count on: with `no_cache`, the origin server has answered a `no-cache` request, and with a
`max_stale` of 0, the reply was not an expired one in the disk cache of a peer. -/
structure KeepsOptions (req : BackendReq) (source : Source) : Prop where
  noCache : req.options.noCache = true → source = .origin true
  maxStale : req.options.maxStale = some 0 → source ≠ .peer (.disk true)

section EndToEnd

variable {a : Arrangement} {me : Member} {members : Bytes → Member} {hosts far : Bytes → PeerHost}
  {upstream : Backend} {req : BackendReq} {r reply : Reply123} {source : Source} {modified : Bool}
  {peerurl : Bytes}

theorem keepsOptions_peer_iff : KeepsOptions req (.peer source)
    ↔ req.options.noCache = false ∧ (req.options.maxStale = some 0 → source ≠ .disk true) := by
  constructor
  · intro h
    refine ⟨?_, ?_⟩
    · by_contra hno
      rw [Bool.not_eq_false] at hno
      exact absurd (h.noCache hno) (by simp)
    · intro hmax heq
      exact h.maxStale hmax (heq ▸ rfl)
  · rintro ⟨hno, hmax⟩
    refine ⟨?_, ?_⟩
    · intro h
      rw [hno] at h
      exact absurd h (by decide)
    · intro hzero heq
      exact hmax hzero (Source.peer.inj heq)

theorem keepsOptions_disk (expired : Bool) (hno : req.options.noCache = false) :
    KeepsOptions req (.disk expired) where
  noCache h := by
    rw [hno] at h
    exact absurd h (by decide)
  maxStale _ := by simp

/-- A copy that a disk cache serves without asking upstream is not served to a `no_cache` request. -/
theorem DiskState.Healthy.keepsOptions {disk : DiskState} (hd : disk.Healthy)
    (hmiss : ¬ ∃ usable, disk.decision req.options = some (.miss usable))
    (hok : disk.backend upstream req r = .ok (reply, modified, source)) : KeepsOptions req source := by
  rcases h : disk.decision req.options with _ | f
  · rw [backend_of_none h] at hok
    simp at hok
  cases f with
  | hit =>
    rw [backend_of_hit h, Except.ok.injEq, Prod.mk.injEq, Prod.mk.injEq] at hok
    rcases Reply123.freshness_cases h with ⟨-, hno, -⟩ | ⟨hne, -⟩ | ⟨u, hne, -⟩
    · exact hok.2.2 ▸ keepsOptions_disk false hno
    · simp at hne
    · simp at hne
  | stale =>
    rw [backend_of_stale hd h, Except.ok.injEq, Prod.mk.injEq, Prod.mk.injEq] at hok
    rcases Reply123.freshness_cases h with ⟨hne, -⟩ | ⟨-, hno, -⟩ | ⟨u, hne, -⟩
    · simp at hne
    · exact hok.2.2 ▸ keepsOptions_disk true hno
    · simp at hne
  | miss usable => exact absurd ⟨usable, h⟩ hmiss

/-- A disk cache in front of the origin server keeps the options. -/
theorem Member.Healthy.keepsOptions (h : me.Healthy req) (hup : ∀ r, upstream req r = httpBackend me.http req r)
    (hok : me.disk.backend upstream req r = .ok (reply, modified, source)) : KeepsOptions req source := by
  by_cases hmiss : ∃ usable, me.disk.decision req.options = some (.miss usable)
  · obtain ⟨usable, hd⟩ := hmiss
    obtain ⟨r', m, hhttp, hcontract⟩ := h.http (cachedReply me.disk.file)
    have hanswer : upstream req (cachedReply me.disk.file) = .ok (r', m, .origin req.options.noCache) := by
      rw [hup, httpBackend, hhttp]
      rfl
    rw [DiskState.backend_of_miss h.disk hd hanswer hcontract, Except.ok.injEq, Prod.mk.injEq,
      Prod.mk.injEq] at hok
    rw [← hok.2.2]
    cases m with
    | false =>
      refine ⟨?_, by simp⟩
      intro hno
      rw [hcontract rfl] at hno
      exact absurd hno (by decide)
    | true => exact ⟨fun hno => by simp [hno], by simp⟩
  · exact h.disk.keepsOptions hmiss hok

/-- A request that is not passed on goes upstream. -/
theorem distribRefresh_of_local (hlookup : req.noPeerCache = false → ∃ p, me.peerMap.lookup req.urlstem = .ok p)
    (hno : ∀ peerurl, ¬ me.Forwards req peerurl) (r : Reply123) :
    distribRefresh me.peerMap upstream hosts req r = upstream req r := by
  unfold distribRefresh
  cases hpc : req.noPeerCache with
  | true => rw [if_pos rfl]
  | false =>
    obtain ⟨p, hp⟩ := hlookup hpc
    rw [if_neg (by decide), hp]
    simp only [bind, Except.bind]
    cases hbe : p.be with
    | upstream => rfl
    | http peerurl => exact absurd ⟨hpc, p, hp, hbe⟩ (hno peerurl)

theorem distribRefresh_of_forwards (hf : me.Forwards req peerurl) :
    distribRefresh me.peerMap upstream hosts req r
      = catchE ((hosts peerurl).refresh { req with urlstem := forwardedStem req.urlstem } r) fun _ =>
        upstream req r := by
  obtain ⟨hpc, p, hp, hbe⟩ := hf
  unfold distribRefresh
  rw [hpc, if_neg (by decide), hp]
  simp only [bind, Except.bind]
  rw [hbe]

/-- The request that is passed on comes back as the peer's disk cache decides. -/
theorem forwarded_keeps_iff (h : (members peerurl).Reached req.urlstem) (hf : me.Forwards req peerurl)
    (r : Reply123) :
    (∀ reply modified source, distribRefresh me.peerMap upstream (fun url => a.host (members url) far) req r
        = .ok (reply, modified, source) → KeepsOptions req source)
      ↔ (req.options.noCache = true → (members peerurl).peerDecision = none)
        ∧ (req.options.maxStale = some 0 → (members peerurl).peerDecision ≠ some .stale) := by
  rw [distribRefresh_of_forwards hf]
  rcases hd : (members peerurl).peerDecision with _ | f
  · rw [h.refresh_none hd]
    simp [catchE]
  · obtain ⟨reply, source, hanswer, hiff⟩ := @Member.Reached.refresh_some a _ far req r _ f h hd
    rw [hanswer, catchE_ok]
    simp only [Except.ok.injEq, Prod.mk.injEq, reduceCtorEq, ne_eq, Option.some.injEq, ← hiff]
    constructor
    · intro hkeeps
      obtain ⟨hno, hmax⟩ := keepsOptions_peer_iff.mp (hkeeps reply true (.peer source) ⟨rfl, rfl, rfl⟩)
      exact ⟨fun hyes => by simp [hno] at hyes, hmax⟩
    · rintro ⟨hno, hmax⟩ _ _ _ ⟨-, -, rfl⟩
      exact keepsOptions_peer_iff.mpr ⟨by simpa using hno, hmax⟩

/-- What is passed on is answered with a new reply, or has no meaning. -/
theorem forwarded_total (h : (members peerurl).Reached req.urlstem) (hf : me.Forwards req peerurl) (r : Reply123) :
    distribRefresh me.peerMap upstream (fun url => a.host (members url) far) req r = .error .oob
      ∨ ∃ reply source, distribRefresh me.peerMap upstream (fun url => a.host (members url) far) req r
        = .ok (reply, true, source) := by
  rw [distribRefresh_of_forwards hf]
  rcases hd : (members peerurl).peerDecision with _ | f
  · left
    rw [h.refresh_none hd]
    rfl
  · right
    obtain ⟨reply, source, hanswer, -⟩ := @Member.Reached.refresh_some a _ far req r _ f h hd
    exact ⟨reply, .peer source, by rw [hanswer, catchE_ok]⟩

/-- A miss changes nothing of where a new reply comes from. -/
theorem DiskState.backend_source_iff {disk : DiskState} {usable : Bool} {P : Source → Prop} (hd : disk.Healthy)
    (h : disk.decision req.options = some (.miss usable))
    (hup : upstream req (cachedReply disk.file) = .error .oob
      ∨ ∃ reply source, upstream req (cachedReply disk.file) = .ok (reply, true, source)) :
    (∀ reply modified source, disk.backend upstream req r = .ok (reply, modified, source) → P source)
      ↔ ∀ reply modified source, upstream req (cachedReply disk.file) = .ok (reply, modified, source) →
        P source := by
  rcases hup with hup | ⟨reply, source, hup⟩
  · rw [backend_of_oob hd h hup, hup]
  · rw [backend_of_miss hd h hup (by simp), hup]
    simp

theorem Member.Forwards.unique {peerurl' : Bytes} (hf : me.Forwards req peerurl) (hf' : me.Forwards req peerurl') :
    peerurl = peerurl' := by
  obtain ⟨-, p, hp, hbe⟩ := hf
  obtain ⟨-, p', hp', hbe'⟩ := hf'
  rw [hp, Except.ok.injEq] at hp'
  rw [hp', hbe', PeerBackend.http.injEq] at hbe
  exact hbe.symm

/-- The options of a request are kept exactly if it is not passed on to a peer that answers it, or, as for
`max_stale`, the peer does not serve its copy stale. -/
theorem no_cache_end_to_end_iff (hme : me.Healthy req)
    (hlookup : req.noPeerCache = false → ∃ p, me.peerMap.lookup req.urlstem = .ok p)
    (hpeers : ∀ peerurl, me.Forwards req peerurl → (members peerurl).Reached req.urlstem) :
    (∀ reply modified source, a.refresh me (fun url => a.host (members url) far) req r
        = .ok (reply, modified, source) → KeepsOptions req source)
      ↔ ∀ peerurl, me.Forwards req peerurl → a.AsksPeers me req →
        (req.options.noCache = true → (members peerurl).peerDecision = none)
          ∧ (req.options.maxStale = some 0 → (members peerurl).peerDecision ≠ some .stale) := by
  by_cases hf : ∃ peerurl, me.Forwards req peerurl
  · obtain ⟨url, hforwards⟩ := hf
    have hreached := hpeers url hforwards
    have honly : ∀ P : Bytes → Prop, (∀ peerurl, me.Forwards req peerurl → P peerurl) ↔ P url := by
      intro P
      exact ⟨fun h => h url hforwards, fun h peerurl hf' => hforwards.unique hf' ▸ h⟩
    rw [honly]
    cases a with
    | behind => exact (forwarded_keeps_iff hreached hforwards r).trans (true_imp_iff).symm
    | inFront =>
      by_cases hasks : ∃ usable, me.disk.decision req.options = some (.miss usable)
      · obtain ⟨usable, hmiss⟩ := hasks
        have hiff := @forwarded_keeps_iff .inFront me members far
          (httpBackend me.http) req url hreached hforwards (cachedReply me.disk.file)
        rw [← DiskState.backend_source_iff (r := r) hme.disk hmiss (forwarded_total hreached hforwards _)] at hiff
        exact hiff.trans ⟨fun h _ => h, fun h => h ⟨usable, hmiss⟩⟩
      · refine iff_of_true ?_ fun hasks' => absurd hasks' hasks
        intro reply modified source hok
        exact hme.disk.keepsOptions (r := r) hasks hok
  · rw [not_exists] at hf
    refine iff_of_true ?_ fun peerurl hforwards => absurd hforwards (hf peerurl)
    intro reply modified source hok
    cases a with
    | inFront => exact hme.keepsOptions (r := r) (distribRefresh_of_local hlookup hf) hok
    | behind =>
      rw [Arrangement.refresh, distribRefresh_of_local hlookup hf] at hok
      exact hme.keepsOptions (r := r) (fun r => rfl) hok

end EndToEnd

/-- A disk cache in November 2023. The reply in this file, if there is one, is fresh for another half a minute. -/
def linkDisk (file : Option CacheFile) : DiskState where
  file
  now := 1700000030000000000
  disconnected := false
  background := .ok ()
  stored _ := .ok ()
  laterFile := file
  later := 1700000030000000000

/-- The map of the first of two peers. -/
def pairMap : PeerMap :=
  (PeerMap.empty.insertPeer ⟨bytes "u1", bytes "http://h1", .upstream⟩).insertPeer
    ⟨bytes "u2", bytes "http://h2", .http (bytes "http://h2")⟩

/-- One of them, with this in its disk cache. -/
def linkMember (file : Option CacheFile) : Member where
  disk := linkDisk file
  peerMap := pairMap
  http _ _ := .ok (linkReply, true)
  receive stem := (stem.drop 2, none, 0)
  defaults := defaultOptions
  deliver := .ok
  confirm r _ := .ok r

/-- The request that is made after an `ESTALE`. -/
def retryReq (urlstem : Bytes) : BackendReq := ⟨urlstem, ⟨true, none, 0, 0⟩, false⟩

theorem linkMember_healthy (file : Option CacheFile) (req : BackendReq) : (linkMember file).Healthy req where
  disk := ⟨rfl, rfl, fun _ => rfl⟩
  http _ := ⟨linkReply, true, rfl, by simp⟩

theorem linkMember_reached (file : Option CacheFile) : (linkMember file).Reached (bytes "/l/tmp") where
  answers := ⟨{ BackendReq.ofStem defaultOptions (bytes "/l/tmp") with noPeerCache := true }, 0,
    linkMember_healthy _ _, rfl⟩
  delivered reply := ⟨reply, rfl⟩

/-- A peer of a peer, which cannot be reached. -/
def unreachableHost : PeerHost where
  receive stem := (stem.drop 2, none, 0)
  defaults := defaultOptions
  serverBackend _ _ := throwE .runtimeError (bytes "connection refused")
  deliver := .ok
  confirm r _ := .ok r

theorem pairMap_home : pairMap.lookup (bytes "/l/home") = .ok ⟨bytes "u1", bytes "http://h1", .upstream⟩ := by
  decide +kernel

theorem pairMap_tmp :
    pairMap.lookup (bytes "/l/tmp") = .ok ⟨bytes "u2", bytes "http://h2", .http (bytes "http://h2")⟩ := by
  decide +kernel

/-- A stem that belongs to the process itself is asked for at the origin server. -/
theorem no_cache_end_to_end_home :
    Arrangement.inFront.refresh (linkMember none)
        (fun _ => Arrangement.inFront.host (linkMember none) fun _ => unreachableHost)
        (retryReq (bytes "/l/home")) .miss = .ok (linkReply, true, .origin true)
      ∧ KeepsOptions (retryReq (bytes "/l/home")) (.origin true) := by
  have hlocal : ∀ peerurl, ¬ (linkMember none).Forwards (retryReq (bytes "/l/home")) peerurl := by
    rintro peerurl ⟨-, p, hp, hbe⟩
    rw [show (linkMember none).peerMap.lookup (retryReq (bytes "/l/home")).urlstem = _ from pairMap_home,
      Except.ok.injEq] at hp
    rw [← hp] at hbe
    simp at hbe
  have hlookup : (retryReq (bytes "/l/home")).noPeerCache = false →
      ∃ p, (linkMember none).peerMap.lookup (retryReq (bytes "/l/home")).urlstem = .ok p :=
    fun _ => ⟨_, pairMap_home⟩
  have hmiss : (linkMember none).disk.decision (retryReq (bytes "/l/home")).options = some (.miss false) := rfl
  have hup : ∀ hosts r, distribRefresh (linkMember none).peerMap (httpBackend (linkMember none).http) hosts
      (retryReq (bytes "/l/home")) r = .ok (linkReply, true, .origin true) :=
    fun _ r => distribRefresh_of_local hlookup hlocal r
  have hok : Arrangement.inFront.refresh (linkMember none)
      (fun _ => Arrangement.inFront.host (linkMember none) fun _ => unreachableHost)
      (retryReq (bytes "/l/home")) .miss = .ok (linkReply, true, .origin true) :=
    @DiskState.backend_of_miss _ _ _ .miss _ true _ false
      (linkMember_healthy none (retryReq (bytes "/l/home"))).disk hmiss (hup _ _) (by simp)
  refine ⟨hok, ?_⟩
  exact (@no_cache_end_to_end_iff .inFront (linkMember none) (fun _ => linkMember none)
    (fun _ => unreachableHost) (retryReq (bytes "/l/home")) .miss (linkMember_healthy _ _) hlookup
    fun peerurl hf => absurd hf (hlocal peerurl)).mpr (fun peerurl hf => absurd hf (hlocal peerurl)) _ _ _ hok

/-- The other peer, with a fresh reply in its disk cache. -/
def cachingMember : Member := linkMember (some ⟨true, linkReply.image (bytes "/l/tmp")⟩)

theorem cachingMember_reply : cachedReply cachingMember.disk.file = linkReply :=
  cachedReply_image linkReply_held rfl (by decide) (by decide)

theorem cachingMember_hit : cachingMember.peerDecision = some .hit := by
  rw [Member.peerDecision, DiskState.decision, cachingMember_reply]
  rfl

theorem cachingMember_refresh (a : Arrangement) (far : Bytes → PeerHost) (options : StaleOptions) (r : Reply123) :
    (a.host cachingMember far).refresh ⟨forwardedStem (bytes "/l/tmp"), options, false⟩ r
      = .ok (linkReply, true, .peer (.disk false)) := by
  obtain ⟨myreq, hmyreq⟩ : ∃ myreq, myreq
    = { BackendReq.ofStem defaultOptions (bytes "/l/tmp") with noPeerCache := true } := ⟨_, rfl⟩
  obtain ⟨upstream, heq, -⟩ := @Arrangement.serverBackend_eq cachingMember far myreq a (by rw [hmyreq])
  have hhit : cachingMember.disk.decision myreq.options = some .hit := by
    rw [hmyreq]
    exact cachingMember_hit
  have hp : peerHandlerP cachingMember.defaults (cachingMember.receive (forwardedStem (bytes "/l/tmp"))).1
      (cachingMember.receive (forwardedStem (bytes "/l/tmp"))).2.1
      (cachingMember.receive (forwardedStem (bytes "/l/tmp"))).2.2
      = .ok (.refresh myreq 0) := hmyreq ▸ rfl
  unfold PeerHost.refresh Arrangement.host
  dsimp only
  rw [hp]
  simp only [bind, Except.bind]
  rw [heq, DiskState.backend_of_hit hhit, cachingMember_reply]
  rfl

/-- A stem that belongs to the other peer comes back from its disk cache, in both arrangements. -/
theorem no_cache_lost :
    (linkMember none).Healthy (retryReq (bytes "/l/tmp"))
      ∧ (linkMember none).Forwards (retryReq (bytes "/l/tmp")) (bytes "http://h2")
      ∧ cachingMember.Reached (bytes "/l/tmp")
      ∧ (∀ a : Arrangement, a.refresh (linkMember none) (fun _ => a.host cachingMember fun _ => unreachableHost)
        (retryReq (bytes "/l/tmp")) .miss = .ok (linkReply, true, .peer (.disk false)))
      ∧ ¬ KeepsOptions (retryReq (bytes "/l/tmp")) (.peer (.disk false)) := by
  have hf : (linkMember none).Forwards (retryReq (bytes "/l/tmp")) (bytes "http://h2") :=
    ⟨rfl, _, pairMap_tmp, rfl⟩
  have hpeer : ∀ (a : Arrangement) upstream r, distribRefresh (linkMember none).peerMap upstream
      (fun _ => a.host cachingMember fun _ => unreachableHost) (retryReq (bytes "/l/tmp")) r
      = .ok (linkReply, true, .peer (.disk false)) := by
    intro a upstream r
    rw [distribRefresh_of_forwards hf]
    dsimp only [retryReq]
    rw [cachingMember_refresh, catchE_ok]
  refine ⟨linkMember_healthy _ _, hf, linkMember_reached _, ?_, ?_⟩
  · intro a
    cases a with
    | behind => exact hpeer .behind _ _
    | inFront =>
      exact @DiskState.backend_of_miss _ _ _ .miss _ true _ false
        (linkMember_healthy none (retryReq (bytes "/l/tmp"))).disk rfl (hpeer .inFront _ _) (by simp)
  · intro h
    exact absurd (h.noCache rfl) (by simp)

end Fs123
