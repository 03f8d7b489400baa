import Fs123.Server.Parse
import Fs123.Server.Reply

/-!
# The life of a request

A request is owned by one `unique_ptr` at a time: that of `parse_and_handle`, of the handler, of a reply
function, or of the code that the handler hands it to. Whoever owns it replies, or the destructor does. The
thread pool is the exception: `tp_handler` releases the pointer into the work that it submits, and work that
is not run has no destructor.

`serve` follows a request from `http_cb` to its end, for everything that parsing and the handler may do.
`one_reply_iff` says when exactly one reply is sent.
-/

namespace Fs123

open Cxx

namespace Lifetime

/-- What changes in a `req` while it is passed around: `replied`, whether `evhr` is still there, and the
statuses that have been sent, latest first. -/
structure ReqState where
  replied : Bool
  evhr : Bool
  sent : List ℤ
  deriving Repr, DecidableEq

/-- `req(evreq, server, arm)`. -/
def ReqState.new : ReqState := ⟨false, true, []⟩

/-- `log_and_send_destructively(status)`. `log` is the exception that `maybe_call_logger` throws, if it does;
the function catches it. -/
def logAndSend (log : Option Exn) (status : ℤ) (q : ReqState) : ReqState :=
  if q.replied then q
  else
    match log with
    | some _ => { q with replied := true }
    | none => ⟨true, false, status :: q.sent⟩

/-- `internal_exception(e)` and `exception_reply(e)`. They go through `evhr`, which a request that has been
sent does not have any more. -/
def internalException (log : Option Exn) (e : Exn) (q : ReqState) : Option ReqState :=
  if q.evhr then some (logAndSend log (httpStatusFromEvnest e) q) else none

/-- `~req()`. -/
def destroy (log : Option Exn) (q : ReqState) : Option ReqState :=
  if q.replied then some q
  else internalException log
    ⟨httpException 500 (bytes "fs123p7::req destroyed before xxx_reply called."), []⟩ q

/-- A call `xxx_reply(std::move(req), ...)`: the member gets as far as sending a status, or something in its
`try` block throws first. Then the request is destroyed. -/
def replyFunction (log : Option Exn) (member : Except Exn ℤ) (q : ReqState) : Option ReqState := do
  let q ← match member with
    | .ok status => some (logAndSend log status q)
    | .error e => internalException log e q
  destroy log q

/-- What `tp.submit` does with the work: it throws before the work is in the queue, or the work is in the
queue, where a worker runs it if there is one, and `submit` returns or throws. -/
inductive Submission where
  | rejected (e : Exn)
  | queued (run : Bool) (thrown : Option Exn)
  deriving Repr, DecidableEq

/-- What a handler does with a request that it owns. In each case it returns or throws afterwards. -/
inductive Behaviour where
  /-- It calls a reply function. -/
  | reply (member : Except Exn ℤ) (thrown : Option Exn)
  /-- Its `unique_ptr` goes out of scope. -/
  | drop (thrown : Option Exn)
  /-- It gives the request to other code, which later does something with it. -/
  | handOver (later : Behaviour) (thrown : Option Exn)
  /-- It is a `tp_handler`, which submits a call of the wrapped handler. -/
  | submit (s : Submission) (wrapped : Behaviour)

/-- The request at its end, and the exception that leaves the handler. -/
def Behaviour.exec (log : Option Exn) : Behaviour → ReqState → Option (ReqState × Option Exn)
  | .reply member thrown, q => (replyFunction log member q).map (·, thrown)
  | .drop thrown, q => (destroy log q).map (·, thrown)
  | .handOver later thrown, q => (later.exec log q).map fun p => (p.1, thrown)
  | .submit (.rejected e) _, q =>
    -- The released pointer is lost with the work: nothing destroys the request.
    some (q, some e)
  | .submit (.queued run thrown) wrapped, q =>
    -- What the wrapped handler throws ends up in a future.
    if run then (wrapped.exec log q).map fun p => (p.1, thrown) else some (q, thrown)

/-- What happens in `parse_and_handle`. -/
inductive Outcome where
  /-- An exception before the handler is called. -/
  | parseThrows (e : Exn)
  /-- An exception in the arguments of the call; `moved` says whether the request is in its parameter. -/
  | argumentThrows (e : Exn) (moved : Bool)
  | called (b : Behaviour)

/-- `parse_and_handle(req)`, with the destruction of its parameter. -/
def parseAndHandle (log : Option Exn) (o : Outcome) (q : ReqState) : Option ReqState :=
  match o with
  | .parseThrows e | .argumentThrows e false => (internalException log e q).bind (destroy log)
  | .argumentThrows _ true => destroy log q
  | .called b =>
    -- The request has been moved from: an exception is only complained about.
    (b.exec log q).map Prod.fst

/-- `http_cb`. -/
def serve (log : Option Exn) (o : Outcome) : Option ReqState := parseAndHandle log o .new

/-- The outcome for an http request: what parsing it leads to, and what the handler does when it is called.
There is none after an access outside an array. -/
def outcome (svr : Server) (hr : HttpRequest) (handler : Req → HandlerCall → Behaviour) : Option Outcome :=
  match Req.parse svr hr with
  | .ok (r, call) => some (.called (handler r call))
  | .error (.throws e) => some (.parseThrows e)
  | .error .oob => none

/-! ## One reply -/

/-- The work of every `submit` on the way of the request gets into the queue and is run. -/
def Behaviour.Delivered : Behaviour → Prop
  | .reply _ _ | .drop _ => True
  | .handOver later _ => later.Delivered
  | .submit (.rejected _) _ => False
  | .submit (.queued run _) wrapped => run = true ∧ wrapped.Delivered

@[inherit_doc Behaviour.Delivered] def Outcome.Delivered : Outcome → Prop
  | .parseThrows _ | .argumentThrows _ _ => True
  | .called b => b.Delivered

/-- Nothing happens to a request after a reply to it. -/
theorem destroy_replied {log : Option Exn} {q : ReqState} (h : q.replied = true) :
    destroy log q = some q := if_pos h

@[simp] theorem logAndSend_replied (log : Option Exn) (status : ℤ) (q : ReqState) :
    (logAndSend log status q).replied = true := by
  unfold logAndSend
  split
  · next h => exact h
  · cases log <;> rfl

theorem internalException_new (log : Option Exn) (e : Exn) :
    internalException log e .new = some (logAndSend log (httpStatusFromEvnest e) .new) := rfl

/-- A request that is destroyed without a reply gets one. -/
theorem destroy_new (log : Option Exn) : destroy log .new = some (logAndSend log 500 .new) := rfl

theorem replyFunction_new (log : Option Exn) (member : Except Exn ℤ) :
    ∃ status, replyFunction log member .new = some (logAndSend log status .new) := by
  cases member with
  | ok status =>
    refine ⟨status, ?_⟩
    exact destroy_replied (logAndSend_replied log status .new)
  | error e =>
    refine ⟨httpStatusFromEvnest e, ?_⟩
    exact destroy_replied (logAndSend_replied log _ .new)

/-- A handler replies once to a request that it owns, unless a thread pool loses it. -/
theorem Behaviour.exec_new (log : Option Exn) (b : Behaviour) :
    ∃ p, b.exec log .new = some p ∧
      (b.Delivered → ∃ status, p.1 = logAndSend log status .new) ∧ (¬ b.Delivered → p.1 = .new) := by
  induction b with
  | reply member thrown =>
    obtain ⟨status, hstatus⟩ := replyFunction_new log member
    refine ⟨(logAndSend log status .new, thrown), ?_, fun _ => ⟨status, rfl⟩, fun h => absurd trivial h⟩
    rw [exec, hstatus, Option.map_some]
  | drop thrown =>
    refine ⟨(logAndSend log 500 .new, thrown), ?_, fun _ => ⟨500, rfl⟩, fun h => absurd trivial h⟩
    rw [exec, destroy_new, Option.map_some]
  | handOver later thrown ih =>
    obtain ⟨p, hp, hd, hn⟩ := ih
    refine ⟨(p.1, thrown), ?_, hd, hn⟩
    rw [exec, hp, Option.map_some]
  | submit s wrapped ih =>
    cases s with
    | rejected e => exact ⟨(.new, some e), rfl, fun h => absurd h id, fun _ => rfl⟩
    | queued run thrown =>
      cases run with
      | false =>
        refine ⟨(.new, thrown), by simp [exec], ?_, fun _ => rfl⟩
        rintro ⟨hrun, -⟩
        simp at hrun
      | true =>
        obtain ⟨p, hp, hd, hn⟩ := ih
        refine ⟨(p.1, thrown), by simp [exec, hp], fun h => hd h.2, ?_⟩
        exact fun h => hn fun hw => h ⟨rfl, hw⟩

/-- Whatever parsing and the handler do, the request ends with one attempt at a reply, unless a thread pool
loses it. -/
theorem serve_eq (log : Option Exn) (o : Outcome) :
    ∃ q, serve log o = some q ∧
      (o.Delivered → ∃ status, q = logAndSend log status .new) ∧ (¬ o.Delivered → q = .new) := by
  have hcaught : ∀ e, ∃ q, (internalException log e .new).bind (destroy log) = some q ∧
      ∃ status, q = logAndSend log status .new := by
    intro e
    refine ⟨_, ?_, httpStatusFromEvnest e, rfl⟩
    rw [internalException_new, Option.bind_some]
    exact destroy_replied (logAndSend_replied log _ .new)
  cases o with
  | parseThrows e =>
    obtain ⟨q, hq, hstatus⟩ := hcaught e
    exact ⟨q, hq, fun _ => hstatus, fun h => absurd trivial h⟩
  | argumentThrows e moved =>
    cases moved with
    | false =>
      obtain ⟨q, hq, hstatus⟩ := hcaught e
      exact ⟨q, hq, fun _ => hstatus, fun h => absurd trivial h⟩
    | true => exact ⟨_, destroy_new log, fun _ => ⟨500, rfl⟩, fun h => absurd trivial h⟩
  | called b =>
    obtain ⟨p, hp, hd, hn⟩ := b.exec_new log
    refine ⟨p.1, ?_, hd, hn⟩
    rw [serve, parseAndHandle, hp, Option.map_some]

/-- Exactly one reply is sent for a request if and only if no thread pool loses it and the reply can be
logged. -/
theorem one_reply_iff (log : Option Exn) (o : Outcome) :
    (∃ q, serve log o = some q ∧ q.sent.length = 1) ↔ o.Delivered ∧ log = none := by
  obtain ⟨q, hq, hd, hn⟩ := serve_eq log o
  have hlen : (∃ q, serve log o = some q ∧ q.sent.length = 1) ↔ q.sent.length = 1 := by
    simp only [hq, Option.some.injEq, exists_eq_left']
  rw [hlen]
  constructor
  · intro hone
    have hdelivered : o.Delivered := by
      by_contra hlost
      simp [hn hlost, ReqState.new] at hone
    obtain ⟨status, rfl⟩ := hd hdelivered
    refine ⟨hdelivered, ?_⟩
    cases log with
    | none => rfl
    | some e => simp [logAndSend, ReqState.new] at hone
  · rintro ⟨hdelivered, rfl⟩
    obtain ⟨status, rfl⟩ := hd hdelivered
    rfl

/-- A thread pool that has been shut down: the request gets no reply. -/
theorem pool_loses_reply :
    ¬ ∀ (log : Option Exn) (o : Outcome), ∃ q, serve log o = some q ∧ q.sent.length = 1 := by
  intro hclaim
  obtain ⟨q, hq, hone⟩ := hclaim none (.called (.submit (.rejected ⟨⟨.logicError,
    bytes "could not enqueue workunit into threadpool queue.  Threadpool has probably been shutdown"⟩, []⟩)
    (.reply (.ok 200) none)))
  obtain rfl : ReqState.new = q := Option.some.inj hq
  simp [ReqState.new] at hone

/-- There are never two replies. -/
theorem at_most_one_reply (log : Option Exn) (o : Outcome) {q : ReqState} (h : serve log o = some q) :
    q.sent.length ≤ 1 := by
  obtain ⟨q', hq, hd, hn⟩ := serve_eq log o
  obtain rfl : q' = q := Option.some.inj (hq.symm.trans h)
  by_cases hdelivered : o.Delivered
  · obtain ⟨status, rfl⟩ := hd hdelivered
    cases log <;> simp [logAndSend, ReqState.new]
  · simp [hn hdelivered, ReqState.new]

/-- The status of the reply that the reply member and its `catch` lead to is the one that is sent. -/
theorem replyFunction_send {rep : HandlerReply} {svr : Server} {nonce cc : Bytes} {r : Req} {sent : Sent}
    (h : rep.send svr nonce r cc = .ok sent) :
    ∃ member, (rep.build svr nonce r cc).map (fun s => s.status) = Except.mapError Fault.throws member ∧
      replyFunction none member .new = some ⟨true, false, [sent.status]⟩ := by
  rw [HandlerReply.send, catchInternal] at h
  rcases hb : rep.build svr nonce r cc with (e | _) | built
  · refine ⟨.error e, rfl, ?_⟩
    obtain rfl : exceptionReply e = sent := by simpa [hb, catchE] using h
    rfl
  · simp [hb, catchE] at h
  · refine ⟨.ok built.status, rfl, ?_⟩
    obtain rfl : built = sent := by simpa [hb, catchE] using h
    rfl

/-- A request that parsing refuses gets the reply that `parse_and_handle` makes of the exception. -/
theorem serve_refused {svr : Server} {hr : HttpRequest} {sent : Sent}
    (handler : Req → HandlerCall → Behaviour) (h : Fs123.parseAndHandle svr hr = .ok (.inl sent)) :
    ∃ o, outcome svr hr handler = some o ∧ serve none o = some ⟨true, false, [sent.status]⟩ := by
  rcases hp : Req.parse svr hr with (e | _) | call
  · refine ⟨.parseThrows e, by rw [outcome, hp], ?_⟩
    obtain rfl : exceptionReply e = sent := by
      simpa [Fs123.parseAndHandle, hp, bind, Except.bind, catchE] using h
    rfl
  · simp [Fs123.parseAndHandle, hp, bind, Except.bind, catchE] at h
  · simp [Fs123.parseAndHandle, hp, bind, Except.bind, catchE] at h

end Lifetime

end Fs123
