import Fs123.Codec.Opened
import Fs123.Server.ErrorStatus
import Fs123.Server.RequestTransport
import Fs123.Server.SendSpec

/-!
# Encrypted-only service

A server with a secret manager that does not accept plaintext requests. The handlers, that of `/p` apart,
are called for requests whose function, path and query were in an authentic envelope (`Recovered`), and
the 200 replies to these are sealed (`Sealed`).
-/

namespace Fs123

open Cxx

/-- The ways in which a handler answers. For an exception that it passes to `exception_reply` the code
promises an error status. -/
inductive Answers (svr : Server) (nonce cc : Bytes) (r : Req) (sent : Sent) : Prop
  | reply (rep : HandlerReply) : rep.send svr nonce r cc = .ok sent → Answers svr nonce cc r sent
  | notModified : catchInternal (r.notModifiedReply svr cc) = .ok sent → Answers svr nonce cc r sent
  | exception (e : Exn) : httpStatusFromEvnest e ≠ 200 → sent = exceptionReply e → Answers svr nonce cc r sent

namespace Req

variable {svr : Server} {sm : SecretManager} {hr : HttpRequest} {r r' : Req} {nonce cc : Bytes}

/-! ## Requests -/

end Req

/-! ## The service -/

section Service

variable {svr : Server} {sm : SecretManager} {hr : HttpRequest} {r r' : Req} {nonce cc : Bytes} {sent : Sent}

end Service

end Fs123
