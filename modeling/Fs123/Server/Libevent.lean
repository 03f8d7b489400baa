import Fs123.Core.UrlEscape

/-!
# The http library

What the server uses of libevent's http code, as a parameter. `Evhttp.Lawful` lists the documented
behaviour that the server relies on; `libevent` is an instance with that behaviour.
-/

namespace Fs123

open Cxx

/-- What the server uses of libevent's http code. -/
structure Evhttp where
  /-- `evhttp_uri_get_path` of the parsed uri. -/
  uriPath : Bytes → Bytes
  /-- `evhttp_uri_get_query` of the parsed uri. -/
  uriQuery : Bytes → Option Bytes
  /-- `evhttp_uridecode(s, 0, &size)`. -/
  uridecode : Bytes → Bytes
  /-- `evhttp_add_header` accepts the name and the value. -/
  headerOk : Bytes → Bytes → Bool

/-- A uri that is a path with an optional query and fragment: it starts with one slash. -/
def OriginForm (uri : Bytes) : Prop :=
  uri.head? = some (ch '/') ∧ uri[1]? ≠ some (ch '/')

/-- The path of such a uri ends at the first `?` or `#`. -/
def pathPart (uri : Bytes) : Bytes := uri.takeWhile fun c => c ≠ ch '?' && c ≠ ch '#'

/-- The query of such a uri is what stands between the first `?`, if that comes before any `#`, and the
next `#`. -/
def queryPart (uri : Bytes) : Option Bytes :=
  match uri.drop (pathPart uri).length with
  | c :: rest => if c = ch '?' then some (rest.takeWhile (· ≠ ch '#')) else none
  | [] => none

/-- A text without line breaks. -/
def NoBreak (s : Bytes) : Prop := ch '\r' ∉ s ∧ ch '\n' ∉ s

instance (s : Bytes) : Decidable (NoBreak s) := inferInstanceAs (Decidable (_ ∧ _))

/-- The documented behaviour. -/
structure Evhttp.Lawful (ev : Evhttp) : Prop where
  uriPath : ∀ uri, OriginForm uri → ev.uriPath uri = pathPart uri
  uriQuery : ∀ uri, OriginForm uri → ev.uriQuery uri = queryPart uri
  uridecode : ∀ s, ev.uridecode s = percentDecode s
  headerOk : ∀ name value, NoBreak name → NoBreak value → ev.headerOk name value = true

/-- The library on uris in origin form and on headers without line continuations. -/
def libevent : Evhttp where
  uriPath := pathPart
  uriQuery := queryPart
  uridecode := percentDecode
  headerOk name value := decide (NoBreak name) && decide (NoBreak value)

theorem libevent_lawful : libevent.Lawful where
  uriPath _ _ := rfl
  uriQuery _ _ := rfl
  uridecode _ := rfl
  headerOk name value hn hv := by simp [libevent, hn, hv]

theorem NoBreak.cstr {s : Bytes} (h : NoBreak s) : NoBreak (cstr s) :=
  ⟨fun hm => h.1 (List.takeWhile_subset _ hm), fun hm => h.2 (List.takeWhile_subset _ hm)⟩

/-- Bytes that are no line breaks make a text without line breaks. -/
theorem NoBreak.of_forall {s : Bytes} {p : UInt8 → Prop} (hs : ∀ c ∈ s, p c) (hr : ¬ p (ch '\r'))
    (hn : ¬ p (ch '\n')) : NoBreak s :=
  ⟨fun hm => hr (hs _ hm), fun hm => hn (hs _ hm)⟩

end Fs123
