import Fs123.Core.Netstring

/-!
# Header names and keys

The model of `httpheaders.hpp`: the names of the fs123-specific http headers, the keys of a 7.3 reply,
and the quoted ETag that both sides read.
-/

namespace Fs123

open Cxx

/-- `HHCOOKIE` and the other http header names. All but the last are obsolete from 7.3 on. -/
def hhCookie : Bytes := bytes "fs123-estalecookie"

@[inherit_doc hhCookie] def hhErrno : Bytes := bytes "fs123-errno"

@[inherit_doc hhCookie] def hhNo : Bytes := bytes "fs123-nextoffset"

@[inherit_doc hhCookie] def hhTrsum : Bytes := bytes "fs123-trsum"

/-- `FS123_ERRNO` and the other keys of a 7.3 reply. -/
def keyErrno : Bytes := bytes "errno"

@[inherit_doc keyErrno] def keyContent : Bytes := bytes "content"

@[inherit_doc keyErrno] def keyCookie : Bytes := bytes "estalecookie"

@[inherit_doc keyErrno] def keyValidator : Bytes := bytes "validator"

@[inherit_doc keyErrno] def keyNextstart : Bytes := bytes "nextstart"

@[inherit_doc keyErrno] def keyRequest : Bytes := bytes "req123"

/-- `fs123_protocol_minor_min` and `fs123_protocol_minor_max`. -/
def protocolMinorMin : ℤ := 2

@[inherit_doc protocolMinorMin] def protocolMinorMax : ℤ := 3

/-- A header name in lower case. -/
def lower (name : Bytes) : Bytes :=
  name.map fun c => if ch 'A' ≤ c && c ≤ ch 'Z' then c + 32 else c

/-- `parse_quoted_etag`. The views it is given end at the NUL or the comma of a C string, which is what
the read one past a final quote finds. -/
def parseQuotedEtag (et : Bytes) : Res ℕ :=
  match findChar et (ch '"') 0 with
  | none => throwE .invalidArgument (bytes "parse_quoted_etag:  no double-quote")
  | some qidx =>
    if et.getD (qidx + 1) 0 = ch '0' then
      throwE .invalidArgument (bytes "parse_quoted_etag:  ambiguous leading 0")
    else do
      let (et64, qidx2) ← scanintU 64 10 false et (qidx + 1)
      if et[qidx2]? ≠ some (ch '"') then
        throwE .invalidArgument (bytes "parse_quoted_etag:  no trailing double-quote")
      else .ok et64

/-! ## Key/value pairs -/

/-- One pair of a 7.3 reply as text. -/
def pairText (kv : Bytes × Bytes) : Bytes :=
  netstring kv.1 ++ [ch ' '] ++ netstring kv.2 ++ [ch '\n']

/-- A sequence of pairs as text. -/
def pairsText (kvs : List (Bytes × Bytes)) : Bytes := kvs.flatMap pairText

@[simp] theorem pairsText_nil : pairsText [] = [] := rfl

@[simp] theorem pairsText_append (kvs kvs' : List (Bytes × Bytes)) :
    pairsText (kvs ++ kvs') = pairsText kvs ++ pairsText kvs' := by
  simp [pairsText]

@[simp] theorem pairsText_singleton (kv : Bytes × Bytes) : pairsText [kv] = pairText kv := by
  simp [pairsText]

theorem pairText_length (kv : Bytes × Bytes) :
    (pairText kv).length = (netstring kv.1).length + 1 + (netstring kv.2).length + 1 := by
  simp [pairText]
  omega

theorem pairText_length_pos (kv : Bytes × Bytes) : 0 < (pairText kv).length := by
  rw [pairText_length]
  omega

end Fs123
