import Fs123.Common.Memory
import Fs123.Core.Exn

/-!
# The cryptographic primitives

What `content_codec` uses of libsodium, as a parameter. `Sodium.Lawful` lists the documented facts that
the codec relies on. The NaCl-style entry points that the code calls, with their leading zero bytes, are
defined from the primitives.

`Sodium.ofStream` builds a lawful instance from any key stream and authenticator, which is how the
library's own secretbox is made.
-/

namespace Fs123

open Cxx

/-- `crypto_secretbox_KEYBYTES`, `_NONCEBYTES`, `_MACBYTES`, `_ZEROBYTES`, `_BOXZEROBYTES`. -/
def secretboxKeybytes : ℕ := 32

@[inherit_doc secretboxKeybytes] def secretboxNoncebytes : ℕ := 24

@[inherit_doc secretboxKeybytes] def secretboxMacbytes : ℕ := 16

@[inherit_doc secretboxKeybytes] def secretboxZerobytes : ℕ := 32

@[inherit_doc secretboxKeybytes] def secretboxBoxzerobytes : ℕ := 16

/-- `crypto_generichash_KEYBYTES_MIN` and `_MAX`. -/
def generichashKeybytesMin : ℕ := 16

@[inherit_doc generichashKeybytesMin] def generichashKeybytesMax : ℕ := 64

/-- The primitives: `secretbox key nonce m` is the authenticator followed by the cipher text. -/
structure Sodium where
  secretbox : Bytes → Bytes → Bytes → Bytes
  secretboxOpen : Bytes → Bytes → Bytes → Option Bytes
  generichash : ℕ → Bytes → Bytes → Bytes

/-- The documented behaviour of the primitives. -/
structure Sodium.Lawful (na : Sodium) : Prop where
  secretbox_length : ∀ {key nonce : Bytes} (m : Bytes), key.length = secretboxKeybytes →
    nonce.length = secretboxNoncebytes →
    (na.secretbox key nonce m).length = secretboxMacbytes + m.length
  open_secretbox : ∀ {key nonce : Bytes} (m : Bytes), key.length = secretboxKeybytes →
    nonce.length = secretboxNoncebytes →
    na.secretboxOpen key nonce (na.secretbox key nonce m) = some m
  generichash_length : ∀ n m key, (na.generichash n m key).length = n

namespace Sodium

/-- `crypto_secretbox(c, m, mlen, nonce, key)`: the bytes written to `c`, or `none` for the return value
`-1`. The message has 32 leading bytes, the result 16 leading zeros. -/
def cryptoSecretbox (na : Sodium) (m nonce key : Bytes) : Option Bytes :=
  if m.length < secretboxZerobytes then none
  else some (zeros secretboxBoxzerobytes
    ++ na.secretbox (key.take secretboxKeybytes) nonce (m.drop secretboxZerobytes))

/-- `crypto_secretbox_open(m, c, clen, nonce, key)`: the bytes written to `m`. -/
def cryptoSecretboxOpen (na : Sodium) (c nonce key : Bytes) : Option Bytes :=
  if c.length < secretboxZerobytes then none
  else (na.secretboxOpen (key.take secretboxKeybytes) nonce (c.drop secretboxBoxzerobytes)).map
    (zeros secretboxZerobytes ++ ·)

/-- A box made of a key stream and an authenticator: the first 32 bytes of the stream key the
authenticator and the rest encrypts. -/
def ofStream (stream : Bytes → Bytes → ℕ → UInt8) (auth : Bytes → Bytes → Bytes)
    (hash : ℕ → Bytes → Bytes → Bytes) : Sodium where
  secretbox key nonce m :=
    let c := m.mapIdx fun i b => b ^^^ stream key nonce (32 + i)
    let mac := auth ((List.range 32).map (stream key nonce)) c
    (mac ++ zeros 16).take 16 ++ c
  secretboxOpen key nonce box :=
    let c := box.drop 16
    let mac := auth ((List.range 32).map (stream key nonce)) c
    if box.take 16 = (mac ++ zeros 16).take 16 then
      some (c.mapIdx fun i b => b ^^^ stream key nonce (32 + i))
    else none
  generichash n m key := (hash n m key ++ zeros n).take n

theorem ofStream_lawful (stream : Bytes → Bytes → ℕ → UInt8) (auth : Bytes → Bytes → Bytes)
    (hash : ℕ → Bytes → Bytes → Bytes) : (ofStream stream auth hash).Lawful where
  secretbox_length := by
    intro key nonce m _ _
    simp [ofStream, secretboxMacbytes]
  open_secretbox := by
    intro key nonce m _ _
    have hmac : ∀ l : Bytes, ((l ++ zeros 16).take 16).length = 16 := by
      intro l
      simp
    simp only [ofStream]
    rw [List.drop_left' (hmac _), List.take_left' (hmac _), if_pos rfl]
    -- The key stream cancels.
    apply congrArg some
    apply List.ext_getElem?
    intro i
    simp only [List.getElem?_mapIdx, Option.map_map]
    cases m[i]? with
    | none => rfl
    | some b => simp only [Option.map_some, Function.comp_apply, UInt8.xor_assoc, UInt8.xor_self, UInt8.xor_zero]
  generichash_length n m key := by
    simp [ofStream]

/-- The primitives at one key, nonce and message, from a table of the key stream, the authenticator and
the hash. -/
def ofTable (stream mac hash : Bytes) : Sodium :=
  ofStream (fun _ _ i => stream.getD i 0) (fun _ _ => mac) (fun _ _ _ => hash)

theorem ofTable_lawful (stream mac hash : Bytes) : (ofTable stream mac hash).Lawful :=
  ofStream_lawful _ _ _

end Sodium

/-- What the code uses of a `secret_manager`: both members may throw. -/
structure SecretManager where
  getSharedkey : Bytes → Res Bytes
  getEncodeSid : Res Bytes

end Fs123
