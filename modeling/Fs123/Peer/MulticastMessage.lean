import Fs123.Codec.Sodium
import Fs123.Common.Pod
import Fs123.Common.Terminated

/-!
# Messages on the multicast channel

The model of `distrib_cache_message`. A message is a list of words with a NUL behind each (the version, the scope, the
secret id and the parts), a time stamp of 8 bytes and an authenticator of 32 bytes. `recv` walks over the received bytes
with offsets; `judge` says what it does with the list of words (`recv_eq_judge`).
-/

namespace Fs123

open Cxx Terminated

/-- `crypto_auth_BYTES`, `crypto_auth_KEYBYTES`. -/
def cryptoAuthBytes : ℕ := 32

@[inherit_doc cryptoAuthBytes] def cryptoAuthKeybytes : ℕ := 32

/-- `crypto_auth(out, in, inlen, k)` and whether `crypto_auth_verify(h, in, inlen, k)` returns 0; the message comes before
the key. -/
structure CryptoAuth where
  auth : Bytes → Bytes → Bytes
  verify : Bytes → Bytes → Bytes → Bool

/-- The documented behaviour. -/
structure CryptoAuth.Lawful (na : CryptoAuth) : Prop where
  auth_length : ∀ m {key : Bytes}, key.length = cryptoAuthKeybytes → (na.auth m key).length = cryptoAuthBytes
  verify_auth : ∀ m {key : Bytes}, key.length = cryptoAuthKeybytes → na.verify (na.auth m key) m key = true

/-- What a message uses of a `secret_manager`: both members may throw. -/
structure MulticastSecrets where
  getIndirectSid : Bytes → Except Exn Bytes
  getSharedkey : Bytes → Except Exn Bytes

/-- A call of a function that may throw. -/
def called {α : Type} (r : Except Exn α) : Res α := r.mapError Fault.throws

/-- What a message uses of its `distrib_cache_backend`: `scope`, `vols.multicast_timestamp_skew`, `secret_mgr`. -/
structure MulticastEnv where
  scope : Bytes
  skew : ℕ
  skew_lt : skew < 2 ^ 32
  secretMgr : Option MulticastSecrets
  na : CryptoAuth

/-- `data.size()`. -/
def messageSize : ℕ := 512

/-- `VERSION`. -/
def messageVersion : Bytes := bytes "2"

namespace MulticastEnv

/-! ## Sending -/

/-- `wptr(need)` and the copy of `need` bytes to it. `w` is what has been written. -/
def wput (w : Bytes) (need : ℕ) (src : Bytes) : Res Bytes :=
  if messageSize < w.length + need then throwE .runtimeError (bytes "out of space") else .ok (w ++ src)

/-- `wpush(sv)`. -/
def wpush (w sv : Bytes) : Res Bytes := wput w (sv.length + 1) (sv ++ [0])

/-- `wpush` for one part after the other. -/
def wpushAll : Bytes → List Bytes → Res Bytes
  | w, [] => .ok w
  | w, p :: parts => wpush w p >>= fun w => wpushAll w parts

/-- The check of the size of a key. -/
def checkKey (key : Bytes) : Res Unit :=
  if key.length < cryptoAuthKeybytes then
    throwE .runtimeError (bytes "key found, but it's too short to be used in crypto_auth")
  else .ok ()

variable (env : MulticastEnv)

/-- The secret id and the key to send with. -/
def credentials : Res (Bytes × Option Bytes) :=
  match env.secretMgr with
  | none => .ok ([], none)
  | some sm => do
    let sid ← called (sm.getIndirectSid (bytes "multicast"))
    let key ← called (sm.getSharedkey sid)
    let _ ← checkKey key
    .ok (sid, some key)

/-- `send(..., b, e)` at the time `tstamp`: the bytes for `sendto`. -/
def send (tstamp : ℤ) (parts : List Bytes) : Res Bytes := do
  let w ← wpush [] messageVersion
  let w ← wpush w env.scope
  let (sid, key) ← env.credentials
  let w ← wpush w sid
  let w ← wpushAll w parts
  let w ← wput w 8 ((Pod.int 8).put tstamp)
  wput w cryptoAuthBytes (match key with
    | some key => env.na.auth w (key.take cryptoAuthKeybytes)
    | none => zeros cryptoAuthBytes)

/-! ## Receiving -/

/-- `*p`, for a pointer to a received byte. -/
def byteAt (msg : Bytes) (i : ℕ) : Res UInt8 :=
  match msg[i]? with
  | some c => .ok c
  | none => .error .oob

/-- `n` received bytes. -/
def bytesAt (msg : Bytes) (i n : ℕ) : Res Bytes :=
  if i + n ≤ msg.length then .ok (slice msg i n) else .error .oob

/-- `std::find(first, last, '\0')`, for `n` bytes from `first` on. -/
def findNul (msg : Bytes) : ℕ → ℕ → Res ℕ
  | 0, first => .ok first
  | n + 1, first => do
    let c ← byteAt msg first
    if c = 0 then .ok first else findNul msg n (first + 1)

/-- `rpop()`: the word, and `_rptr` behind it. -/
def rpop (msg : Bytes) (rendptr rptr : ℕ) : Res (Bytes × ℕ) :=
  if rendptr ≤ rptr then throwE .runtimeError (bytes "rpop: past last word")
  else do
    let nextnul ← findNul msg (rendptr - rptr) rptr
    let w ← bytesAt msg rptr (nextnul - rptr)
    .ok (w, nextnul + 1)

/-- The words that are left. The fuel, which is at least the number of bytes, is not used up. -/
def rpopAll (msg : Bytes) (rendptr : ℕ) : ℕ → ℕ → Res (List Bytes)
  | 0, _ => .error .oob
  | fuel + 1, rptr =>
    if rptr < rendptr then do
      let (w, rptr) ← rpop msg rendptr rptr
      let ws ← rpopAll msg rendptr fuel rptr
      .ok (w :: ws)
    else .ok []

/-- `set_rptrs(recvd)`: the offset `_rendptr`. -/
def setRptrs (msg : Bytes) : Res ℕ :=
  if msg.length < 8 + cryptoAuthBytes + 1 then throwE .runtimeError (bytes "message too short")
  else do
    let rendptr := msg.length - 8 - cryptoAuthBytes
    let c ← byteAt msg (rendptr - 1)
    if c ≠ 0 then throwE .runtimeError (bytes "words don't end with NUL") else .ok rendptr

/-- `abs(now - tstamp)` in `int64_t`. An overflow has no meaning in C++; here both operations wrap round. -/
def absdelta (now tstamp : ℤ) : ℤ := (|(now - tstamp).bmod (2 ^ 64)| : ℤ).bmod (2 ^ 64)

/-- `multicast_timestamp_skew * 1000`, which is unsigned. -/
def skewMillis : ℕ := env.skew * 1000 % 2 ^ 32

/-- The check of the time stamp. The text goes on with the numbers and the address. -/
def checkTstamp (now tstamp : ℤ) : Res Unit :=
  if (env.skewMillis : ℤ) < absdelta now tstamp then throwE .runtimeError (bytes "unacceptable timestamp: ")
  else .ok ()

/-- The check of the authenticator `hmac` of the bytes `m`. -/
def checkHmac (sid m hmac : Bytes) : Res Unit :=
  match env.secretMgr with
  | none => .ok ()
  | some sm => do
    let key ← called (sm.getSharedkey sid)
    let _ ← checkKey key
    if env.na.verify hmac m (key.take cryptoAuthKeybytes) then .ok ()
    else throwE .runtimeError (bytes "crypto_auth_verify failed.  Data corruption?  Forgery?")

/-- What `recv` does when it has set the pointers. -/
def recvWords (now : ℤ) (msg : Bytes) (rendptr : ℕ) : Res (Option (List Bytes)) := do
  let (version, rptr) ← rpop msg rendptr 0
  if version ≠ messageVersion then .ok none
  else do
    let (msgScope, rptr) ← rpop msg rendptr rptr
    if msgScope ≠ env.scope then .ok none
    else do
      let tstamp ← bytesAt msg rendptr 8
      let _ ← env.checkTstamp now ((Pod.int 8).get tstamp)
      let (sid, rptr) ← rpop msg rendptr rptr
      let hmac ← bytesAt msg (rendptr + 8) cryptoAuthBytes
      let signed ← bytesAt msg 0 (rendptr + 8)
      let _ ← env.checkHmac sid signed hmac
      let parts ← rpopAll msg rendptr (msg.length + 1) rptr
      .ok (some parts)

/-- `recv(fd)` for a datagram that is received at the time `now`: the parts, or `none` for the return value `false`. A
longer datagram is truncated, but its length is known. -/
def recv (now : ℤ) (msg : Bytes) : Res (Option (List Bytes)) :=
  if msg.length = 0 then .ok none
  else if messageSize < msg.length then .ok none
  else
    match setRptrs msg with
    | .error .oob => .error .oob
    | .error (.throws _) => do
      -- The first word decides only about the complaint.
      let _ ← findNul msg msg.length 0
      .ok none
    | .ok rendptr => env.recvWords now msg rendptr

/-! ## The words of a message -/

section Walk

variable {w more : Bytes} {rendptr n : ℕ}

theorem byteAt_append (lead : Bytes) (c : UInt8) (more : Bytes) :
    byteAt (lead ++ c :: more) lead.length = .ok c := by
  rw [byteAt, List.getElem?_append_right (le_refl _), Nat.sub_self]
  rfl

theorem bytesAt_eq {msg : Bytes} {i : ℕ} (h : i + n ≤ msg.length) : bytesAt msg i n = .ok (slice msg i n) := if_pos h

/-- The search ends at the NUL behind a word. -/
theorem findNul_append (lead : Bytes) (hw : 0 ∉ w) (hn : w.length < n) :
    findNul (lead ++ (w ++ 0 :: more)) n lead.length = .ok (lead.length + w.length) := by
  induction w generalizing lead n with
  | nil =>
    obtain ⟨n, rfl⟩ := Nat.exists_eq_add_of_lt hn
    exact bind_eq_ok_iff.mpr ⟨0, byteAt_append lead 0 more, rfl⟩
  | cons c w ih =>
    obtain ⟨n, rfl⟩ := Nat.exists_eq_succ_of_ne_zero (Nat.ne_of_gt (Nat.zero_lt_of_lt hn))
    obtain ⟨hc, hw⟩ := List.ne_and_not_mem_of_not_mem_cons hw
    have hnext := ih (lead ++ [c]) hw (Nat.lt_of_succ_lt_succ hn)
    rw [List.append_assoc, List.singleton_append, List.length_append, List.length_singleton] at hnext
    refine bind_eq_ok_iff.mpr ⟨c, byteAt_append lead c _, ?_⟩
    rw [if_neg hc.symm]
    refine hnext.trans ?_
    rw [List.length_cons]
    congr 1
    omega

/-- A word is popped. -/
theorem rpop_append (lead : Bytes) (hw : 0 ∉ w) (hlt : lead.length + w.length < rendptr) :
    rpop (lead ++ (w ++ 0 :: more)) rendptr lead.length = .ok (w, lead.length + w.length + 1) := by
  have hslice : slice (lead ++ (w ++ 0 :: more)) lead.length w.length = w := by
    rw [← List.append_assoc]
    exact slice_append_mid _ _ _ rfl rfl
  rw [rpop, if_neg (by omega)]
  refine bind_eq_ok_iff.mpr ⟨_, findNul_append lead hw (by omega), bind_eq_ok_iff.mpr ⟨w, ?_, rfl⟩⟩
  rw [Nat.add_sub_cancel_left, bytesAt_eq (by simp), hslice]

/-- All words are popped. -/
theorem rpopAll_append (lead : Bytes) {ws : List Bytes} (hws : Clean 0 ws) {tail : Bytes}
    (hend : rendptr = lead.length + (join 0 ws).length) (hn : (join 0 ws).length < n) :
    rpopAll (lead ++ (join 0 ws ++ tail)) rendptr n lead.length = .ok ws := by
  induction ws generalizing lead n with
  | nil =>
    obtain ⟨n, rfl⟩ := Nat.exists_eq_add_of_lt hn
    have hstop : ¬ lead.length < rendptr := by
      rw [hend]
      exact lt_irrefl _
    rw [rpopAll, if_neg hstop]
  | cons w ws ih =>
    obtain ⟨hw, hws⟩ := clean_cons.mp hws
    rw [join, List.length_append, List.length_cons] at hend hn
    obtain ⟨n, rfl⟩ := Nat.exists_eq_succ_of_ne_zero (Nat.ne_of_gt (Nat.zero_lt_of_lt hn))
    have hsplit : lead ++ (join 0 (w :: ws) ++ tail) = lead ++ (w ++ 0 :: (join 0 ws ++ tail)) := by
      simp only [join, List.append_assoc, List.cons_append]
    have hnext := ih (lead ++ (w ++ [0])) hws (n := n) (by simp only [List.length_append, List.length_singleton]; omega)
      (by omega)
    have hsame : lead ++ (w ++ [0]) ++ (join 0 ws ++ tail) = lead ++ (w ++ 0 :: (join 0 ws ++ tail)) := by
      simp only [List.append_assoc, List.singleton_append]
    rw [hsame, List.length_append, List.length_append, List.length_singleton, ← Nat.add_assoc] at hnext
    rw [hsplit, rpopAll, if_pos (by omega)]
    exact bind_eq_ok_iff.mpr ⟨_, rpop_append lead hw (by omega), bind_eq_ok_iff.mpr ⟨ws, hnext, rfl⟩⟩

/-- A word of a message is popped behind those in front of it. -/
theorem rpop_join {msg tail : Bytes} {front rest : List Bytes} (hws : Clean 0 (front ++ w :: rest))
    (hmsg : msg = join 0 (front ++ w :: rest) ++ tail) (hend : rendptr = (join 0 (front ++ w :: rest)).length) :
    rpop msg rendptr (join 0 front).length = .ok (w, (join 0 (front ++ [w])).length) := by
  have hw : 0 ∉ w := hws w (List.mem_append_right _ List.mem_cons_self)
  have hsplit : msg = join 0 front ++ (w ++ 0 :: (join 0 rest ++ tail)) := by
    rw [hmsg, join_append, join, List.append_assoc, List.append_assoc, List.cons_append]
  have hlen : (join 0 (front ++ [w])).length = (join 0 front).length + w.length + 1 := by
    rw [join_append, join, join, List.length_append, List.length_append, List.length_singleton, Nat.add_assoc]
  rw [join_append, join, List.length_append, List.length_append, List.length_cons] at hend
  rw [hsplit, rpop_append _ hw (by omega), hlen]

end Walk

/-! ## What becomes of the words -/

/-- The time stamp of a message. -/
def tstampOf (msg : Bytes) : ℤ := (Pod.int 8).get (slice msg (msg.length - 40) 8)

/-- `rpop` without a word. -/
def noWord {α : Type} : Res α := throwE .runtimeError (bytes "rpop: past last word")

/-- What `recv` does with a message that has these words. -/
def judge (now : ℤ) (msg : Bytes) : List Bytes → Res (Option (List Bytes))
  | [] => noWord
  | [version] => if version ≠ messageVersion then .ok none else noWord
  | [version, msgScope] =>
    if version ≠ messageVersion then .ok none
    else if msgScope ≠ env.scope then .ok none
    else env.checkTstamp now (tstampOf msg) >>= fun _ => noWord
  | version :: msgScope :: sid :: parts =>
    if version ≠ messageVersion then .ok none
    else if msgScope ≠ env.scope then .ok none
    else do
      let _ ← env.checkTstamp now (tstampOf msg)
      let _ ← env.checkHmac sid (msg.take (msg.length - 32)) (msg.drop (msg.length - 32))
      .ok (some parts)

variable {env} {msg : Bytes} {ws : List Bytes} {now : ℤ}

theorem rpop_end {rendptr rptr : ℕ} (h : rendptr ≤ rptr) : rpop msg rendptr rptr = noWord := if_pos h

/-- `recv` does with the bytes what `judge` does with the words. -/
theorem recvWords_eq_judge (hlen : 41 ≤ msg.length) (hws : Clean 0 ws)
    (hbody : msg.take (msg.length - 40) = join 0 ws) :
    env.recvWords now msg (msg.length - 40) = env.judge now msg ws := by
  obtain ⟨tail, htail⟩ : ∃ tail, tail = msg.drop (msg.length - 40) := ⟨_, rfl⟩
  have hmsg : msg = join 0 ws ++ tail := by rw [← hbody, htail, List.take_append_drop]
  have hend : msg.length - 40 = (join 0 ws).length := by
    rw [← hbody, List.length_take]
    omega
  have htstamp : bytesAt msg (msg.length - 40) 8 = .ok (slice msg (msg.length - 40) 8) := bytesAt_eq (by omega)
  have hhmac : bytesAt msg (msg.length - 40 + 8) cryptoAuthBytes = .ok (msg.drop (msg.length - 32)) := by
    have hpos : msg.length - 40 + 8 = msg.length - 32 := by omega
    rw [hpos, bytesAt_eq (by unfold cryptoAuthBytes; omega), slice, List.take_of_length_le]
    rw [List.length_drop]
    unfold cryptoAuthBytes
    omega
  have hsigned : bytesAt msg 0 (msg.length - 40 + 8) = .ok (msg.take (msg.length - 32)) := by
    have hpos : msg.length - 40 + 8 = msg.length - 32 := by omega
    rw [hpos, bytesAt_eq (by omega), slice_zero]
  have hstamp : (Pod.int 8).get (slice msg (msg.length - 40) 8) = tstampOf msg := rfl
  unfold recvWords
  cases ws with
  | nil =>
    have hnone : rpop msg (msg.length - 40) 0 = noWord := rpop_end hend.le
    rw [hnone]
    rfl
  | cons version ws =>
    have hversion : rpop msg (msg.length - 40) 0 = .ok (version, (join 0 [version]).length) :=
      @rpop_join version _ msg tail [] ws hws hmsg hend
    cases ws with
    | nil =>
      have hnone : rpop msg (msg.length - 40) (join 0 [version]).length = noWord := rpop_end hend.le
      simp only [hversion, ok_bind, hnone]
      rfl
    | cons msgScope ws =>
      have hscope : rpop msg (msg.length - 40) (join 0 [version]).length
          = .ok (msgScope, (join 0 [version, msgScope]).length) :=
        @rpop_join msgScope _ msg tail [version] ws hws hmsg hend
      cases ws with
      | nil =>
        have hnone : rpop msg (msg.length - 40) (join 0 [version, msgScope]).length = noWord := rpop_end hend.le
        simp only [hversion, hscope, htstamp, ok_bind, hstamp, hnone]
        rfl
      | cons sid parts =>
        have hsid : rpop msg (msg.length - 40) (join 0 [version, msgScope]).length
            = .ok (sid, (join 0 [version, msgScope, sid]).length) :=
          @rpop_join sid _ msg tail [version, msgScope] parts hws hmsg hend
        have hclean : Clean 0 parts := fun w hw => hws w (by simp [hw])
        have hsplit : join 0 (version :: msgScope :: sid :: parts) = join 0 [version, msgScope, sid] ++ join 0 parts :=
          join_append [version, msgScope, sid] parts
        have hall : rpopAll msg (msg.length - 40) (msg.length + 1) (join 0 [version, msgScope, sid]).length
            = .ok parts := by
          rw [hsplit, List.length_append] at hend
          rw [hsplit, List.append_assoc] at hmsg
          have h := @rpopAll_append (msg.length - 40) (msg.length + 1) (join 0 [version, msgScope, sid]) parts hclean
            tail hend (by omega)
          rwa [← hmsg] at h
        simp only [hversion, hscope, htstamp, ok_bind, hstamp, hsid, hhmac, hsigned, hall]
        rfl

/-! ## Receiving -/

theorem findNul_eq_ok {n first : ℕ} (h : first + n ≤ msg.length) : ∃ i, findNul msg n first = .ok i := by
  induction n generalizing first with
  | zero => exact ⟨first, rfl⟩
  | succ n ih =>
    have hlt : first < msg.length := by omega
    have hbyte : byteAt msg first = .ok msg[first] := by rw [byteAt, List.getElem?_eq_getElem hlt]
    rw [findNul, hbyte, ok_bind]
    split
    · exact ⟨first, rfl⟩
    · exact ih (by omega)

/-- The pointers are set when the words end with a NUL. -/
theorem setRptrs_eq (hlen : 41 ≤ msg.length) : setRptrs msg =
    if (msg.take (msg.length - 40)).getLast? = some 0 then .ok (msg.length - 40)
    else throwE .runtimeError (bytes "words don't end with NUL") := by
  have hlt : msg.length - 40 - 1 < msg.length := by omega
  have hbyte : byteAt msg (msg.length - 40 - 1) = .ok msg[msg.length - 40 - 1] := by
    rw [byteAt, List.getElem?_eq_getElem hlt]
  have hlast : (msg.take (msg.length - 40)).getLast? = some msg[msg.length - 40 - 1] := by
    rw [List.getLast?_eq_getElem?, List.length_take, Nat.min_eq_left (by omega), List.getElem?_take_of_lt (by omega),
      List.getElem?_eq_getElem hlt]
  have hoff : msg.length - 8 - cryptoAuthBytes = msg.length - 40 := by
    unfold cryptoAuthBytes
    omega
  have hshort : ¬ msg.length < 8 + cryptoAuthBytes + 1 := by
    unfold cryptoAuthBytes
    omega
  rw [setRptrs, if_neg hshort, hoff]
  dsimp only
  rw [hbyte, ok_bind, hlast]
  simp only [ne_eq, ite_not, Option.some.injEq]

/-- A message of words is judged. -/
theorem recv_eq_judge (hlen : 41 ≤ msg.length) (hmax : msg.length ≤ messageSize) (hws : Clean 0 ws)
    (hbody : msg.take (msg.length - 40) = join 0 ws) : env.recv now msg = env.judge now msg ws := by
  have hne : ws ≠ [] := by
    rintro rfl
    have hnil := congrArg List.length hbody
    rw [join, List.length_nil, List.length_take] at hnil
    omega
  rw [recv, if_neg (by omega), if_neg (by omega), setRptrs_eq hlen, hbody, getLast?_join hne, if_pos rfl]
  exact recvWords_eq_judge hlen hws hbody

theorem called_inBounds {α : Type} (r : Except Exn α) : InBounds (called r) := by
  cases r with
  | ok a => exact InBounds.ok a
  | error e => exact InBounds.throws e

theorem checkKey_inBounds (key : Bytes) : InBounds (checkKey key) := by
  unfold checkKey
  split
  · exact InBounds.throwE _ _
  · exact InBounds.ok _

theorem checkTstamp_inBounds (env : MulticastEnv) (now tstamp : ℤ) : InBounds (env.checkTstamp now tstamp) := by
  unfold checkTstamp
  split
  · exact InBounds.throwE _ _
  · exact InBounds.ok _

theorem checkHmac_inBounds (env : MulticastEnv) (sid m hmac : Bytes) : InBounds (env.checkHmac sid m hmac) := by
  unfold checkHmac
  split
  · exact InBounds.ok _
  · refine (called_inBounds _).bind fun key _ => (checkKey_inBounds key).bind fun _ _ => ?_
    split
    · exact InBounds.ok _
    · exact InBounds.throwE _ _

theorem judge_inBounds (env : MulticastEnv) (now : ℤ) (msg : Bytes) (ws : List Bytes) :
    InBounds (env.judge now msg ws) := by
  have hnone : InBounds (.ok none : Res (Option (List Bytes))) := InBounds.ok _
  have hword : InBounds (noWord : Res (Option (List Bytes))) := InBounds.throwE _ _
  have htime := env.checkTstamp_inBounds now (tstampOf msg)
  unfold judge
  split
  · exact hword
  · split
    · exact hnone
    · exact hword
  · split
    · exact hnone
    split
    · exact hnone
    · exact htime.bind fun _ _ => hword
  · split
    · exact hnone
    split
    · exact hnone
    · exact htime.bind fun _ _ => (env.checkHmac_inBounds _ _ _).bind fun _ _ => InBounds.ok _

/-- Any other is ignored. -/
theorem recv_cases (env : MulticastEnv) (now : ℤ) (msg : Bytes) : env.recv now msg = .ok none
    ∨ 41 ≤ msg.length ∧ msg.length ≤ messageSize ∧ ∃ ws, Clean 0 ws ∧ msg.take (msg.length - 40) = join 0 ws := by
  obtain ⟨i, hi⟩ : ∃ i, findNul msg msg.length 0 = .ok i := findNul_eq_ok (Nat.zero_add _).le
  unfold recv
  split
  · exact .inl rfl
  split
  · exact .inl rfl
  next hmax =>
  rcases Nat.lt_or_ge msg.length 41 with hshort | hlen
  · have hset : setRptrs msg = throwE .runtimeError (bytes "message too short") := if_pos hshort
    simp only [hset, hi]
    exact .inl rfl
  · rw [setRptrs_eq hlen]
    split
    · next hlast =>
      split at hlast
      · cases hlast
      · cases hlast
    · simp only [hi]
      exact .inl rfl
    · next hlast =>
      split at hlast
      · next hnul =>
        refine .inr ⟨hlen, not_lt.mp hmax, exists_join fun c hc => ?_⟩
        rw [hnul] at hc
        exact (Option.some.inj hc).symm
      · cases hlast

theorem recv_inBounds (env : MulticastEnv) (now : ℤ) (msg : Bytes) : InBounds (env.recv now msg) := by
  rcases recv_cases env now msg with hnone | ⟨hlen, hmax, ws, hws, hbody⟩
  · rw [hnone]
    exact InBounds.ok _
  · rw [recv_eq_judge hlen hmax hws hbody]
    exact judge_inBounds env now msg ws

/-! ## Accepted messages -/

/-- The message has the version and the scope, and its authenticator is that of everything before it under the key that
it names. -/
structure Fields (env : MulticastEnv) (msg sid : Bytes) (parts : List Bytes) : Prop where
  min : 41 ≤ msg.length
  max : msg.length ≤ messageSize
  words : msg.take (msg.length - 40) = join 0 (messageVersion :: env.scope :: sid :: parts)
  clean : Clean 0 (messageVersion :: env.scope :: sid :: parts)
  verified : ∀ sm, env.secretMgr = some sm → ∃ key, sm.getSharedkey sid = .ok key ∧ cryptoAuthKeybytes ≤ key.length
    ∧ env.na.verify (msg.drop (msg.length - 32)) (msg.take (msg.length - 32)) (key.take cryptoAuthKeybytes) = true

theorem called_eq_ok_iff {α : Type} {r : Except Exn α} {a : α} : called r = .ok a ↔ r = .ok a := by
  cases r <;> simp [called, Except.mapError]

theorem checkKey_eq_ok_iff {key : Bytes} {u : Unit} : checkKey key = .ok u ↔ cryptoAuthKeybytes ≤ key.length := by
  unfold checkKey
  split
  · next h => exact iff_of_false (throwE_ne_ok _ _ _) (by omega)
  · next h => exact iff_of_true rfl (not_lt.mp h)

theorem checkHmac_eq_ok_iff {sid m hmac : Bytes} {u : Unit} : env.checkHmac sid m hmac = .ok u
    ↔ ∀ sm, env.secretMgr = some sm → ∃ key, sm.getSharedkey sid = .ok key ∧ cryptoAuthKeybytes ≤ key.length
      ∧ env.na.verify hmac m (key.take cryptoAuthKeybytes) = true := by
  unfold checkHmac
  cases env.secretMgr with
  | none => exact iff_of_true rfl (by simp)
  | some sm =>
    simp only [Option.some.injEq, forall_eq']
    rw [bind_eq_ok_iff]
    simp only [called_eq_ok_iff, bind_eq_ok_iff, checkKey_eq_ok_iff]
    constructor
    · rintro ⟨key, hkey, _, hlen, hverify⟩
      refine ⟨key, hkey, hlen, ?_⟩
      by_contra hnot
      rw [if_neg hnot] at hverify
      exact throwE_ne_ok _ _ _ hverify
    · rintro ⟨key, hkey, hlen, hverify⟩
      exact ⟨key, hkey, (), hlen, if_pos hverify⟩

theorem checkTstamp_eq_ok_iff {tstamp : ℤ} {u : Unit} :
    env.checkTstamp now tstamp = .ok u ↔ absdelta now tstamp ≤ env.skewMillis := by
  unfold checkTstamp
  split
  · next h => exact iff_of_false (throwE_ne_ok _ _ _) (by omega)
  · next h => exact iff_of_true rfl (not_lt.mp h)

theorem judge_eq_some_iff {parts : List Bytes} : env.judge now msg ws = .ok (some parts)
    ↔ ∃ sid, ws = messageVersion :: env.scope :: sid :: parts ∧ absdelta now (tstampOf msg) ≤ env.skewMillis
      ∧ env.checkHmac sid (msg.take (msg.length - 32)) (msg.drop (msg.length - 32)) = .ok () := by
  have hword : (noWord : Res (Option (List Bytes))) ≠ .ok (some parts) := throwE_ne_ok _ _ _
  have hnone : (.ok none : Res (Option (List Bytes))) ≠ .ok (some parts) := by simp
  constructor
  · intro h
    unfold judge at h
    split at h
    · exact absurd h hword
    · split at h
      · exact absurd h hnone
      · exact absurd h hword
    · split at h
      · exact absurd h hnone
      split at h
      · exact absurd h hnone
      · obtain ⟨_, -, h⟩ := bind_eq_ok_iff.mp h
        exact absurd h hword
    · next version msgScope sid rest =>
      split at h
      · exact absurd h hnone
      next hversion =>
      split at h
      · exact absurd h hnone
      next hscope =>
      obtain ⟨_, htime, h⟩ := bind_eq_ok_iff.mp h
      obtain ⟨_, hhmac, h⟩ := bind_eq_ok_iff.mp h
      obtain rfl := Option.some.inj (Except.ok.inj h)
      exact ⟨sid, by rw [not_not.mp hversion, not_not.mp hscope], checkTstamp_eq_ok_iff.mp htime, hhmac⟩
  · rintro ⟨sid, rfl, htime, hhmac⟩
    rw [judge, if_neg (not_not.mpr rfl), if_neg (not_not.mpr rfl)]
    exact bind_eq_ok_iff.mpr ⟨(), checkTstamp_eq_ok_iff.mpr htime, bind_eq_ok_iff.mpr ⟨(), hhmac, rfl⟩⟩

/-- The accepted messages. -/
theorem recv_eq_some_iff {parts : List Bytes} : env.recv now msg = .ok (some parts)
    ↔ (∃ sid, Fields env msg sid parts) ∧ absdelta now (tstampOf msg) ≤ env.skewMillis := by
  constructor
  · intro h
    rcases recv_cases env now msg with hnone | ⟨hlen, hmax, ws, hws, hbody⟩
    · rw [hnone] at h
      cases h
    · rw [recv_eq_judge hlen hmax hws hbody] at h
      obtain ⟨sid, rfl, htime, hhmac⟩ := judge_eq_some_iff.mp h
      exact ⟨⟨sid, hlen, hmax, hbody, hws, checkHmac_eq_ok_iff.mp hhmac⟩, htime⟩
  · rintro ⟨⟨sid, hfields⟩, htime⟩
    rw [recv_eq_judge hfields.min hfields.max hfields.clean hfields.words]
    exact judge_eq_some_iff.mpr ⟨sid, rfl, htime, checkHmac_eq_ok_iff.mpr hfields.verified⟩

/-! ## The time stamp -/

/-- The difference, unless it overflows. -/
theorem absdelta_eq {tstamp : ℤ} (h : |now - tstamp| < 2 ^ 63) : absdelta now tstamp = |now - tstamp| := by
  have hlo := abs_lt.mp h
  have hpos := abs_nonneg (now - tstamp)
  have hdiff : (now - tstamp).bmod (2 ^ 64) = now - tstamp := Int.bmod_eq_of_le (by omega) (by omega)
  rw [absdelta, hdiff]
  exact Int.bmod_eq_of_le (by omega) (by omega)

theorem skewMillis_le (env : MulticastEnv) : env.skewMillis ≤ env.skew * 1000 := Nat.mod_le _ _

/-- A time stamp that has passed the check is right when the difference does not overflow. -/
theorem tstamp_within_iff {tstamp : ℤ} (h : absdelta now tstamp ≤ env.skewMillis) :
    |now - tstamp| ≤ env.skew * 1000 ↔ |now - tstamp| < 2 ^ 63 := by
  have hskew := env.skew_lt
  have hle := env.skewMillis_le
  constructor
  · intro hwithin
    omega
  · intro hsmall
    rw [absdelta_eq hsmall] at h
    omega

/-- The message is one that may be accepted. -/
structure Valid (env : MulticastEnv) (now : ℤ) (msg : Bytes) (parts : List Bytes) : Prop where
  fields : ∃ sid, Fields env msg sid parts
  within : |now - tstampOf msg| ≤ env.skew * 1000

/-- The fields are right, and the difference of the times overflows to one that is small or negative. -/
structure Overflows (env : MulticastEnv) (now : ℤ) (msg : Bytes) : Prop where
  fields : ∃ sid parts, Fields env msg sid parts
  small : absdelta now (tstampOf msg) ≤ env.skewMillis
  large : 2 ^ 63 ≤ |now - tstampOf msg|

/-- Only valid messages are accepted, unless the difference overflows. -/
theorem accepted_valid_iff : (∀ parts, env.recv now msg = .ok (some parts) → Valid env now msg parts)
    ↔ ¬ Overflows env now msg := by
  constructor
  · rintro hvalid ⟨⟨sid, parts, hfields⟩, hsmall, hlarge⟩
    have hwithin := (hvalid parts (recv_eq_some_iff.mpr ⟨⟨sid, hfields⟩, hsmall⟩)).within
    rw [tstamp_within_iff hsmall] at hwithin
    omega
  · intro hnot parts hrecv
    obtain ⟨⟨sid, hfields⟩, hsmall⟩ := recv_eq_some_iff.mp hrecv
    refine ⟨⟨sid, hfields⟩, (tstamp_within_iff hsmall).mpr (not_le.mp fun hlarge => ?_)⟩
    exact hnot ⟨⟨sid, parts, hfields⟩, hsmall, hlarge⟩

/-! ## Sent messages -/

theorem wput_eq {w src : Bytes} {need : ℕ} (h : w.length + need ≤ messageSize) : wput w need src = .ok (w ++ src) :=
  if_neg (not_lt.mpr h)

theorem wpush_eq {w sv : Bytes} (h : (w ++ join 0 [sv]).length ≤ messageSize) : wpush w sv = .ok (w ++ join 0 [sv]) := by
  rw [List.length_append, join, join, List.length_append, List.length_singleton] at h
  rw [wpush, wput_eq h]
  rfl

theorem wpushAll_eq {w : Bytes} {parts : List Bytes} (h : (w ++ join 0 parts).length ≤ messageSize) :
    wpushAll w parts = .ok (w ++ join 0 parts) := by
  induction parts generalizing w with
  | nil => rw [wpushAll, join, List.append_nil]
  | cons p parts ih =>
    have hsplit : w ++ join 0 (p :: parts) = w ++ join 0 [p] ++ join 0 parts := by
      rw [List.append_assoc, ← join_append]
      rfl
    rw [hsplit] at h ⊢
    rw [wpushAll, wpush_eq (by rw [List.length_append] at h; omega), ok_bind, ih h]

/-- The authenticator that is sent. -/
def hmacOf (env : MulticastEnv) (key : Option Bytes) (m : Bytes) : Bytes :=
  match key with
  | some key => env.na.auth m (key.take cryptoAuthKeybytes)
  | none => zeros cryptoAuthBytes

/-- What is sent when it fits. -/
theorem send_eq {sid : Bytes} {key : Option Bytes} {tstamp : ℤ} {parts : List Bytes}
    (hcred : env.credentials = .ok (sid, key))
    (hfits : (join 0 (messageVersion :: env.scope :: sid :: parts)).length + 40 ≤ messageSize) :
    env.send tstamp parts = .ok (join 0 (messageVersion :: env.scope :: sid :: parts) ++ (Pod.int 8).put tstamp
      ++ hmacOf env key (join 0 (messageVersion :: env.scope :: sid :: parts) ++ (Pod.int 8).put tstamp)) := by
  have hsplit : join 0 (messageVersion :: env.scope :: sid :: parts)
      = [] ++ join 0 [messageVersion] ++ join 0 [env.scope] ++ join 0 [sid] ++ join 0 parts := by
    rw [List.nil_append, ← join_append, ← join_append, ← join_append]
    rfl
  have hput : ((Pod.int 8).put tstamp).length = 8 := leBytes_length _ _
  rw [hsplit] at hfits ⊢
  simp only [List.length_append] at hfits
  unfold send
  rw [wpush_eq (by simp only [List.length_append]; omega), ok_bind, wpush_eq (by simp only [List.length_append]; omega),
    ok_bind, hcred, ok_bind]
  dsimp only
  rw [wpush_eq (by simp only [List.length_append]; omega), ok_bind,
    wpushAll_eq (by simp only [List.length_append]; omega), ok_bind,
    wput_eq (by simp only [List.length_append]; omega), ok_bind,
    wput_eq (by simp only [List.length_append, cryptoAuthBytes]; omega)]
  rfl

/-- The key that is sent with is that of the secret id. -/
theorem credentials_inv {sid : Bytes} {key : Option Bytes} (h : env.credentials = .ok (sid, key)) :
    (env.secretMgr = none ∧ key = none)
      ∨ ∃ sm k, env.secretMgr = some sm ∧ key = some k ∧ sm.getSharedkey sid = .ok k ∧ cryptoAuthKeybytes ≤ k.length := by
  unfold credentials at h
  cases hsm : env.secretMgr with
  | none =>
    rw [hsm] at h
    cases h
    exact .inl ⟨rfl, rfl⟩
  | some sm =>
    rw [hsm] at h
    obtain ⟨sid', -, h⟩ := bind_eq_ok_iff.mp h
    obtain ⟨k, hkey, h⟩ := bind_eq_ok_iff.mp h
    obtain ⟨_, hlen, h⟩ := bind_eq_ok_iff.mp h
    cases h
    exact .inr ⟨sm, k, rfl, rfl, called_eq_ok_iff.mp hkey, checkKey_eq_ok_iff.mp hlen⟩

/-- A message that is sent has the fields. -/
theorem fields_send (hna : env.na.Lawful) {sid : Bytes} {key : Option Bytes} {tstamp : ℤ} {parts : List Bytes}
    (hcred : env.credentials = .ok (sid, key))
    (hclean : Clean 0 (messageVersion :: env.scope :: sid :: parts))
    (hfits : (join 0 (messageVersion :: env.scope :: sid :: parts)).length + 40 ≤ messageSize)
    (hsend : env.send tstamp parts = .ok msg) :
    Fields env msg sid parts ∧ tstampOf msg = (Pod.int 8).get ((Pod.int 8).put tstamp) := by
  rw [send_eq hcred hfits] at hsend
  obtain rfl := Except.ok.inj hsend
  obtain ⟨B, hB⟩ : ∃ B, B = join 0 (messageVersion :: env.scope :: sid :: parts) := ⟨_, rfl⟩
  obtain ⟨ts, hts⟩ : ∃ ts, ts = (Pod.int 8).put tstamp := ⟨_, rfl⟩
  obtain ⟨mac, hmac⟩ : ∃ mac, mac = hmacOf env key (B ++ ts) := ⟨_, rfl⟩
  have htslen : ts.length = 8 := hts ▸ leBytes_length _ _
  have hcred' := credentials_inv hcred
  have hkeylen : ∀ {k : Bytes}, cryptoAuthKeybytes ≤ k.length → (k.take cryptoAuthKeybytes).length = cryptoAuthKeybytes :=
    fun h => List.length_take_of_le h
  have hmaclen : mac.length = 32 := by
    rw [hmac]
    rcases hcred' with ⟨-, rfl⟩ | ⟨_, k, -, rfl, -, hlen⟩
    · exact zeros_length _
    · exact hna.auth_length _ (hkeylen hlen)
  rw [← hB, ← hts, ← hmac]
  rw [← hB] at hfits
  have hlen : (B ++ ts ++ mac).length = B.length + 40 := by
    rw [List.length_append, List.length_append, htslen, hmaclen]
  have hBne : 0 < B.length := by
    rw [hB]
    exact List.length_pos_of_ne_nil (join_ne_nil _ _)
  have hdrop : (B ++ ts ++ mac).drop ((B ++ ts ++ mac).length - 32) = mac := by
    apply List.drop_left'
    rw [hlen, List.length_append, htslen]
    omega
  have htake : (B ++ ts ++ mac).take ((B ++ ts ++ mac).length - 32) = B ++ ts := by
    apply List.take_left'
    rw [hlen, List.length_append, htslen]
    omega
  refine ⟨⟨by omega, by omega, ?_, hclean, ?_⟩, ?_⟩
  · rw [hlen, Nat.add_sub_cancel, List.append_assoc, List.take_left, hB]
  · intro sm hsm
    rw [hdrop, htake, hmac]
    rcases hcred' with ⟨hnone, -⟩ | ⟨sm', k, hsome, rfl, hkey, hle⟩
    · rw [hnone] at hsm
      cases hsm
    · obtain rfl := Option.some.inj (hsome.symm.trans hsm)
      exact ⟨k, hkey, hle, hna.verify_auth _ (hkeylen hle)⟩
  · rw [tstampOf, hlen, Nat.add_sub_cancel, slice_append_mid B ts mac rfl htslen.symm, hts]

/-- A message that is sent is received, with its parts, when the clocks are within the skew that the check computes; and
every received message is judged without leaving it, and is only accepted when it is valid or the difference of the times
overflows. -/
theorem multicast_message (env : MulticastEnv) :
    (env.na.Lawful → 0 ∉ env.scope → ∀ sid key parts (tstamp now : ℤ), env.credentials = .ok (sid, key) →
      0 ∉ sid → Clean 0 parts → (join 0 (messageVersion :: env.scope :: sid :: parts)).length + 40 ≤ messageSize →
      -2 ^ 63 ≤ tstamp → tstamp < 2 ^ 63 → |now - tstamp| ≤ env.skew * 1000 →
      ∃ msg, env.send tstamp parts = .ok msg
        ∧ (env.recv now msg = .ok (some parts) ↔ |now - tstamp| ≤ env.skew * 1000 % 2 ^ 32))
      ∧ ∀ now msg, InBounds (env.recv now msg)
        ∧ ((∀ parts, env.recv now msg = .ok (some parts) → Valid env now msg parts) ↔ ¬ Overflows env now msg) := by
  refine ⟨fun hna hscope sid key parts tstamp now hcred hsid hparts hfits hlo hhi hwithin => ?_,
    fun now msg => ⟨recv_inBounds env now msg, accepted_valid_iff⟩⟩
  have hversion : (0 : UInt8) ∉ messageVersion := by decide
  have hclean : Clean 0 (messageVersion :: env.scope :: sid :: parts) :=
    clean_cons.mpr ⟨hversion, clean_cons.mpr ⟨hscope, clean_cons.mpr ⟨hsid, hparts⟩⟩⟩
  refine ⟨_, send_eq hcred hfits, ?_⟩
  obtain ⟨hfields, htstamp⟩ := fields_send hna hcred hclean hfits (send_eq hcred hfits)
  have hint : (Pod.int 8).get ((Pod.int 8).put tstamp) = tstamp :=
    (Pod.int 8).get_put (Int.bmod_eq_of_le (by omega) (by omega))
  have hskew := env.skew_lt
  have hmillis : ((env.skewMillis : ℕ) : ℤ) = env.skew * 1000 % 2 ^ 32 := by
    rw [skewMillis]
    push_cast
    rfl
  rw [recv_eq_some_iff, htstamp, hint, absdelta_eq (by omega), hmillis]
  exact and_iff_right ⟨sid, hfields⟩

/-- A backend without secrets, with a skew of 10 seconds. -/
def openEnv : MulticastEnv := ⟨bytes "s", 10, by decide, none, ⟨fun _ _ => zeros 32, fun _ _ _ => true⟩⟩

/-- A message whose time stamp is `2 ^ 63` milliseconds before the time 1700000000000. -/
def ancientMessage : Bytes :=
  join 0 [messageVersion, bytes "s", [], bytes "P", bytes "u"] ++ (Pod.int 8).put (1700000000000 - 2 ^ 63) ++ zeros 32

theorem ancientMessage_accepted : openEnv.recv 1700000000000 ancientMessage = .ok (some [bytes "P", bytes "u"])
    ∧ tstampOf ancientMessage = 1700000000000 - 2 ^ 63
    ∧ ¬ Valid openEnv 1700000000000 ancientMessage [bytes "P", bytes "u"] := by
  have htstamp : tstampOf ancientMessage = 1700000000000 - 2 ^ 63 := by decide +kernel
  refine ⟨by rfl, htstamp, fun hvalid => ?_⟩
  have hwithin := hvalid.within
  rw [htstamp] at hwithin
  exact absurd hwithin (by decide)

end MulticastEnv

end Fs123
