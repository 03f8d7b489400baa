import Fs123.Server.ParseSpec

/-!
# What the query of a request becomes

For queries in the form that clients send, the handler call that the dispatch makes of them.
-/

namespace Fs123

open Cxx

theorem endsNumber_semicolon (rest : Bytes) : EndsNumber (ch ';' :: rest) :=
  EndsNumber.cons _ ⟨by decide, by decide, by decide⟩

namespace Req

variable {svr : Server} {r : Req} {ckib inm64 : ℕ}

/-- The length in front of a query. -/
theorem scanintU_ckib {query rest : Bytes} (hckib : ckib ≤ 1025)
    (hquery : query = decimal ckib ++ ch ';' :: rest) :
    scanintU 64 0 true query 0 = .ok (ckib, (decimal ckib).length) := by
  have h : scanintU 64 0 true query 0 = .ok (ckib, 0 + (decimal ckib).length) :=
    scanintU_decimal true (by omega) hquery (endsNumber_semicolon rest)
  rwa [Nat.zero_add] at h

theorem checkLen_ok (f : Bytes) (hckib : ckib ≤ 1025) : checkLen f ckib = .ok () := by
  have : maxReplySize / 1024 = 1025 := by decide
  rw [checkLen, if_neg (by omega)]

/-- What stands behind the first semicolon. -/
theorem drop_ckib (rest : Bytes) :
    (decimal ckib ++ ch ';' :: rest).drop ((decimal ckib).length + 1) = rest := by
  rw [show decimal ckib ++ ch ';' :: rest = (decimal ckib ++ [ch ';']) ++ rest by simp]
  exact List.drop_left' (by simp)

/-! ## `/f` -/

/-- A file request is dispatched unless its length leaves no space for the validator. -/
theorem dispatchFile_iff {start : ℕ} {rest : Bytes} (hblob : r.blob = none) (hckib : ckib ≤ 1025)
    (hstart : start ≤ (2 ^ 64 - 1) / 1024) (hrest : EndsNumber rest)
    (hquery : r.query = decimal ckib ++ ch ';' :: (decimal start ++ rest)) :
    (∃ r', r.dispatchFile inm64 = .ok (r', .f inm64 (ckib * 1024) (start * 1024))) ↔ ckib ≤ 1024 := by
  have hscan : scanintU 64 0 true r.query ((decimal ckib).length + 1)
      = .ok (start, (decimal ckib).length + 1 + (decimal start).length) :=
    scanintU_decimal true (by omega) (by rw [hquery, drop_ckib]) hrest
  have hfile : catchQuery (bytes "f") r.query (fileQuery r.query) = .ok (ckib, start) := by
    unfold fileQuery
    simp only [bind, Except.bind, scanintU_ckib hckib hquery, hscan]
    rfl
  unfold dispatchFile
  rw [hfile]
  simp only [bind, Except.bind, checkLen_ok _ hckib]
  constructor
  · intro h
    obtain ⟨r', h⟩ := h
    obtain ⟨r₁, halloc, -⟩ := bind_eq_ok_iff.mp h
    obtain ⟨-, hsz, -⟩ := allocatePbuf_eq_ok_iff.mp halloc
    simp only [validatorSpace, maxReplySize] at hsz
    omega
  · intro hle
    have hsz : ckib * 1024 + validatorSpace ≤ maxReplySize := by
      simp only [validatorSpace, maxReplySize]
      omega
    rw [(allocatePbuf_eq_ok_iff (r := { r with requestedLen := ckib * 1024 })).mpr ⟨hblob, hsz, rfl⟩]
    obtain ⟨buf, hbuf, -⟩ := subspan_withBuf { r with requestedLen := ckib * 1024 }
      (f := zeros frontRoom) (s := zeros validatorSpace) (b := zeros (ckib * 1024 + backRoom))
      (small_of_le (by simp; omega) (by simp; omega)) (zeros_length _).symm
    rw [zeros_append, show validatorSpace + (ckib * 1024 + backRoom)
      = ckib * 1024 + validatorSpace + backRoom by omega] at hbuf
    simp only [hbuf]
    rw [if_neg (by omega)]
    exact ⟨_, rfl⟩

/-- Whatever the numbers are, a file request that is dispatched is for what its query says. -/
theorem dispatchFile_call {r' : Req} {len offset start : ℕ} {rest : Bytes} (hckib : ckib < 2 ^ 64)
    (hstart : start < 2 ^ 64) (hrest : EndsNumber rest)
    (hquery : r.query = decimal ckib ++ ch ';' :: (decimal start ++ rest))
    (h : r.dispatchFile inm64 = .ok (r', .f inm64 len offset)) :
    len = ckib * 1024 ∧ offset = start * 1024 := by
  have hfile : catchQuery (bytes "f") r.query (fileQuery r.query) = .ok (ckib, start) := by
    have hlen : scanintU 64 0 true r.query 0 = .ok (ckib, (decimal ckib).length) := by
      rw [@scanintU_decimal 64 ckib 0 r.query _ true hckib (by rw [hquery]; rfl)
        (endsNumber_semicolon _), Nat.zero_add]
    have hscan : scanintU 64 0 true r.query ((decimal ckib).length + 1)
        = .ok (start, (decimal ckib).length + 1 + (decimal start).length) :=
      scanintU_decimal true hstart (by rw [hquery, drop_ckib]) hrest
    unfold fileQuery
    simp only [bind, Except.bind, hlen, hscan]
    rfl
  unfold dispatchFile at h
  rw [hfile] at h
  obtain ⟨p, hp, h⟩ := bind_eq_ok_iff.mp h
  obtain rfl := Except.ok.inj hp
  obtain ⟨_, -, h⟩ := bind_eq_ok_iff.mp h
  obtain ⟨_, -, h⟩ := bind_eq_ok_iff.mp h
  obtain ⟨_, -, h⟩ := bind_eq_ok_iff.mp h
  split at h
  · simp [httpthrow] at h
  · simp only [Except.ok.injEq, Prod.mk.injEq, HandlerCall.f.injEq, true_and] at h
    exact ⟨h.2.1.symm, h.2.2.symm⟩

/-- A file request that is dispatched asks for at most 1025 KiB. -/
theorem dispatchFile_limit {r' : Req} {call : HandlerCall} {rest : Bytes} (hckib : ckib < 2 ^ 64)
    (hquery : r.query = decimal ckib ++ ch ';' :: rest) (h : r.dispatchFile inm64 = .ok (r', call)) :
    ckib ≤ 1025 := by
  have hlen : scanintU 64 0 true r.query 0 = .ok (ckib, (decimal ckib).length) := by
    rw [@scanintU_decimal 64 ckib 0 r.query _ true hckib (by rw [hquery]; rfl)
      (endsNumber_semicolon _), Nat.zero_add]
  unfold dispatchFile at h
  obtain ⟨⟨lenkib, offsetkib⟩, hq, h⟩ := bind_eq_ok_iff.mp h
  have hlenkib : lenkib = ckib := by
    unfold catchQuery at hq
    rw [catchE_eq_ok_iff (by simp)] at hq
    unfold fileQuery at hq
    rw [hlen] at hq
    obtain ⟨p, hp, hq⟩ := bind_eq_ok_iff.mp hq
    obtain rfl := Except.ok.inj hp
    obtain ⟨p', -, hq⟩ := bind_eq_ok_iff.mp hq
    simp only [Except.ok.injEq, Prod.mk.injEq] at hq
    exact hq.1.symm
  obtain ⟨u, hcheck, -⟩ := bind_eq_ok_iff.mp h
  have hmax : maxReplySize / 1024 = 1025 := by decide
  unfold checkLen at hcheck
  split at hcheck
  · simp [httpthrow] at hcheck
  · omega

/-! ## `/x` -/

theorem dispatchXattr_eq {attr rest : Bytes} (hl : svr.ev.Lawful) (hckib : ckib ≤ 1025) (hattr : 0 ∉ attr)
    (hquery : r.query = decimal ckib ++ ch ';' :: (urlescape attr ++ ch ';' :: rest)) :
    r.dispatchXattr svr = .ok (r, .x (ckib * 1024) attr) := by
  have hesc : ∀ c, urlSafe c = false → c ≠ ch '%' → c ∉ urlescape attr :=
    fun c hs hc => not_mem_urlescape hs hc attr
  have hfind : findChar r.query (ch ';') ((decimal ckib).length + 1)
      = some ((urlescape attr).length + ((decimal ckib).length + 1)) := by
    rw [hquery, show decimal ckib ++ ch ';' :: (urlescape attr ++ ch ';' :: rest)
      = (decimal ckib ++ [ch ';']) ++ (urlescape attr ++ ch ';' :: rest) by simp]
    have h := findChar_append_length (decimal ckib ++ [ch ';']) (urlescape attr ++ ch ';' :: rest)
      (ch ';')
    rw [findChar_append_of_not_mem (hesc _ (by decide) (by decide)), findChar_cons_self] at h
    simpa using h
  have hname : slice r.query ((decimal ckib).length + 1) (urlescape attr).length = urlescape attr := by
    rw [slice, hquery, drop_ckib, List.take_left]
  unfold dispatchXattr
  simp only [bind, Except.bind, scanintU_ckib hckib hquery, checkLen_ok _ hckib]
  rw [if_neg, hfind]
  · simp only [Except.ok.injEq, Prod.mk.injEq, HandlerCall.x.injEq, true_and]
    rw [show (urlescape attr).length + ((decimal ckib).length + 1) - (1 + (decimal ckib).length)
      = (urlescape attr).length by omega, hname, cstr_eq_self (hesc 0 (by decide) (by decide)),
      hl.uridecode, percentDecode_urlescape, cstr_eq_self hattr]
  · rw [hquery, not_not]
    exact getElem?_append_cons _ _ _ rfl

/-! ## `/d` -/

/-- Once the scans of a directory request have found the start of its chunk, the call depends on the
%-decoding of that text. The request gets a buffer of the length that it asks for. -/
theorem dispatchDir_eq_ok_iff {off : ℕ} {r' : Req} (chunkstart : Bytes) (hblob : r.blob = none)
    (hckib : ckib ≤ 1025) (hoff : off ≤ r.query.length) (hlen : r.query.length < sizeMod)
    (hquery : r.dirQuery = .ok (ckib, off)) :
    r.dispatchDir inm64 = .ok (r', .d inm64 chunkstart)
      ↔ r' = r.withBuf (zeros frontRoom) [] (zeros (ckib * 1024 + backRoom))
        ∧ urlunescape (r.query.drop off) = .ok chunkstart := by
  have hstart : substr r.query off npos = .ok (r.query.drop off) := by
    rw [substr_eq_ok_iff]
    refine ⟨hoff, ?_⟩
    rw [slice, List.take_of_length_le]
    rw [List.length_drop, npos]
    omega
  have hsz : ckib * 1024 ≤ maxReplySize := by
    rw [maxReplySize]
    omega
  unfold dispatchDir
  rw [hquery, catchQuery, catchE_ok]
  simp only [bind, Except.bind, checkLen_ok _ hckib, hstart,
    allocatePbuf_eq_ok_iff.mpr ⟨hblob, hsz, rfl⟩]
  cases urlunescape (r.query.drop off) with
  | error f => simp
  | ok s => simp [eq_comm]

theorem dispatchDir_iff {off : ℕ} (chunkstart : Bytes) (hblob : r.blob = none) (hckib : ckib ≤ 1025)
    (hoff : off ≤ r.query.length) (hlen : r.query.length < sizeMod)
    (hquery : r.dirQuery = .ok (ckib, off)) :
    (∃ r', r.dispatchDir inm64 = .ok (r', .d inm64 chunkstart))
      ↔ urlunescape (r.query.drop off) = .ok chunkstart := by
  simp only [dispatchDir_eq_ok_iff chunkstart hblob hckib hoff hlen hquery, exists_eq_left]

/-- From 7.3 on the text behind the length is the start of the chunk. -/
theorem dirQuery_73 {rest : Bytes} (hminor : r.protoMinor = 3) (hckib : ckib ≤ 1025)
    (hquery : r.query = decimal ckib ++ ch ';' :: rest) :
    r.dirQuery = .ok (ckib, (decimal ckib).length + 1) := by
  have hat : at? r.query (decimal ckib).length = .ok (ch ';') := by
    rw [at?_eq_ok_iff, hquery]
    exact getElem?_append_cons _ _ _ rfl
  rw [dirQuery, if_neg (by omega), dirQuery73]
  simp only [bind, Except.bind, scanintU_ckib hckib hquery, hat]
  rfl

theorem dispatchDir_73_iff {rest : Bytes} (chunkstart : Bytes) (hminor : r.protoMinor = 3)
    (hblob : r.blob = none) (hckib : ckib ≤ 1025) (hlen : r.query.length < sizeMod)
    (hquery : r.query = decimal ckib ++ ch ';' :: rest) :
    (∃ r', r.dispatchDir inm64 = .ok (r', .d inm64 chunkstart)) ↔ urlunescape rest = .ok chunkstart := by
  have hoff : (decimal ckib).length + 1 ≤ r.query.length := by
    rw [hquery, List.length_append, List.length_cons]
    omega
  rw [dispatchDir_iff chunkstart hblob hckib hoff hlen (dirQuery_73 hminor hckib hquery), hquery,
    drop_ckib]

/-- The first chunk before 7.3. -/
theorem dirQuery_72_begin {rest : Bytes} (hminor : r.protoMinor = 2) (hckib : ckib ≤ 1025)
    (hquery : r.query = decimal ckib ++ ch ';' :: (bytes "1;0" ++ rest)) :
    r.dirQuery = .ok (ckib, r.query.length) := by
  have hscan : scanintS 32 0 true r.query ((decimal ckib).length + 1)
      = .ok (1, (decimal ckib).length + 1 + (decimalInt 1).length) := by
    refine scanintS_decimalInt (by decide) (by decide) (by decide) ?_
      (endsNumber_semicolon (ch '0' :: rest))
    rw [hquery, drop_ckib]
    rfl
  rw [dirQuery, if_pos (by omega), dirQuery72]
  simp only [bind, Except.bind, scanintU_ckib hckib hquery, hscan]
  rfl

/-- A later chunk before 7.3. -/
theorem dirQuery_72_start {rest : Bytes} (hminor : r.protoMinor = 2) (hckib : ckib ≤ 1025)
    (hquery : r.query = decimal ckib ++ ch ';' :: (bytes "0;" ++ rest)) :
    r.dirQuery = .ok (ckib, (decimal ckib).length + 3)
      ∧ r.query.drop ((decimal ckib).length + 3) = rest := by
  have hscan : scanintS 32 0 true r.query ((decimal ckib).length + 1)
      = .ok (0, (decimal ckib).length + 1 + (decimalInt 0).length) := by
    refine scanintS_decimalInt (by decide) (by decide) (by decide) ?_ (endsNumber_semicolon rest)
    rw [hquery, drop_ckib]
    rfl
  constructor
  · rw [dirQuery, if_pos (by omega), dirQuery72]
    simp only [bind, Except.bind, scanintU_ckib hckib hquery, hscan]
    rfl
  · rw [hquery, show decimal ckib ++ ch ';' :: (bytes "0;" ++ rest)
      = (decimal ckib ++ [ch ';', ch '0', ch ';']) ++ rest by simp [show bytes "0;" = [ch '0', ch ';'] by decide]]
    exact List.drop_left' (by simp)

theorem dispatchDir_72_begin {rest : Bytes} (hminor : r.protoMinor = 2) (hblob : r.blob = none)
    (hckib : ckib ≤ 1025) (hlen : r.query.length < sizeMod)
    (hquery : r.query = decimal ckib ++ ch ';' :: (bytes "1;0" ++ rest)) :
    ∃ r', r.dispatchDir inm64 = .ok (r', .d inm64 []) := by
  rw [dispatchDir_iff [] hblob hckib le_rfl hlen (dirQuery_72_begin hminor hckib hquery),
    List.drop_length]
  rfl

theorem dispatchDir_72_iff {rest : Bytes} (chunkstart : Bytes) (hminor : r.protoMinor = 2)
    (hblob : r.blob = none) (hckib : ckib ≤ 1025) (hlen : r.query.length < sizeMod)
    (hquery : r.query = decimal ckib ++ ch ';' :: (bytes "0;" ++ rest)) :
    (∃ r', r.dispatchDir inm64 = .ok (r', .d inm64 chunkstart)) ↔ urlunescape rest = .ok chunkstart := by
  obtain ⟨hdir, hdrop⟩ := dirQuery_72_start hminor hckib hquery
  have hoff : (decimal ckib).length + 3 ≤ r.query.length := by
    rw [hquery, show bytes "0;" = [ch '0', ch ';'] by decide]
    simp only [List.length_append, List.length_cons]
    omega
  rw [dispatchDir_iff chunkstart hblob hckib hoff hlen hdir, hdrop]

end Req

end Fs123
