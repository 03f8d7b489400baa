import Fs123.Core.Exn

/-!
# Base64

The model of `macaron::Base64`. `Encode` computes its loop bound as `in_len - 2` in `size_t`, so it needs
at least two bytes of input. `Decode` reads the last two bytes of its input before it looks at the length,
and indexes its table with a signed `char`.
-/

namespace Fs123

open Cxx

/-- `sEncodingTable`. -/
def encodingTable : Bytes :=
  bytes "ABCDEFGHIJKLMNOPQRSTUVWXYZabcdefghijklmnopqrstuvwxyz0123456789+/"

/-- An entry of the encoding table. -/
def sextet (n : ℕ) : UInt8 := encodingTable.getD n 0

/-- An entry of `kDecodingTable`: 64 for a byte outside the alphabet. -/
def unsextet (c : UInt8) : ℕ :=
  if ch 'A' ≤ c && c ≤ ch 'Z' then c.toNat - 65
  else if ch 'a' ≤ c && c ≤ ch 'z' then c.toNat - 97 + 26
  else if ch '0' ≤ c && c ≤ ch '9' then c.toNat - 48 + 52
  else if c = ch '+' then 62
  else if c = ch '/' then 63
  else 64

/-- The characters for three bytes. -/
def encodeTriple (a b c : UInt8) : Bytes :=
  [sextet (a.toNat / 4), sextet (a.toNat % 4 * 16 + b.toNat / 16),
    sextet (b.toNat % 16 * 4 + c.toNat / 64), sextet (c.toNat % 64)]

/-- The loop of `Encode` and the one or two bytes after it. -/
def encodeLoop : Bytes → Bytes
  | a :: b :: c :: rest => encodeTriple a b c ++ encodeLoop rest
  | [a, b] =>
    [sextet (a.toNat / 4), sextet (a.toNat % 4 * 16 + b.toNat / 16), sextet (b.toNat % 16 * 4), ch '=']
  | [a] => [sextet (a.toNat / 4), sextet (a.toNat % 4 * 16), ch '=', ch '=']
  | [] => []

/-- `Base64::Encode(data)`. -/
def base64Encode (data : Bytes) : Res Bytes :=
  if data.length < 2 then .error .oob else .ok (encodeLoop data)

/-- One character of the input of `Decode`. -/
def decodeChar (c : UInt8) : Res ℕ :=
  if c = ch '=' then .ok 0
  else if 128 ≤ c.toNat then .error .oob
  else .ok (unsextet c)

/-- The loop of `Decode`: three bytes for every four characters. -/
def decodeLoop : Bytes → Res Bytes
  | a :: b :: c :: d :: rest => do
    let a ← decodeChar a
    let b ← decodeChar b
    let c ← decodeChar c
    let d ← decodeChar d
    if 63 < a ∨ 63 < b ∨ 63 < c ∨ 63 < d then
      throwE .runtimeError (bytes "base64::Decode: Non-alphabet character in input data")
    else
      let triple := a * 2 ^ 18 + b * 2 ^ 12 + c * 2 ^ 6 + d
      let out ← decodeLoop rest
      .ok (UInt8.ofNat (triple / 2 ^ 16) :: UInt8.ofNat (triple / 2 ^ 8) :: UInt8.ofNat triple :: out)
  | _ => .ok []

/-- `Base64::Decode(input)`. -/
def base64Decode (input : Bytes) : Res Bytes :=
  if input.length % 4 ≠ 0 then
    throwE .runtimeError (bytes "base64::Decode: Input data size is not a multiple of 4")
  else if input = [] then .error .oob
  else do
    let pad := (if input[input.length - 1]? = some (ch '=') then 1 else 0)
      + (if input[input.length - 2]? = some (ch '=') then 1 else 0)
    let out ← decodeLoop input
    .ok (out.take (input.length / 4 * 3 - pad))

/-! ## The round trip -/

theorem unsextet_sextet {n : ℕ} (h : n < 64) : unsextet (sextet n) = n := by
  interval_cases n <;> decide

theorem sextet_ne_eq {n : ℕ} (h : n < 64) : sextet n ≠ ch '=' := by
  interval_cases n <;> decide

theorem sextet_lt {n : ℕ} (h : n < 64) : (sextet n).toNat < 128 := by
  interval_cases n <;> decide

theorem decodeChar_sextet {n : ℕ} (h : n < 64) : decodeChar (sextet n) = .ok n := by
  have := sextet_lt h
  rw [decodeChar, if_neg (sextet_ne_eq h), if_neg (by omega), unsextet_sextet h]

/-- The number of `=` signs at the end of an encoding. -/
def equalsCount (n : ℕ) : ℕ := (3 - n % 3) % 3

theorem encodeLoop_length (data : Bytes) :
    (encodeLoop data).length = 4 * ((data.length + 2) / 3) := by
  induction data using encodeLoop.induct with
  | case1 a b c rest ih =>
    simp only [encodeLoop, encodeTriple, List.length_append, List.length_cons, List.length_nil, ih]
    omega
  | case2 a b => simp [encodeLoop]
  | case3 a => simp [encodeLoop]
  | case4 => simp [encodeLoop]

/-- Decoding the characters of an encoding gives the data and a zero byte for every `=`. -/
theorem decodeLoop_encodeLoop (data : Bytes) :
    decodeLoop (encodeLoop data) = .ok (data ++ List.replicate (equalsCount data.length) 0) := by
  induction data using encodeLoop.induct with
  | case1 a b c rest ih =>
    have ha := UInt8.toNat_lt a
    have hb := UInt8.toNat_lt b
    have hc := UInt8.toNat_lt c
    have hpad : equalsCount (a :: b :: c :: rest).length = equalsCount rest.length := by
      simp only [equalsCount, List.length_cons]
      omega
    rw [hpad, encodeLoop, encodeTriple]
    simp only [List.cons_append, List.nil_append, decodeLoop]
    rw [decodeChar_sextet (by omega), decodeChar_sextet (by omega), decodeChar_sextet (by omega),
      decodeChar_sextet (by omega)]
    simp only [bind, Except.bind]
    rw [if_neg (by omega), ih]
    simp only [Except.ok.injEq, List.cons.injEq, and_true]
    refine ⟨?_, ?_, ?_⟩
    · rw [← UInt8.toNat_inj, UInt8.toNat_ofNat']
      omega
    · rw [← UInt8.toNat_inj, UInt8.toNat_ofNat']
      omega
    · rw [← UInt8.toNat_inj, UInt8.toNat_ofNat']
      omega
  | case2 a b =>
    have ha := UInt8.toNat_lt a
    have hb := UInt8.toNat_lt b
    simp only [encodeLoop, decodeLoop]
    rw [decodeChar_sextet (by omega), decodeChar_sextet (by omega), decodeChar_sextet (by omega),
      decodeChar, if_pos rfl]
    simp only [bind, Except.bind]
    rw [if_neg (by omega)]
    simp only [equalsCount, List.length_cons, List.length_nil, Except.ok.injEq]
    simp only [List.cons_append, List.nil_append, List.replicate, List.cons.injEq, and_true]
    refine ⟨?_, ?_, ?_⟩
    · rw [← UInt8.toNat_inj, UInt8.toNat_ofNat']
      omega
    · rw [← UInt8.toNat_inj, UInt8.toNat_ofNat']
      omega
    · rw [← UInt8.toNat_inj, UInt8.toNat_ofNat']
      simp only [UInt8.toNat_zero]
      omega
  | case3 a =>
    have ha := UInt8.toNat_lt a
    simp only [encodeLoop, decodeLoop]
    rw [decodeChar_sextet (by omega), decodeChar_sextet (by omega), decodeChar, if_pos rfl]
    simp only [bind, Except.bind]
    rw [if_neg (by omega)]
    simp only [equalsCount, List.length_cons, List.length_nil, Except.ok.injEq]
    simp only [List.cons_append, List.nil_append, List.replicate, List.cons.injEq, and_true]
    refine ⟨?_, ?_, ?_⟩
    · rw [← UInt8.toNat_inj, UInt8.toNat_ofNat']
      omega
    · rw [← UInt8.toNat_inj, UInt8.toNat_ofNat']
      simp only [UInt8.toNat_zero]
      omega
    · rw [← UInt8.toNat_inj, UInt8.toNat_ofNat']
      simp only [UInt8.toNat_zero]
      omega
  | case4 => rfl

/-- The `=` signs that `Decode` looks for at the end are those that `Encode` has put there. -/
theorem encodeLoop_pad {data : Bytes} (h : data ≠ []) :
    (if (encodeLoop data)[(encodeLoop data).length - 1]? = some (ch '=') then 1 else 0)
      + (if (encodeLoop data)[(encodeLoop data).length - 2]? = some (ch '=') then 1 else 0)
      = equalsCount data.length := by
  induction data using encodeLoop.induct with
  | case1 a b c rest ih =>
    have ha := UInt8.toNat_lt a
    have hb := UInt8.toNat_lt b
    have hc := UInt8.toNat_lt c
    by_cases hrest : rest = []
    · subst hrest
      simp only [encodeLoop, encodeTriple, List.append_nil, List.length_cons, List.length_nil]
      simp [sextet_ne_eq (n := c.toNat % 64) (by omega),
        sextet_ne_eq (n := b.toNat % 16 * 4 + c.toNat / 64) (by omega), equalsCount]
    · -- The last two characters are those of the rest.
      have hlen : 4 ≤ (encodeLoop rest).length := by
        have := List.length_pos_of_ne_nil hrest
        rw [encodeLoop_length]
        omega
      have hpad : equalsCount (a :: b :: c :: rest).length = equalsCount rest.length := by
        simp only [equalsCount, List.length_cons]
        omega
      rw [hpad, ← ih hrest, encodeLoop]
      have h4 : (encodeTriple a b c).length = 4 := rfl
      rw [List.getElem?_append_right (by rw [List.length_append, h4]; omega),
        List.getElem?_append_right (by rw [List.length_append, h4]; omega), List.length_append, h4,
        show 4 + (encodeLoop rest).length - 1 - 4 = (encodeLoop rest).length - 1 from by omega,
        show 4 + (encodeLoop rest).length - 2 - 4 = (encodeLoop rest).length - 2 from by omega]
  | case2 a b =>
    have hb := UInt8.toNat_lt b
    simp [encodeLoop, equalsCount, sextet_ne_eq (n := b.toNat % 16 * 4) (by omega)]
  | case3 a => simp [encodeLoop, equalsCount]
  | case4 => exact absurd rfl h

/-- `Decode` inverts `Encode`. -/
theorem base64Decode_encodeLoop {data : Bytes} (h : data ≠ []) :
    base64Decode (encodeLoop data) = .ok data := by
  have hpos := List.length_pos_of_ne_nil h
  have hlen := encodeLoop_length data
  have hne : encodeLoop data ≠ [] := by
    intro hnil
    rw [hnil, List.length_nil] at hlen
    omega
  unfold base64Decode
  rw [if_neg (by omega), if_neg hne, encodeLoop_pad h, decodeLoop_encodeLoop]
  simp only [bind, Except.bind, Except.ok.injEq]
  apply List.take_left'
  rw [hlen]
  simp only [equalsCount]
  omega

/-- The characters of an encoding. -/
theorem mem_encodeLoop {data : Bytes} {x : UInt8} (h : x ∈ encodeLoop data) :
    (∃ n < 64, x = sextet n) ∨ x = ch '=' := by
  induction data using encodeLoop.induct with
  | case1 a b c rest ih =>
    have ha := UInt8.toNat_lt a
    have hb := UInt8.toNat_lt b
    have hc := UInt8.toNat_lt c
    simp only [encodeLoop, encodeTriple, List.cons_append, List.nil_append, List.mem_cons] at h
    rcases h with h | h | h | h | h
    · exact Or.inl ⟨_, by omega, h⟩
    · exact Or.inl ⟨_, by omega, h⟩
    · exact Or.inl ⟨_, by omega, h⟩
    · exact Or.inl ⟨_, by omega, h⟩
    · exact ih h
  | case2 a b =>
    have ha := UInt8.toNat_lt a
    have hb := UInt8.toNat_lt b
    simp only [encodeLoop, List.mem_cons, List.not_mem_nil, or_false] at h
    rcases h with h | h | h | h
    · exact Or.inl ⟨_, by omega, h⟩
    · exact Or.inl ⟨_, by omega, h⟩
    · exact Or.inl ⟨_, by omega, h⟩
    · exact Or.inr h
  | case3 a =>
    have ha := UInt8.toNat_lt a
    simp only [encodeLoop, List.mem_cons, List.not_mem_nil, or_false] at h
    rcases h with h | h | h | h
    · exact Or.inl ⟨_, by omega, h⟩
    · exact Or.inl ⟨_, by omega, h⟩
    · exact Or.inr h
    · exact Or.inr h
  | case4 => simp [encodeLoop] at h

/-- An encoding needs no escapes and does not end a path. -/
theorem not_mem_encodeLoop (data : Bytes) {x : UInt8}
    (hx : x = ch '%' ∨ x = ch '?' ∨ x = ch '#' ∨ x = 0) : x ∉ encodeLoop data := by
  intro hmem
  rcases mem_encodeLoop hmem with ⟨n, hn, rfl⟩ | rfl
  · revert hx
    interval_cases n <;> decide
  · revert hx
    decide

/-! ## Reads past the table -/

/-- A character of the encoding: a letter of the alphabet or an `=`. -/
def Alphabetic (c : UInt8) : Prop := c = ch '=' ∨ unsextet c ≤ 63

/-- A byte that is not an ASCII character is not of the encoding. -/
theorem not_alphabetic {c : UInt8} (h : 128 ≤ c.toNat) : ¬ Alphabetic c := by
  have hne : ∀ d : UInt8, d.toNat < 128 → c ≠ d := by
    rintro d hd rfl
    omega
  have hle : ∀ d : UInt8, d.toNat < 128 → ¬ c ≤ d := by
    intro d hd hcd
    have := UInt8.le_iff_toNat_le.mp hcd
    omega
  rintro (rfl | hu)
  · exact hne _ (by decide) rfl
  · simp [unsextet, hne (ch '+') (by decide), hne (ch '/') (by decide), hle (ch 'Z') (by decide),
      hle (ch 'z') (by decide), hle (ch '9') (by decide)] at hu

theorem decodeChar_oob_iff {c : UInt8} : decodeChar c = .error .oob ↔ 128 ≤ c.toNat := by
  unfold decodeChar
  split_ifs with heq hhigh
  · subst heq
    simp only [false_iff]
    decide
  · simp [hhigh]
  · simp [hhigh]

/-- An ASCII character is looked up in the table. -/
theorem decodeChar_ascii {c : UInt8} (h : c.toNat < 128) :
    ∃ n, decodeChar c = .ok n ∧ (n ≤ 63 ↔ Alphabetic c) := by
  unfold decodeChar Alphabetic
  split_ifs with heq hhigh
  · exact ⟨0, rfl, by simp [heq]⟩
  · omega
  · exact ⟨_, rfl, by simp [heq]⟩

/-- The first group of four that has a character not of the encoding has a byte that is not ASCII. -/
def HighByteFirst (input : Bytes) : Prop :=
  ∃ p q r, input = p ++ q ++ r ∧ p.length % 4 = 0 ∧ q.length = 4 ∧ (∀ x ∈ p, Alphabetic x)
    ∧ ∃ x ∈ q, 128 ≤ x.toNat

theorem highByteFirst_cons (a b c d : UInt8) (rest : Bytes) :
    HighByteFirst (a :: b :: c :: d :: rest) ↔ (∃ x ∈ [a, b, c, d], 128 ≤ x.toNat)
      ∨ (∀ x ∈ [a, b, c, d], Alphabetic x) ∧ HighByteFirst rest := by
  constructor
  · rintro ⟨p, q, r, hsplit, hp, hq, hall, hhigh⟩
    match p, hp with
    | [], _ =>
      obtain ⟨w, x, y, z, rfl⟩ : ∃ w x y z, q = [w, x, y, z] := by
        match q, hq with
        | [w, x, y, z], _ => exact ⟨w, x, y, z, rfl⟩
      simp only [List.nil_append, List.cons_append, List.cons.injEq] at hsplit
      obtain ⟨rfl, rfl, rfl, rfl, -⟩ := hsplit
      exact Or.inl hhigh
    | w :: x :: y :: z :: p, hp =>
      simp only [List.cons_append, List.cons.injEq] at hsplit
      obtain ⟨rfl, rfl, rfl, rfl, hrest⟩ := hsplit
      refine Or.inr ⟨fun v hv => hall v ?_, p, q, r, hrest, ?_, hq, fun v hv => hall v ?_, hhigh⟩
      · simp only [List.mem_cons, List.not_mem_nil, or_false] at hv ⊢
        tauto
      · simp only [List.length_cons] at hp ⊢
        omega
      · simp [hv]
  · rintro (hhigh | ⟨hall, p, q, r, rfl, hp, hq, hpall, hhigh⟩)
    · exact ⟨[], [a, b, c, d], rest, rfl, rfl, rfl, by simp, hhigh⟩
    · refine ⟨a :: b :: c :: d :: p, q, r, rfl, ?_, hq, fun v hv => ?_, hhigh⟩
      · simp only [List.length_cons] at hp ⊢
        omega
      · have : v ∈ [a, b, c, d] ∨ v ∈ p := by simpa [or_assoc] using hv
        exact this.elim (hall v) (hpall v)

/-- One round of the loop. -/
theorem decodeLoop_cons_oob_iff (a b c d : UInt8) (rest : Bytes) :
    decodeLoop (a :: b :: c :: d :: rest) = .error .oob ↔ (∃ x ∈ [a, b, c, d], 128 ≤ x.toNat)
      ∨ (∀ x ∈ [a, b, c, d], Alphabetic x) ∧ decodeLoop rest = .error .oob := by
  have hascii : ∀ x : UInt8, ¬ 128 ≤ x.toNat → ∃ n, decodeChar x = .ok n ∧ (n ≤ 63 ↔ Alphabetic x) :=
    fun x hx => decodeChar_ascii (not_le.mp hx)
  rw [decodeLoop]
  by_cases ha : 128 ≤ a.toNat
  · simp [decodeChar_oob_iff.mpr ha, ha, bind, Except.bind]
  obtain ⟨na, hna, haa⟩ := hascii a ha
  by_cases hb : 128 ≤ b.toNat
  · simp [hna, decodeChar_oob_iff.mpr hb, hb, bind, Except.bind]
  obtain ⟨nb, hnb, hba⟩ := hascii b hb
  by_cases hc : 128 ≤ c.toNat
  · simp [hna, hnb, decodeChar_oob_iff.mpr hc, hc, bind, Except.bind]
  obtain ⟨nc, hnc, hca⟩ := hascii c hc
  by_cases hd : 128 ≤ d.toNat
  · simp [hna, hnb, hnc, decodeChar_oob_iff.mpr hd, hd, bind, Except.bind]
  obtain ⟨nd, hnd, hda⟩ := hascii d hd
  -- All four are ASCII: the table answers, and the rest decides unless the exception comes first.
  have hall : (63 < na ∨ 63 < nb ∨ 63 < nc ∨ 63 < nd) ↔ ¬ ∀ x ∈ [a, b, c, d], Alphabetic x := by
    simp only [List.forall_mem_cons, List.not_mem_nil, false_implies, implies_true, and_true, ← haa, ← hba, ← hca,
      ← hda]
    omega
  simp only [hna, hnb, hnc, hnd, bind, Except.bind, List.exists_mem_cons_iff, ha, hb, hc, hd, false_or,
    List.not_mem_nil, false_and, exists_false]
  split_ifs with hbad
  · exact iff_of_false (by simp [throwE]) fun h => hall.mp hbad h.1
  · rw [hall, not_not] at hbad
    rw [and_iff_right hbad]
    cases decodeLoop rest with
    | ok out => simp
    | error f => simp

theorem decodeLoop_oob_iff {input : Bytes} (hlen : input.length % 4 = 0) :
    decodeLoop input = .error .oob ↔ HighByteFirst input := by
  induction input using decodeLoop.induct with
  | case1 a b c d rest ih =>
    rw [decodeLoop_cons_oob_iff, highByteFirst_cons, ih]
    simp only [List.length_cons] at hlen
    omega
  | case2 input hshort =>
    obtain rfl : input = [] := by
      match input, hlen, hshort with
      | [], _, _ => rfl
      | a :: b :: c :: d :: rest, _, hshort => exact absurd rfl (hshort a b c d rest)
    simp only [decodeLoop, reduceCtorEq, false_iff]
    rintro ⟨p, q, r, hsplit, -, hq, -, -⟩
    simp only [List.nil_eq, List.append_eq_nil_iff] at hsplit
    simp [hsplit] at hq

/-- `Decode` stays inside its input and its table, but for the empty input and for bytes that are not ASCII
before it has seen another character outside the alphabet. -/
theorem base64Decode_oob_iff (input : Bytes) :
    base64Decode input = .error .oob ↔ input.length % 4 = 0 ∧ (input = [] ∨ HighByteFirst input) := by
  unfold base64Decode
  by_cases hmod : input.length % 4 = 0
  · by_cases hnil : input = []
    · simp [hnil]
    rw [if_neg (not_not.mpr hmod), if_neg hnil, ← decodeLoop_oob_iff hmod]
    simp only [hmod, hnil, bind, Except.bind, false_or, true_and]
    cases decodeLoop input with
    | ok out => simp
    | error f => simp
  · simp [hmod, throwE]

end Fs123
