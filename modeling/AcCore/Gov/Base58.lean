import AcCore.Lib.Positional
import AcCore.Lib.Words

/-!
# Base 58

The text form of keys, hashes, signatures and transactions. Leading zero bytes
are written as the digit `1`, the rest as a number in base 58.
-/

namespace AcCore.Gov.Base58

open Lib

/-- `pszBase58`. -/
def alphabet : List Char :=
  ['1', '2', '3', '4', '5', '6', '7', '8', '9', 'A', 'B', 'C', 'D', 'E', 'F', 'G', 'H', 'J', 'K',
    'L', 'M', 'N', 'P', 'Q', 'R', 'S', 'T', 'U', 'V', 'W', 'X', 'Y', 'Z', 'a', 'b', 'c', 'd', 'e',
    'f', 'g', 'h', 'i', 'j', 'k', 'm', 'n', 'o', 'p', 'q', 'r', 's', 't', 'u', 'v', 'w', 'x', 'y',
    'z']

/-- The digit as a character. -/
def digitChar (d : ℕ) : Char := alphabet.getD d '1'

/-- `strchr` in the alphabet. -/
def charDigit (c : Char) : Option ℕ := alphabet.findIdx? (· == c)

/-- `b58::encode`. The `assert` that no carry is left is the `none` of
`readInto`; it never fails. -/
def encode (bytes : List UInt8) : Text :=
  let zeroes := (bytes.takeWhile (· == 0)).length
  let rest := bytes.dropWhile (· == 0)
  let b58 := readInto 58 256 (List.replicate (rest.length * 138 / 100 + 1) 0)
    (rest.map UInt8.toNat)
  List.replicate zeroes '1' ++ (dropZeros (b58.getD [])).map digitChar

/-- `b58::decode` into a vector of bytes, for a text that a C string can hold;
`none` when it returns false. -/
def decode (s : Text) : Option (List UInt8) :=
  let psz := (s.takeWhile (· != '\x00')).dropWhile isSpace
  let zeroes := (psz.takeWhile (· == '1')).length
  let psz := psz.dropWhile (· == '1')
  let body := psz.takeWhile fun c => !isSpace c
  let trail := psz.dropWhile fun c => !isSpace c
  match body.mapM charDigit with
  | none => none
  | some digits =>
    match readInto 256 58 (List.replicate (psz.length * 733 / 1000 + 1) 0) digits with
    | none => none
    | some b256 =>
      if trail.dropWhile isSpace = [] then
        some (List.replicate zeroes 0 ++ (dropZeros b256).map UInt8.ofNat)
      else none

/-- `b58::encode` of a string. -/
def encodeString (s : Text) : Text := encode (s.map fun c => UInt8.ofNat c.toNat)

/-- `b58::decode` into a string, which ends at the first NUL; empty when the
text cannot be decoded. -/
def decodeString (s : Text) : Text :=
  match decode s with
  | none => []
  | some v => (v.map fun b => Char.ofNat b.toNat).takeWhile (· != '\x00')

/-! ## The alphabet -/

/-- The character of a digit reads as that digit. -/
theorem charDigit_digitChar {d : ℕ} (h : d < 58) : charDigit (digitChar d) = some d := by
  have hall : ∀ d : Fin 58, charDigit (digitChar d) = some d.val := by decide
  exact hall ⟨d, h⟩

/-- The characters of digits are of the alphabet. -/
theorem digitChar_mem (d : ℕ) : digitChar d ∈ alphabet := by
  rw [digitChar, List.getD_eq_getElem?_getD]
  cases h : alphabet[d]? with
  | none => decide
  | some c => exact List.mem_of_getElem? h

/-- The alphabet has no blanks, and its characters fit in a byte. -/
theorem alphabet_all :
    (alphabet.all fun c => !isSpace c && (0 < c.toNat && c.toNat < 256 : Bool)) = true := by
  decide

/-- The characters of the alphabet fit in a byte and are not null. -/
theorem plain_alphabet : ∀ c ∈ alphabet, c.toNat < 256 ∧ c ≠ '\x00' := by
  intro c hc
  have := List.all_eq_true.mp alphabet_all c hc
  simp only [Bool.and_eq_true, decide_eq_true_eq] at this
  refine ⟨this.2.2, ?_⟩
  rintro rfl
  exact absurd this.2.1 (Nat.lt_irrefl 0)

/-- The characters of the alphabet are not blanks. -/
theorem blankFree_alphabet : ∀ c ∈ alphabet, isSpace c = false ∧ c ≠ '\x00' := by
  intro c hc
  have := List.all_eq_true.mp alphabet_all c hc
  simp only [Bool.and_eq_true, Bool.not_eq_true'] at this
  exact ⟨this.1, (plain_alphabet c hc).2⟩

/-- Only the digit zero is written as `1`. -/
theorem digitChar_ne_one {d : ℕ} (h : d < 58) (hd : d ≠ 0) : digitChar d ≠ '1' := by
  intro heq
  have h1 := charDigit_digitChar h
  rw [heq] at h1
  have h0 : charDigit '1' = some 0 := by decide
  exact hd (Option.some.inj (h1.symm.trans h0))

/-- Written digits are read back. -/
theorem mapM_charDigit {ds : List ℕ} (h : ∀ d ∈ ds, d < 58) :
    (ds.map digitChar).mapM charDigit = some ds := by
  induction ds with
  | nil => rfl
  | cons d ds ih =>
    simp [charDigit_digitChar (h d (by simp)), ih fun e he => h e (by simp [he])]

/-! ## Round trip -/

/-- The digits of an encoded text: no leading zero, and the number of the bytes. -/
theorem exists_digits (rest : List UInt8) :
    ∃ ds, readInto 58 256 (List.replicate (rest.length * 138 / 100 + 1) 0)
        (rest.map UInt8.toNat) = some ds ∧
      (∀ d ∈ ds, d < 58) ∧ digitsValue 58 ds = digitsValue 256 (rest.map UInt8.toNat) := by
  have hbytes : ∀ d ∈ rest.map UInt8.toNat, d < 256 := by
    intro d hd
    obtain ⟨b, -, rfl⟩ := List.mem_map.mp hd
    exact b.toNat_lt
  have hlt := digitsValue_lt (by norm_num) hbytes
  have hwide : 256 ^ rest.length ≤ 58 ^ (rest.length * 138 / 100 + 1) :=
    pow_le_pow_of_rate (by norm_num) (by norm_num) (by norm_num) _
  rw [List.length_map] at hlt
  obtain ⟨ds, hds, -, hlt58, hvalue⟩ := readInto_eq_some (b := 58) (m := 256) (by norm_num)
    (by norm_num) (List.replicate (rest.length * 138 / 100 + 1) 0) (rest.map UInt8.toNat)
    (by simp) (by simpa using lt_of_lt_of_le hlt hwide)
  exact ⟨ds, hds, hlt58, by simpa using hvalue⟩

/-- A text has at most 1.38 characters for each byte, and one more. -/
theorem length_encode_le (bytes : List UInt8) :
    (encode bytes).length ≤ bytes.length * 138 / 100 + 1 := by
  obtain ⟨ds, hds, -⟩ := exists_digits (bytes.dropWhile (· == 0))
  have hwidth := length_readInto hds
  have hdrop : (dropZeros ds).length ≤ ds.length := (List.dropWhile_sublist _).length_le
  have hbytes : (bytes.takeWhile (· == 0)).length + (bytes.dropWhile (· == 0)).length =
      bytes.length := by
    rw [← List.length_append, List.takeWhile_append_dropWhile]
  rw [List.length_replicate] at hwidth
  rw [encode, hds, Option.getD_some, List.length_append, List.length_replicate, List.length_map]
  omega

/-- A text has a character for each byte, at least. -/
theorem length_le_length_encode (bytes : List UInt8) :
    bytes.length ≤ (encode bytes).length := by
  obtain ⟨ds, hds, hlt, hvalue⟩ := exists_digits (bytes.dropWhile (· == 0))
  have hsmall := digitsValue_lt (by norm_num) fun d hd => hlt d (mem_of_mem_dropZeros hd)
  rw [digitsValue_dropZeros, hvalue] at hsmall
  have hrest : (bytes.dropWhile (· == 0)).length ≤ (dropZeros ds).length := by
    cases hdrop : bytes.dropWhile (· == 0) with
    | nil => exact Nat.zero_le _
    | cons b rest =>
      have hb : 1 ≤ b.toNat := by
        have hne : (b == 0) = false := by
          simpa [hdrop] using List.head?_dropWhile_not (· == 0) bytes
        have : b ≠ 0 := by simpa using hne
        exact Nat.pos_of_ne_zero fun h => this (UInt8.toNat_inj.mp h)
      rw [hdrop, List.map_cons, digitsValue_cons, List.length_map] at hsmall
      by_contra hfew
      rw [List.length_cons, Nat.not_le, Nat.lt_succ_iff] at hfew
      have hpow : 58 ^ (dropZeros ds).length ≤ 256 ^ rest.length := calc
        58 ^ (dropZeros ds).length ≤ 58 ^ rest.length := Nat.pow_le_pow_right (by norm_num) hfew
        _ ≤ 256 ^ rest.length := Nat.pow_le_pow_left (by norm_num) _
      have hlarge : 256 ^ rest.length ≤ b.toNat * 256 ^ rest.length := Nat.le_mul_of_pos_left _ hb
      omega
  have hbytes : (bytes.takeWhile (· == 0)).length + (bytes.dropWhile (· == 0)).length =
      bytes.length := by
    rw [← List.length_append, List.takeWhile_append_dropWhile]
  rw [encode, hds, Option.getD_some, List.length_append, List.length_replicate, List.length_map]
  omega
/-- The bytes are the zeros that are counted and the rest. -/
theorem zeroes_append_rest (bytes : List UInt8) :
    List.replicate (bytes.takeWhile (· == 0)).length 0 ++ bytes.dropWhile (· == 0) = bytes := by
  have hzeros : bytes.takeWhile (· == 0) =
      List.replicate (bytes.takeWhile (· == 0)).length 0 := by
    rw [List.eq_replicate_iff]
    exact ⟨rfl, fun b hb => by simpa using List.mem_takeWhile_imp hb⟩
  rw [← hzeros, List.takeWhile_append_dropWhile]

/-- Digits that are read stop where the number starts: after the ones. -/
theorem takeWhile_ones {ds : List ℕ} (hlt : ∀ d ∈ ds, d < 58) (hz : NoLeadingZero ds) (n : ℕ) :
    (List.replicate n '1' ++ ds.map digitChar).takeWhile (· == '1') = List.replicate n '1' ∧
      (List.replicate n '1' ++ ds.map digitChar).dropWhile (· == '1') = ds.map digitChar := by
  induction n with
  | zero =>
    cases ds with
    | nil => simp
    | cons d ds =>
      have hd := digitChar_ne_one (hlt d (by simp)) (hz d (by simp))
      simp [hd]
  | succ n ih => simpa [List.replicate_succ] using ih

/-- A text of the alphabet has no white space and no end of a C string in it. -/
theorem plain_text {s : Text} (h : ∀ c ∈ s, c ∈ alphabet) :
    s.takeWhile (· != '\x00') = s ∧ s.dropWhile isSpace = s ∧
      (s.takeWhile fun c => !isSpace c) = s ∧ (s.dropWhile fun c => !isSpace c) = [] := by
  have hfree : ∀ c ∈ s, isSpace c = false := fun c hc => (blankFree_alphabet c (h c hc)).1
  refine ⟨?_, ?_, ?_, ?_⟩
  · rw [List.takeWhile_eq_self_iff]
    exact fun c hc => by simpa using (blankFree_alphabet c (h c hc)).2
  · cases s with
    | nil => rfl
    | cons c s => simp [hfree c (by simp)]
  · rw [List.takeWhile_eq_self_iff]
    exact fun c hc => by simp [hfree c hc]
  · rw [List.dropWhile_eq_nil_iff]
    exact fun c hc => by simp [hfree c hc]

/-- Encoded bytes are written in the alphabet. -/
theorem encode_mem_alphabet (bytes : List UInt8) : ∀ c ∈ encode bytes, c ∈ alphabet := by
  intro c hc
  rcases List.mem_append.mp hc with hc | hc
  · rw [List.eq_of_mem_replicate hc]
    decide
  · obtain ⟨d, -, rfl⟩ := List.mem_map.mp hc
    exact digitChar_mem d

/-- Encoded bytes have no blanks. -/
theorem blankFree_encode (bytes : List UInt8) : BlankFree (encode bytes) :=
  fun c hc => (blankFree_alphabet c (encode_mem_alphabet bytes c hc)).1

/-- The rest of the bytes is what the digits are read back as. -/
theorem readInto_digits {rest : List UInt8} {ds : List ℕ} (hlt : ∀ d ∈ ds, d < 58)
    (hz : ∀ b ∈ rest.head?, b ≠ 0)
    (hvalue : digitsValue 58 ds = digitsValue 256 (rest.map UInt8.toNat)) :
    ∃ b256, readInto 256 58 (List.replicate (ds.length * 733 / 1000 + 1) 0) ds = some b256 ∧
      (dropZeros b256).map UInt8.ofNat = rest := by
  have hwide : 58 ^ ds.length ≤ 256 ^ (ds.length * 733 / 1000 + 1) :=
    pow_le_pow_of_rate (by norm_num) (by norm_num) (by decide +kernel) _
  have hsmall := lt_of_lt_of_le (digitsValue_lt (by norm_num) hlt) hwide
  obtain ⟨b256, hread, -, hlt256, hvalue256⟩ := readInto_eq_some (b := 256) (m := 58)
    (by norm_num) (by norm_num) (List.replicate (ds.length * 733 / 1000 + 1) 0) ds
    (by simp) (by simpa using hsmall)
  refine ⟨b256, hread, ?_⟩
  have hrest : dropZeros b256 = rest.map UInt8.toNat := by
    apply eq_of_digitsValue_eq (b := 256) (by norm_num)
    · exact fun d hd => hlt256 d (mem_of_mem_dropZeros hd)
    · intro d hd
      obtain ⟨b, -, rfl⟩ := List.mem_map.mp hd
      exact b.toNat_lt
    · exact noLeadingZero_dropZeros b256
    · intro d hd
      cases rest with
      | nil => simp at hd
      | cons b rest =>
        obtain rfl : b.toNat = d := by simpa using hd
        intro hzero
        exact hz b (by simp) (UInt8.toNat_inj.mp hzero)
    · rw [digitsValue_dropZeros, ← hvalue]
      simpa using hvalue256
  rw [hrest, List.map_map]
  simp [Function.comp_def]

/-- What is encoded is decoded. -/
theorem decode_encode (bytes : List UInt8) : decode (encode bytes) = some bytes := by
  obtain ⟨ds, hread, hlt, hvalue⟩ := exists_digits (bytes.dropWhile (· == 0))
  have hlt' : ∀ d ∈ dropZeros ds, d < 58 := fun d hd => hlt d (mem_of_mem_dropZeros hd)
  have hencode : encode bytes =
      List.replicate (bytes.takeWhile (· == 0)).length '1' ++ (dropZeros ds).map digitChar := by
    rw [encode, hread, Option.getD_some]
  obtain ⟨hnul, hlead, -, -⟩ := plain_text (encode_mem_alphabet bytes)
  obtain ⟨htake, hdrop⟩ := takeWhile_ones hlt' (noLeadingZero_dropZeros ds)
    (bytes.takeWhile (· == 0)).length
  have hbody : ∀ c ∈ (dropZeros ds).map digitChar, c ∈ alphabet := by
    intro c hc
    obtain ⟨d, -, rfl⟩ := List.mem_map.mp hc
    exact digitChar_mem d
  obtain ⟨-, -, htakeBody, hdropBody⟩ := plain_text hbody
  have hhead : ∀ b ∈ (bytes.dropWhile (· == 0)).head?, b ≠ 0 := by
    intro b hb
    have := List.head?_dropWhile_not (· == 0) bytes
    rw [Option.mem_def.mp hb] at this
    simpa using this
  obtain ⟨b256, hread256, hrest⟩ := readInto_digits hlt' hhead
    ((digitsValue_dropZeros 58 ds).trans hvalue)
  unfold decode
  simp only [hnul, hlead]
  simp only [hencode, htake, hdrop, htakeBody, hdropBody, mapM_charDigit hlt', List.length_map,
    hread256, hrest, List.length_replicate, List.dropWhile_nil, if_true, zeroes_append_rest]

/-- A string of one-byte characters without NUL is decoded from its own encoding. -/
theorem decodeString_encodeString {s : Text} (h : ∀ c ∈ s, c.toNat < 256 ∧ c ≠ '\x00') :
    decodeString (encodeString s) = s := by
  have hbytes : (s.map fun c => UInt8.ofNat c.toNat).map (fun b => Char.ofNat b.toNat) = s := by
    rw [List.map_map]
    conv_rhs => rw [← List.map_id s]
    apply List.map_congr_left
    intro c hc
    simp only [Function.comp_apply, UInt8.toNat_ofNat', id_eq]
    rw [Nat.mod_eq_of_lt (h c hc).1, Char.ofNat_toNat]
  rw [decodeString, encodeString, decode_encode]
  simp only [hbytes]
  rw [List.takeWhile_eq_self_iff]
  exact fun c hc => by simpa using (h c hc).2

end AcCore.Gov.Base58
