import Mathlib.Algebra.Ring.Int.Defs
import Mathlib.Algebra.Ring.Nat
import Mathlib.Data.List.TakeWhile
import Mathlib.Data.Rat.Defs

/-!
# Texts made of words

A text is a list of characters. Words are read from it the way an input
stream extracts strings, skipping white space first, and written to it with a
blank after each of them. Writing words and reading them back are inverse.
-/

namespace AcCore.Lib

/-- A text, character by character. -/
abbrev Text := List Char

/-- The white space that extraction from a stream skips. -/
def isSpace (c : Char) : Bool :=
  c == ' ' || c == '\t' || c == '\n' || c == '\r' || c == '\x0b' || c == '\x0c'

/-- A text without white space. -/
def BlankFree (w : Text) : Prop := ∀ c ∈ w, isSpace c = false

/-- A word: not empty and free of white space. -/
def IsWord (w : Text) : Prop := w ≠ [] ∧ BlankFree w

/-- Blanks are looked for one character after the other. -/
instance (w : Text) : Decidable (BlankFree w) :=
  decidable_of_iff (w.all fun c => !isSpace c) (by simp [BlankFree])

/-- A text is a word when it is not empty and has no blanks. -/
instance (w : Text) : Decidable (IsWord w) := inferInstanceAs (Decidable (w ≠ [] ∧ BlankFree w))

/-- The empty text has no blanks. -/
theorem blankFree_nil : BlankFree [] := by decide

/-- A letter has no blanks. -/
theorem blankFree_letter : BlankFree ['a'] := by decide

/-- Extracts the next word; `none` when only white space is left. -/
def readWord (s : Text) : Option (Text × Text) :=
  match s.dropWhile isSpace with
  | [] => none
  | c :: s =>
    some ((c :: s).takeWhile (fun c => !isSpace c), (c :: s).dropWhile fun c => !isSpace c)

/-- Extracts a string: the stream that is left is `none` once an extraction has
failed, and then every further string stays empty. -/
def extract : Option Text → Text × Option Text
  | none => ([], none)
  | some s =>
    match readWord s with
    | none => ([], none)
    | some (w, s) => (w, some s)

/-- Writes words, each followed by a blank. -/
def unwords (ws : List Text) : Text := ws.flatMap fun w => w ++ [' ']

/-- No words join to the empty text. -/
@[simp] theorem unwords_nil : unwords [] = [] := rfl

/-- Every word is followed by a blank. -/
@[simp] theorem unwords_cons (w : Text) (ws : List Text) :
    unwords (w :: ws) = w ++ ' ' :: unwords ws := by
  simp [unwords]

/-- Two lists of words join one after the other. -/
@[simp] theorem unwords_append (ws vs : List Text) :
    unwords (ws ++ vs) = unwords ws ++ unwords vs := by
  simp [unwords]

/-- Every word takes its characters and a blank. -/
theorem length_unwords (ws : List Text) :
    (unwords ws).length = (ws.map fun w => w.length + 1).sum := by
  rw [unwords, List.length_flatMap]
  simp only [List.length_append, List.length_singleton]

/-- A word has no leading blanks. -/
theorem dropWhile_word {w : Text} (hw : IsWord w) (s : Text) :
    (w ++ s).dropWhile isSpace = w ++ s := by
  obtain ⟨c, w, rfl⟩ := List.exists_cons_of_ne_nil hw.1
  have hc : isSpace c = false := hw.2 c (by simp)
  simp [hc]

/-- The first blank ends a word. -/
theorem takeWhile_word {w : Text} (hw : BlankFree w) (s : Text) :
    (w ++ ' ' :: s).takeWhile (fun c => !isSpace c) = w ∧
      (w ++ ' ' :: s).dropWhile (fun c => !isSpace c) = ' ' :: s := by
  have htake : w.takeWhile (fun c => !isSpace c) = w := by
    rw [List.takeWhile_eq_self_iff]
    exact fun c hc => by simp [hw c hc]
  have hdrop : w.dropWhile (fun c => !isSpace c) = [] := by
    rw [List.dropWhile_eq_nil_iff]
    exact fun c hc => by simp [hw c hc]
  have hblank : isSpace ' ' = true := rfl
  rw [List.takeWhile_append, List.dropWhile_append]
  simp [htake, hdrop, hblank]

/-- The next word of a text that starts with one. -/
theorem readWord_append {w : Text} (hw : IsWord w) (s : Text) :
    readWord (w ++ ' ' :: s) = some (w, ' ' :: s) := by
  have hdrop := dropWhile_word hw (' ' :: s)
  obtain ⟨htake, hrest⟩ := takeWhile_word hw.2 s
  obtain ⟨c, v, rfl⟩ := List.exists_cons_of_ne_nil hw.1
  simp only [List.cons_append] at htake hrest hdrop ⊢
  simp only [readWord, hdrop, htake, hrest]

/-- A blank before a word is skipped. -/
theorem readWord_blank (s : Text) : readWord (' ' :: s) = readWord s := rfl

/-- The last word of a text. -/
theorem readWord_last {w : Text} (hw : IsWord w) : readWord w = some (w, []) := by
  have hdrop := dropWhile_word hw []
  have htake : w.takeWhile (fun c => !isSpace c) = w := by
    rw [List.takeWhile_eq_self_iff]
    exact fun c hc => by simp [hw.2 c hc]
  have hrest : w.dropWhile (fun c => !isSpace c) = [] := by
    rw [List.dropWhile_eq_nil_iff]
    exact fun c hc => by simp [hw.2 c hc]
  rw [List.append_nil] at hdrop
  obtain ⟨c, v, rfl⟩ := List.exists_cons_of_ne_nil hw.1
  simp only [readWord, hdrop, htake, hrest]

/-- What is extracted is a word. -/
theorem isWord_of_readWord {s w rest : Text} (h : readWord s = some (w, rest)) : IsWord w := by
  unfold readWord at h
  split at h
  · cases h
  · rename_i c t hdrop
    obtain ⟨rfl, rfl⟩ := Prod.mk.injEq _ _ _ _ |>.mp (Option.some.inj h)
    have hc : isSpace c = false := by
      have := List.head?_dropWhile_not isSpace s
      rw [hdrop] at this
      simpa using this
    constructor
    · simp [hc]
    · intro d hd
      simpa using List.mem_takeWhile_imp hd

/-- Two texts that start with the same blank-free prefix up to a blank. -/
theorem word_append_inj {w v s t : Text} (hw : BlankFree w) (hv : BlankFree v)
    (h : w ++ ' ' :: s = v ++ ' ' :: t) : w = v ∧ s = t := by
  obtain ⟨hwtake, hwdrop⟩ := takeWhile_word hw s
  obtain ⟨hvtake, hvdrop⟩ := takeWhile_word hv t
  rw [h] at hwtake hwdrop
  refine ⟨hwtake.symm.trans hvtake, ?_⟩
  simpa using hwdrop.symm.trans hvdrop

/-- A written text is read back as the words it was written from. -/
theorem unwords_injective {ws vs : List Text} (hw : ∀ w ∈ ws, BlankFree w)
    (hv : ∀ v ∈ vs, BlankFree v) (h : unwords ws = unwords vs) : ws = vs := by
  induction ws generalizing vs with
  | nil =>
    cases vs with
    | nil => rfl
    | cons v vs => simp at h
  | cons w ws ih =>
    cases vs with
    | nil => simp at h
    | cons v vs =>
      rw [unwords_cons, unwords_cons] at h
      obtain ⟨rfl, hrest⟩ := word_append_inj (hw w (by simp)) (hv v (by simp)) h
      rw [ih (fun u hu => hw u (by simp [hu])) (fun u hu => hv u (by simp [hu])) hrest]

/-! ## Decimal numerals -/

/-- A natural number as an output stream prints it. -/
def natText (n : ℕ) : Text := Nat.toDigits 10 n

/-- An integer as an output stream prints it. -/
def intText : ℤ → Text
  | Int.ofNat n => natText n
  | Int.negSucc n => '-' :: natText (n + 1)

/-- The sign and the digits of a decimal numeral after white space; `none` when
there is no digit. -/
def readInteger (s : Text) : Option ((Bool × ℕ) × Text) :=
  let s := s.dropWhile isSpace
  let negative := s.head? = some '-'
  let s := if negative ∨ s.head? = some '+' then s.tail else s
  let digits := s.takeWhile Char.isDigit
  if digits = [] then none
  else some ((negative, Nat.ofDigitChars 10 digits 0), s.dropWhile Char.isDigit)

/-- Extracts a signed 64-bit number: what is no number gives 0, what is too
great or too small the nearest number, and both make the stream fail. -/
def extractInt64 : Option Text → Int64 × Option Text
  | none => (0, none)
  | some s =>
    match readInteger s with
    | none => (0, none)
    | some ((negative, n), s) =>
      let v : ℤ := if negative then -n else n
      if v < -2 ^ 63 then (Int64.minValue, none)
      else if 2 ^ 63 ≤ v then (Int64.maxValue, none)
      else (Int64.ofInt v, some s)

/-- Extracts an unsigned 64-bit number. A numeral with a minus sign is taken
modulo the size of the word. -/
def extractUInt64 : Option Text → UInt64 × Option Text
  | none => (0, none)
  | some s =>
    match readInteger s with
    | none => (0, none)
    | some ((negative, n), s) =>
      if 2 ^ 64 ≤ n then (18446744073709551615, none)
      else (if negative then 0 - UInt64.ofNat n else UInt64.ofNat n, some s)

/-- The sign in front of a numeral, whether it is a minus. -/
def splitSign (s : Text) : Bool × Text :=
  match s with
  | '-' :: s => (true, s)
  | '+' :: s => (false, s)
  | s => (false, s)

/-- The power of ten that follows a decimal fraction; `none` when it is begun
and has no digits. -/
def exponent (s : Text) : Option ℚ :=
  match s with
  | [] => some 1
  | c :: s =>
    if c = 'e' ∨ c = 'E' then
      let (negative, s) := splitSign s
      let digits := s.takeWhile Char.isDigit
      let power : ℚ := 10 ^ Nat.ofDigitChars 10 digits 0
      if digits = [] then none else some (if negative then power⁻¹ else power)
    else some 1

/-- Extracts a `double` into a variable with the value `d`: at the end of the
text it keeps its value, and what is no number gives 0. The number that is read
is not rounded. -/
def extractDouble (s : Text) (d : ℚ) : ℚ :=
  match s.dropWhile isSpace with
  | [] => d
  | c :: s =>
    let (negative, s) := splitSign (c :: s)
    let whole := s.takeWhile Char.isDigit
    let s := s.dropWhile Char.isDigit
    let point := s.head? = some '.'
    let fraction := if point then s.tail.takeWhile Char.isDigit else []
    let s := if point then s.tail.dropWhile Char.isDigit else s
    if whole ++ fraction = [] then 0
    else
      let digits : ℚ := Nat.ofDigitChars 10 (whole ++ fraction) 0
      let value := digits / 10 ^ fraction.length * (exponent s).getD 0
      if negative then -value else value

/-- `good()` after an extraction: it has not failed, and it has not met the end
of the text. -/
def isGood : Option Text → Bool
  | some (_ :: _) => true
  | _ => false

/-- Digits are not blanks. -/
theorem isSpace_of_isDigit {c : Char} (h : c.isDigit = true) : isSpace c = false := by
  by_contra hspace
  rw [Bool.not_eq_false] at hspace
  simp only [isSpace, Bool.or_eq_true, beq_iff_eq] at hspace
  rcases hspace with ((((rfl | rfl) | rfl) | rfl) | rfl) | rfl <;> simp at h

/-- A printed natural number has no blanks. -/
theorem blankFree_natText (n : ℕ) : BlankFree (natText n) := fun _ hc =>
  isSpace_of_isDigit (Nat.isDigit_of_mem_toDigits (by decide) (by decide) hc)

/-- A printed integer has no blanks. -/
theorem blankFree_intText (i : ℤ) : BlankFree (intText i) := by
  cases i with
  | ofNat n => exact blankFree_natText n
  | negSucc n =>
    intro c hc
    rcases List.mem_cons.mp hc with rfl | hc
    · rfl
    · exact blankFree_natText _ c hc

end AcCore.Lib
