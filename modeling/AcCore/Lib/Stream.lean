import AcCore.Lib.Decimal

/-!
# Reading back what was written

A stream that was written word by word gives the words again, and a reader for
each kind of value makes of its words the value they were written from. Readers
that are run one after the other do this for the words of all of them.
-/

namespace AcCore.Lib

/-- A stream that gives these words next, and nothing after them. -/
def Gives (ws : List Text) (s : Option Text) : Prop :=
  ∃ blanks, (∀ c ∈ blanks, isSpace c = true) ∧ s = some (blanks ++ unwords ws)

/-- A reader that makes `v` of these words, whatever comes after them. -/
def Reads {α : Type} (read : Option Text → α × Option Text) (words : List Text) (v : α) : Prop :=
  ∀ ws s, Gives (words ++ ws) s → ∃ s', read s = (v, s') ∧ Gives ws s'

/-- The words joined by blanks give the words. -/
theorem gives_unwords (ws : List Text) : Gives ws (some (unwords ws)) :=
  ⟨[], by simp, rfl⟩

/-- So they do with a blank before them. -/
theorem gives_blank (ws : List Text) : Gives ws (some (' ' :: unwords ws)) :=
  ⟨[' '], by simp [isSpace], rfl⟩

/-- One word is read as it is. -/
theorem reads_extract {w : Text} (hw : IsWord w) : Reads extract [w] w := by
  rintro ws s ⟨blanks, hblanks, rfl⟩
  have hskip : (blanks ++ (w ++ ' ' :: unwords ws)).dropWhile isSpace = w ++ ' ' :: unwords ws := by
    rw [List.dropWhile_append_of_pos hblanks, dropWhile_word hw]
  have hword : readWord (blanks ++ (w ++ ' ' :: unwords ws)) = some (w, ' ' :: unwords ws) := by
    rw [← readWord_append hw (unwords ws), readWord, hskip, readWord, dropWhile_word hw]
  refine ⟨_, ?_, gives_blank ws⟩
  simp only [extract, List.singleton_append, unwords_cons, hword]

/-- The last word of a text, with nothing after it. -/
theorem extract_last {w : Text} (hw : IsWord w) {blanks : Text}
    (hblanks : ∀ c ∈ blanks, isSpace c = true) : extract (some (blanks ++ w)) = (w, some []) := by
  have hskip : (blanks ++ w).dropWhile isSpace = w := by
    have hword := dropWhile_word hw []
    rw [List.append_nil] at hword
    rw [List.dropWhile_append_of_pos hblanks, hword]
  have htake : w.takeWhile (fun c => !isSpace c) = w := by
    rw [List.takeWhile_eq_self_iff]
    exact fun c hc => by simp [hw.2 c hc]
  have hdrop : w.dropWhile (fun c => !isSpace c) = [] := by
    rw [List.dropWhile_eq_nil_iff]
    exact fun c hc => by simp [hw.2 c hc]
  obtain ⟨c, v, rfl⟩ := List.exists_cons_of_ne_nil hw.1
  simp only [extract, readWord, hskip, htake, hdrop]

/-- The steps of reading a numeral. -/
theorem readInteger_eq {s t u rest digits : Text} (hskip : s.dropWhile isSpace = t)
    (hsign : (if t.head? = some '-' ∨ t.head? = some '+' then t.tail else t) = u)
    (htake : u.takeWhile Char.isDigit = digits) (hdrop : u.dropWhile Char.isDigit = rest)
    (hne : digits ≠ []) :
    readInteger s =
      some ((decide (t.head? = some '-'), Nat.ofDigitChars 10 digits 0), rest) := by
  simp only [readInteger, hskip, hsign, htake, hdrop, if_neg hne]

/-- A printed integer is one word. -/
theorem isWord_intText (v : ℤ) : IsWord (intText v) :=
  ⟨by cases v <;> simp [intText, natText], blankFree_intText v⟩

/-- Leading blanks are skipped. -/
theorem dropWhile_blanks {blanks w : Text} (hblanks : ∀ c ∈ blanks, isSpace c = true)
    (hw : IsWord w) (s : Text) :
    (blanks ++ (w ++ ' ' :: s)).dropWhile isSpace = w ++ ' ' :: s := by
  rw [List.dropWhile_append_of_pos hblanks, dropWhile_word hw]

/-- A numeral is read as the number that was written, up to where its digits end. -/
theorem readInteger_append (v : ℤ) {blanks s : Text} (hblanks : ∀ c ∈ blanks, isSpace c = true)
    (hs : ∀ c ∈ s.head?, c.isDigit = false) :
    readInteger (blanks ++ (intText v ++ s)) = some ((decide (v < 0), v.natAbs), s) := by
  have hne : ∀ n, natText n ≠ [] := by simp [natText]
  have hskip : (blanks ++ (intText v ++ s)).dropWhile isSpace = intText v ++ s := by
    rw [List.dropWhile_append_of_pos hblanks, dropWhile_word (isWord_intText v)]
  have hdigits : ∀ n, (natText n ++ s).takeWhile Char.isDigit = natText n ∧
      (natText n ++ s).dropWhile Char.isDigit = s := fun n =>
    takeWhile_digits (isDigits_natText n) hs
  have hvalue : ∀ n, Nat.ofDigitChars 10 (natText n) 0 = n := fun n => Nat.ofDigitChars_ten_toDigits
  cases v with
  | ofNat n =>
    have hsign : ∀ c, c.isDigit = false → (natText n ++ s).head? ≠ some c := by
      intro c hc hhead
      obtain ⟨d, t, ht⟩ := List.exists_cons_of_ne_nil (hne n)
      rw [ht, List.cons_append, List.head?_cons, Option.some.injEq] at hhead
      have hd : d.isDigit = true := isDigits_natText n d (by simp [ht])
      rw [hhead, hc] at hd
      cases hd
    have hminus := hsign '-' rfl
    rw [readInteger_eq hskip (if_neg (by simp only [intText, hminus, hsign '+' rfl, or_false,
      not_false_eq_true])) (hdigits n).1 (hdigits n).2 (hne n), hvalue]
    simp only [intText, hminus, decide_false, Int.ofNat_eq_natCast, Int.natAbs_natCast,
      Int.natCast_nonneg, not_lt_of_ge]
  | negSucc n =>
    rw [readInteger_eq hskip (if_pos (Or.inl rfl)) (hdigits (n + 1)).1 (hdigits (n + 1)).2
      (hne (n + 1)), hvalue]
    simp [intText, Int.negSucc_lt_zero]

/-- A numeral that is a word of a text. -/
theorem readInteger_intText (v : ℤ) {blanks : Text} (hblanks : ∀ c ∈ blanks, isSpace c = true)
    (s : Text) :
    readInteger (blanks ++ (intText v ++ ' ' :: s)) =
      some ((decide (v < 0), v.natAbs), ' ' :: s) :=
  readInteger_append v hblanks (by simp)

/-- Natural numbers print as the integers that they are. -/
theorem natText_eq_intText (n : ℕ) : natText n = intText n := rfl

/-- An integer from its sign and its absolute value. -/
theorem signed_natAbs (v : ℤ) :
    (if decide (v < 0) = true then -(v.natAbs : ℤ) else v.natAbs) = v := by
  split_ifs with h <;> simp only [decide_eq_true_eq] at h <;> omega

/-- A number of 31 bits, and the blank after it. -/
theorem extractInt_word {n : ℕ} (hn : n < 2 ^ 31) {blanks : Text}
    (hblanks : ∀ c ∈ blanks, isSpace c = true) (s : Text) (old : Option ℤ) :
    extractInt old (some (blanks ++ (natText n ++ ' ' :: s))) =
        some ((n : ℤ), some (' ' :: s)) := by
  have hskip := dropWhile_blanks hblanks (isWord_intText n) s
  have hlow : ¬ (n : ℤ) < -2 ^ 31 := by omega
  have hhigh : ¬ 2 ^ 31 ≤ (n : ℤ) := by omega
  simp only [natText_eq_intText, extractInt, hskip, List.append_eq_nil_iff,
    (isWord_intText n).1, false_and, if_false, readInteger_intText n hblanks, signed_natAbs,
    if_neg hlow, if_neg hhigh]

/-- A count of 31 bits, read into a variable that may be initialised. -/
theorem Gives.extractInt {n : ℕ} {ws : List Text} {s : Option Text}
    (h : Gives (natText n :: ws) s) (hn : n < 2 ^ 31) (old : Option ℤ) :
    ∃ s', extractInt old s = some ((n : ℤ), s') ∧ Gives ws s' := by
  obtain ⟨blanks, hblanks, rfl⟩ := h
  refine ⟨_, ?_, gives_blank ws⟩
  rw [unwords_cons, extractInt_word hn hblanks]

/-- A count that is too great is read as the greatest, and makes the stream fail. -/
theorem Gives.extractInt_max {n : ℕ} {ws : List Text} {s : Option Text}
    (h : Gives (natText n :: ws) s) (hn : 2 ^ 31 ≤ n) (old : Option ℤ) :
    Lib.extractInt old s = some (2 ^ 31 - 1, none) := by
  obtain ⟨blanks, hblanks, rfl⟩ := h
  have hskip := dropWhile_blanks hblanks (isWord_intText n) (unwords ws)
  have hlow : ¬ (n : ℤ) < -2 ^ 31 := by omega
  have hhigh : 2 ^ 31 ≤ (n : ℤ) := by omega
  simp only [natText_eq_intText, unwords_cons, Lib.extractInt, hskip, List.append_eq_nil_iff,
    (isWord_intText n).1, false_and, if_false, readInteger_intText n hblanks, signed_natAbs,
    if_neg hlow, if_pos hhigh]

/-- A count that is too great makes the stream fail. -/
theorem Gives.extractInt_overflow {n : ℕ} {ws : List Text} {s : Option Text}
    (h : Gives (natText n :: ws) s) (hn : 2 ^ 31 ≤ n) (old : Option ℤ) :
    ∃ v, 0 ≤ v ∧ Lib.extractInt old s = some (v, none) :=
  ⟨2 ^ 31 - 1, by norm_num, h.extractInt_max hn old⟩

/-- A number of 64 bits with sign. -/
theorem reads_extractInt64 {v : ℤ} (hlow : -2 ^ 63 ≤ v) (hhigh : v < 2 ^ 63) :
    Reads extractInt64 [intText v] (Int64.ofInt v) := by
  rintro ws s ⟨blanks, hblanks, rfl⟩
  refine ⟨_, ?_, gives_blank ws⟩
  rw [List.singleton_append, unwords_cons]
  simp only [extractInt64, readInteger_intText v hblanks, signed_natAbs, if_neg hlow.not_gt,
    if_neg hhigh.not_ge]

/-- A number of 64 bits without sign, and the blank after it. -/
theorem extractUInt64_word {n : ℕ} (hn : n < 2 ^ 64) {blanks : Text}
    (hblanks : ∀ c ∈ blanks, isSpace c = true) (s : Text) :
    extractUInt64 (some (blanks ++ (natText n ++ ' ' :: s))) =
      (UInt64.ofNat n, some (' ' :: s)) := by
  have hsign : decide ((n : ℤ) < 0) = false := by simp
  simp only [natText_eq_intText, extractUInt64, readInteger_intText n hblanks, hsign,
    Int.natAbs_natCast, if_neg hn.not_ge, Bool.false_eq_true, if_false]

/-- A number of 64 bits without sign. -/
theorem reads_extractUInt64 {n : ℕ} (hn : n < 2 ^ 64) :
    Reads extractUInt64 [natText n] (UInt64.ofNat n) := by
  rintro ws s ⟨blanks, hblanks, rfl⟩
  refine ⟨_, ?_, gives_blank ws⟩
  rw [List.singleton_append, unwords_cons, extractUInt64_word hn hblanks]

/-- A text that has nothing but such a number. -/
theorem extractUInt64_natText {n : ℕ} (hn : n < 2 ^ 64) :
    (extractUInt64 (some (natText n))).1.toNat = n := by
  have hread := @readInteger_append n [] [] (by simp) (by simp)
  rw [List.nil_append, List.append_nil, ← natText_eq_intText] at hread
  have hsign : decide ((n : ℤ) < 0) = false := by simp
  simp only [extractUInt64, hread, hsign, Int.natAbs_natCast, if_neg hn.not_ge, Bool.false_eq_true,
    if_false]
  exact UInt64.toNat_ofNat_of_lt' hn

/-- A number with six digits. -/
theorem reads_extractDecimal {v : ℚ} (hv : |v| ≤ doubleMax) :
    Reads extractDecimal [sixText v] (sixRounded v) := by
  rintro ws s ⟨blanks, hblanks, rfl⟩
  refine ⟨_, ?_, gives_blank ws⟩
  rw [List.singleton_append, unwords_cons, extractDecimal_sixText hv hblanks]

/-- What has another word to give has not met the end. -/
theorem Gives.isGood {w : Text} {ws : List Text} {s : Option Text} (h : Gives (w :: ws) s) :
    isGood s = true := by
  obtain ⟨blanks, -, rfl⟩ := h
  cases blanks <;> cases w <;> rfl

/-- One thing after the other. -/
theorem reads_extractMany {α β : Type} {read : Option Text → β × Option Text}
    {words : α → List Text} {f : α → β} {xs : List α} (h : ∀ x ∈ xs, Reads read (words x) (f x)) :
    Reads (extractMany read xs.length) (xs.flatMap words) (xs.map f) := by
  induction xs with
  | nil => exact fun ws s hs => ⟨s, rfl, hs⟩
  | cons x xs ih =>
    intro ws s hs
    rw [List.flatMap_cons, List.append_assoc] at hs
    obtain ⟨s', hread, hs'⟩ := h x (by simp) _ s hs
    obtain ⟨s'', hmany, hs''⟩ := ih (fun y hy => h y (by simp [hy])) ws s' hs'
    exact ⟨s'', by simp only [List.length_cons, extractMany, hread, hmany, List.map_cons], hs''⟩

/-- A reader that gives `z` on a stream that has failed, and leaves it so. -/
def Fails {α : Type} (read : Option Text → α × Option Text) (z : α) : Prop :=
  read none = (z, none)

/-- After a failure there are as many things as were announced, all of them alike. -/
theorem Fails.extractMany {α : Type} {read : Option Text → α × Option Text} {z : α}
    (h : Fails read z) (n : ℕ) : Lib.extractMany read n none = (List.replicate n z, none) := by
  induction n with
  | zero => rfl
  | succ n ih => simp only [Lib.extractMany, show read none = (z, none) from h, ih,
      List.replicate_succ]

/-! ## What is left after the words -/

/-- A reader that makes `v` of these words, and leaves all that comes after them but
for blanks. -/
def Takes {α : Type} (read : Option Text → α × Option Text) (words : List Text) (v : α) : Prop :=
  ∀ blanks, (∀ c ∈ blanks, isSpace c = true) → ∀ s, ∃ blanks', (∀ c ∈ blanks', isSpace c = true) ∧
    read (some (blanks ++ (unwords words ++ s))) = (v, some (blanks' ++ s))

/-- A reader of one word that leaves the blank after it. -/
theorem takes_of_word {α : Type} {read : Option Text → α × Option Text} {w : Text} {v : α}
    (h : ∀ blanks, (∀ c ∈ blanks, isSpace c = true) → ∀ s,
      read (some (blanks ++ (w ++ ' ' :: s))) = (v, some (' ' :: s))) : Takes read [w] v := by
  intro blanks hblanks s
  refine ⟨[' '], by simp [isSpace], ?_⟩
  rw [unwords_cons, unwords_nil, List.append_assoc, List.cons_append, List.nil_append,
    h blanks hblanks s]

/-- One word is taken as it is. -/
theorem takes_extract {w : Text} (hw : IsWord w) : Takes extract [w] w := by
  refine takes_of_word fun blanks hblanks s => ?_
  have hword : readWord (blanks ++ (w ++ ' ' :: s)) = some (w, ' ' :: s) := by
    rw [← readWord_append hw s, readWord, dropWhile_blanks hblanks hw, readWord, dropWhile_word hw]
  simp only [extract, hword]

/-- A printed integer that fits is taken as an `int64_t`. -/
theorem takes_extractInt64 {v : ℤ} (hlow : -2 ^ 63 ≤ v) (hhigh : v < 2 ^ 63) :
    Takes extractInt64 [intText v] (Int64.ofInt v) := by
  refine takes_of_word fun blanks hblanks s => ?_
  simp only [extractInt64, readInteger_intText v hblanks, signed_natAbs, if_neg hlow.not_gt,
    if_neg hhigh.not_ge]

/-- One reader after the other. -/
theorem Takes.append {α β : Type} {read : Option Text → α × Option Text}
    {read' : Option Text → β × Option Text} {words words' : List Text} {v : α} {v' : β}
    (h : Takes read words v) (h' : Takes read' words' v') :
    Takes (fun s => (((read s).1, (read' (read s).2).1), (read' (read s).2).2)) (words ++ words')
      (v, v') := by
  intro blanks hblanks s
  obtain ⟨blanks₁, hblanks₁, hread⟩ := h blanks hblanks (unwords words' ++ s)
  obtain ⟨blanks₂, hblanks₂, hread'⟩ := h' blanks₁ hblanks₁ s
  refine ⟨blanks₂, hblanks₂, ?_⟩
  rw [unwords_append, List.append_assoc]
  simp only [hread, hread']

/-- Values that are taken one by one are taken in sequence. -/
theorem takes_extractMany {α β : Type} {read : Option Text → β × Option Text}
    {words : α → List Text} {f : α → β} {xs : List α} (h : ∀ x ∈ xs, Takes read (words x) (f x)) :
    Takes (extractMany read xs.length) (xs.flatMap words) (xs.map f) := by
  induction xs with
  | nil => exact fun blanks hblanks s => ⟨blanks, hblanks, rfl⟩
  | cons x xs ih =>
    have hboth := (h x List.mem_cons_self).append (ih fun y hy => h y (List.mem_cons_of_mem x hy))
    intro blanks hblanks s
    obtain ⟨blanks', hblanks', hread⟩ := hboth blanks hblanks s
    refine ⟨blanks', hblanks', ?_⟩
    simp only [Prod.mk.injEq] at hread
    simp only [List.flatMap_cons, List.length_cons, extractMany, List.map_cons, hread]

end AcCore.Lib
