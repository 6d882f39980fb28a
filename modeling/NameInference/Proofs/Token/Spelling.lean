import Mathlib.Data.List.Basic
import NameInference.Token.Lexeme

/-!
# Spellings that are read as they are written

A word ends before a byte that does not continue it, a decimal number before one that is neither a
digit nor the beginning of a fraction, an exponent or a suffix, and an operator before a byte with
which no operator goes on.
-/

namespace NameInference.Lexeme

open List

variable {b x : UInt8} {t rest : Text}

theorem startsName_ne (h : startsName b = true) (rest : Text) :
    isBlank b = false ∧ b ≠ 0x23 ∧ b ≠ 0x5C ∧ isQuote b = false ∧ startsNumber b rest = false := by
  grind [startsName, Byte.isLetter, isBlank, isQuote, startsNumber, Byte.isDigit]

theorem continuesName_not_quote (h : continuesName b = true) : isQuote b = false := by
  grind [continuesName, startsName, Byte.isLetter, isQuote, Byte.isDigit]

theorem continuesName_of_isStringLetter (h : isStringLetter b = true) : continuesName b = true := by
  have hall : [0x62, 0x42, 0x72, 0x52, 0x75, 0x55, 0x66, 0x46].all continuesName = true := by decide
  exact all_eq_true.mp hall b (contains_iff_mem.mp h)

/-- A name byte begins a word, unless a quote follows the letters that may stand before quotes. -/
theorem ofBytes_eq_ofWord (hb : startsName b = true)
    (hquote : ∀ q, (b :: rest)[(((b :: rest).take 2).takeWhile isStringLetter).length]? = some q →
      isQuote q = false) : ofBytes b rest = ofWord b rest := by
  obtain ⟨hblank, hsign, hslash, -, hnumber⟩ := startsName_ne hb rest
  rw [ofBytes, if_neg (by simp [hblank]), if_neg (by simpa using hsign),
    if_neg (by simpa using hslash)]
  simp only
  split
  · next quote after hdrop =>
    have hno : isQuote quote = false := hquote quote (by rw [← head?_drop, hdrop]; rfl)
    rw [if_neg (by simp [hno]), if_neg (by simp [hnumber]), if_pos hb]
  · rfl

/-- What stands behind a word does not continue it and is no quote. -/
def EndsWord (rest : Text) : Prop := ∀ x ∈ rest.head?, continuesName x = false ∧ isQuote x = false

theorem ofWord_append (ht : ∀ y ∈ t, continuesName y = true) (hrest : EndsWord rest) :
    ofWord b (t ++ rest) = .token (wordKind (b :: t)) t.length := by
  have hmore : (t ++ rest).takeWhile continuesName = t := by
    rw [takeWhile_append_of_pos ht]
    cases rest with
    | nil => simp
    | cons x rest => simp [(hrest x rfl).1]
  simp only [ofWord, hmore]

/-- A word is read up to what does not continue it. -/
theorem ofBytes_word (hb : startsName b = true) (ht : ∀ y ∈ t, continuesName y = true)
    (hrest : EndsWord rest) :
    ofBytes b (t ++ rest) = .token (wordKind (b :: t)) t.length := by
  rw [ofBytes_eq_ofWord hb, ofWord_append ht hrest]
  intro q hq
  have hletters : ∀ y ∈ ((b :: (t ++ rest)).take 2).takeWhile isStringLetter, continuesName y =
    true :=
    fun y hy => continuesName_of_isStringLetter (all_eq_true.mp all_takeWhile y hy)
  have hprefix : ((b :: (t ++ rest)).take 2).takeWhile isStringLetter <+: (b :: t) ++ rest :=
    (List.takeWhile_prefix _).trans (List.take_prefix _ _)
  generalize ((b :: (t ++ rest)).take 2).takeWhile isStringLetter = letters at hq hletters hprefix
  rw [← cons_append] at hq
  rcases Nat.lt_trichotomy letters.length (b :: t).length with hlt | heq | hgt
  · rw [getElem?_append_left hlt] at hq
    rcases mem_cons.mp (mem_of_getElem? hq) with rfl | hmem
    · exact (startsName_ne hb rest).2.2.2.1
    · exact continuesName_not_quote (ht q hmem)
  · rw [heq, getElem?_append_right (Nat.le_refl _), Nat.sub_self, ← head?_eq_getElem?] at hq
    exact (hrest q hq).2
  · obtain ⟨tail, htail⟩ := hprefix
    have hx := congrArg (fun l => l[(b :: t).length]?) htail
    simp only [getElem?_append_left hgt, getElem?_append_right (Nat.le_refl _), Nat.sub_self,
      getElem?_eq_getElem hgt] at hx
    rw [← head?_eq_getElem?] at hx
    have hcontinues := hletters _ (getElem_mem hgt)
    rw [(hrest _ hx.symm).1] at hcontinues
    cases hcontinues

/-- What stands behind a decimal integer neither continues it nor makes it another number. -/
def EndsNumber (rest : Text) : Prop :=
  ∀ x ∈ rest.head?, Byte.isDigit x = false ∧ startsName x = false ∧ x ≠ 0x2E

theorem isBaseLetter_ne (h : isBaseLetter b = true) :
    startsName b = true ∧ Byte.isDigit b = false ∧ b ≠ 0x5F := by
  have hall : [0x78, 0x58, 0x6F, 0x4F, 0x62, 0x42].all
      (fun b => startsName b && !Byte.isDigit b && b != 0x5F) = true := by decide
  simpa [and_assoc] using all_eq_true.mp hall b (contains_iff_mem.mp h)

/-- Behind a decimal integer there is no fraction, no exponent and no suffix. -/
theorem suffixes_of_endsNumber (h : EndsNumber rest) :
    fractionLength rest = 0 ∧ exponentLength rest = 0 ∧ imaginaryNext rest = false := by
  cases rest with
  | nil => exact ⟨rfl, rfl, rfl⟩
  | cons x rest =>
    obtain ⟨-, hname, hdot⟩ := h x rfl
    have hletter : x ≠ 0x65 ∧ x ≠ 0x45 ∧ x ≠ 0x6A ∧ x ≠ 0x4A := by
      refine ⟨?_, ?_, ?_, ?_⟩ <;>
      · rintro rfl
        cases hname
    refine ⟨?_, ?_, ?_⟩
    · unfold fractionLength
      split
      · next heq => exact absurd (List.cons.inj heq).1 hdot
      · rfl
    · simp [exponentLength, hletter.1, hletter.2.1]
    · simp [imaginaryNext, hletter.2.2.1, hletter.2.2.2]

theorem number_decimal (hb : Byte.isDigit b = true) (ht : ∀ y ∈ t, Byte.isDigit y = true ∨ y = 0x5F)
    (hrest : EndsNumber rest) : number (b :: (t ++ rest)) = (.int, t.length + 1) := by
  have hwhole : digits Byte.isDigit (b :: (t ++ rest)) = b :: t := by
    rw [digits, ← cons_append, takeWhile_append_of_pos (by simpa [hb] using ht)]
    cases rest with
    | nil => simp
    | cons x rest =>
      obtain ⟨hdigit, hname, -⟩ := hrest x rfl
      have hscore : x ≠ 0x5F := by
        rintro rfl
        cases hname
      simp [hdigit, hscore]
  have hbase : ∀ c ∈ (t ++ rest).head?, isBaseLetter c = false := by
    intro c hc
    rw [← Bool.not_eq_true]
    intro hletter
    obtain ⟨hname, hdigit, hscore⟩ := isBaseLetter_ne hletter
    cases t with
    | nil =>
      rw [(hrest c hc).2.1] at hname
      cases hname
    | cons y t =>
      obtain rfl : y = c := by simpa using hc
      rcases ht y mem_cons_self with h | h
      · rw [hdigit] at h
        cases h
      · exact hscore h
  obtain ⟨hfraction, hexponent, himaginary⟩ := suffixes_of_endsNumber hrest
  have hdrop : (b :: (t ++ rest)).drop (t.length + 1) = rest := by simp
  have hwhole' : (digits Byte.isDigit (b :: (t ++ rest))).length = t.length + 1 := by
    rw [hwhole, length_cons]
  fun_cases number (b :: (t ++ rest)) with
  | case1 based hbased =>
    cases hsplit : t ++ rest with
    | nil => simp [based, hsplit] at hbased
    | cons c tail =>
      have hc : isBaseLetter c = false := hbase c (by rw [hsplit]; rfl)
      simp only [based, hsplit] at hbased
      split at hbased
      · next heq =>
        obtain ⟨-, rfl, -⟩ : b = 48 ∧ c = _ ∧ tail = _ := by simpa using heq
        simp [hc] at hbased
      · cases hbased
  | case2 based hbased whole fraction exponent length himag =>
    have hlength : length = t.length + 1 := by
      simp only [length, exponent, fraction, whole, hwhole', hdrop, hfraction, Nat.add_zero,
        hexponent]
    rw [hlength, hdrop, himaginary] at himag
    cases himag
  | case3 based hbased whole fraction exponent length himag =>
    simp only [length, exponent, fraction, whole, hwhole', hdrop, hfraction, Nat.add_zero,
      hexponent]
    rfl

/-- A decimal integer is read up to what does not continue it. -/
theorem ofBytes_decimal (hb : Byte.isDigit b = true)
    (ht : ∀ y ∈ t, Byte.isDigit y = true ∨ y = 0x5F) (hrest : EndsNumber rest) :
    ofBytes b (t ++ rest) = .token .int t.length := by
  have hfirst : isBlank b = false ∧ b ≠ 0x23 ∧ b ≠ 0x5C ∧ isQuote b = false ∧
      isStringLetter b = false := by
    have hletter : isStringLetter b = false := by
      rw [← Bool.not_eq_true]
      intro h
      have hall : [0x62, 0x42, 0x72, 0x52, 0x75, 0x55, 0x66, 0x46].all (fun b => !Byte.isDigit b) =
        true := by decide
      have hb' := all_eq_true.mp hall b (contains_iff_mem.mp h)
      rw [hb] at hb'
      cases hb'
    grind [isBlank, isQuote, Byte.isDigit]
  obtain ⟨hblank, hsign, hslash, hquote, hletter⟩ := hfirst
  have hstarts : startsNumber b (t ++ rest) = true := by simp [startsNumber, hb]
  rw [ofBytes, if_neg (by simp [hblank]), if_neg (by simpa using hsign),
    if_neg (by simpa using hslash)]
  simp [hletter, hquote, hstarts, number_decimal hb ht hrest]

theorem ofOperator_congr
    (h : ∀ entry ∈ inBytes operators,
      entry.1.isPrefixOf (b :: rest) = entry.1.isPrefixOf (b :: t)) :
    ofOperator b rest = ofOperator b t := by
  have hfind : ((inBytes operators).find? fun entry => entry.1.isPrefixOf (b :: rest)) =
      (inBytes operators).find? fun entry => entry.1.isPrefixOf (b :: t) := by
    generalize inBytes operators = table at h
    induction table with
    | nil => rfl
    | cons entry table ih =>
      rw [find?_cons, find?_cons, h entry mem_cons_self,
        ih fun other hother => h other (mem_cons_of_mem _ hother)]
  simp only [ofOperator, hfind]

theorem isPrefixOf_append_cons {s : Text} (hx : x ∉ s) :
    s.isPrefixOf (t ++ x :: rest) = s.isPrefixOf t := by
  induction s generalizing t with
  | nil => simp
  | cons a s ih =>
    rw [mem_cons, not_or] at hx
    cases t with
    | nil => simp [List.isPrefixOf, Ne.symm hx.1]
    | cons c t => simp [List.isPrefixOf, ih hx.2]

/-- What stands behind an operator does not continue it. -/
def EndsOperator (rest : Text) : Prop :=
  ∀ x ∈ rest.head?, ∀ entry ∈ inBytes operators, x ∉ entry.1.tail

/-- An operator is read up to what does not continue it. -/
theorem ofOperator_append (hrest : EndsOperator rest) :
    ofOperator b (t ++ rest) = ofOperator b t := by
  cases rest with
  | nil => rw [append_nil]
  | cons x rest =>
    refine ofOperator_congr fun entry hentry => ?_
    have hx := hrest x rfl entry hentry
    cases hs : entry.1 with
    | nil => simp
    | cons a s =>
      rw [hs, tail_cons] at hx
      simp only [List.isPrefixOf, isPrefixOf_append_cons hx]

/-- A byte with which no longer operator begins is read as it is. -/
theorem ofOperator_single
    (hb : ∀ entry ∈ inBytes operators, entry.1.head? = some b → entry.1 = [b]) :
    ofOperator b rest = ofOperator b [] := by
  refine ofOperator_congr fun entry hentry => ?_
  have hentry := hb entry hentry
  cases hs : entry.1 with
  | nil => simp
  | cons a s =>
    by_cases hab : a = b
    · rw [hs, hab] at hentry
      obtain rfl : s = [] := by simpa using hentry rfl
      simp [List.isPrefixOf]
    · have hne : (a == b) = false := beq_eq_false_iff_ne.mpr hab
      simp [List.isPrefixOf, hne]

/-- Bytes that begin neither a blank, a comment, a string, a name nor a continuation. -/
def opensOperator (b : UInt8) : Bool :=
  !isBlank b && b != 0x23 && b != 0x5C && !isStringLetter b && !isQuote b && !startsName b

theorem ofBytes_eq_ofOperator (hb : opensOperator b = true)
    (hnumber : startsNumber b rest = false) :
    ofBytes b rest = ofOperator b rest := by
  simp only [opensOperator, Bool.and_eq_true, Bool.not_eq_true', bne_iff_ne] at hb
  obtain ⟨⟨⟨⟨⟨hblank, hsign⟩, hslash⟩, hletter⟩, hquote⟩, hname⟩ := hb
  rw [ofBytes, if_neg (by simp [hblank]), if_neg (by simpa using hsign),
    if_neg (by simpa using hslash)]
  simp [hletter, hquote, hnumber, hname]

end NameInference.Lexeme
