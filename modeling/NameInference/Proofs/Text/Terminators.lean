import NameInference.Syntax.Grammar.Statement

/-!
# Line terminators

A text with every terminator written as LF has the same physical lines as the text itself, with or
without a byte order mark. All that is read from a source is read from its lines, so the terminators
show nowhere behind them.
-/

namespace NameInference.Lines

open List

/-- The text with every CR LF and every other CR replaced by LF. -/
def unified : Text → Text
  | [] => []
  | 0x0D :: 0x0A :: rest => 0x0A :: unified rest
  | 0x0D :: rest => 0x0A :: unified rest
  | b :: rest => b :: unified rest

/-- The pieces between line feeds, without an empty last piece. -/
def pieces (t : Text) : List Text :=
  let all := Text.splitOn 0x0A t
  if all.getLast? = some [] then all.dropLast else all

/-- A byte that ends no line begins or lengthens the first line. -/
theorem split_cons {b : UInt8} (hlf : b ≠ 0x0A) (hcr : b ≠ 0x0D) (rest : Text) :
    split (b :: rest) = (b :: (split rest).headD []) :: (split rest).tail := by
  rw [split.eq_5 b rest hlf (fun _ h _ => hcr h) hcr]
  cases split rest <;> rfl

theorem split_unified (t : Text) : split (unified t) = split t := by
  fun_induction unified t with
  | case1 => rfl
  | case2 rest ih => simp [split, ih]
  | case3 rest hlf ih =>
    rw [split, split, ih]
    exact hlf
  | case4 b rest hcrlf hcr ih =>
    by_cases hb : b = 0x0A
    · subst hb
      simp [split, ih]
    · rw [split_cons hb hcr, split_cons hb hcr, ih]

theorem not_mem_unified (t : Text) : 0x0D ∉ unified t := by
  fun_induction unified t with
  | case1 => simp
  | case2 rest ih => simpa using ih
  | case3 rest hlf ih => simpa using ih
  | case4 b rest hcrlf hcr ih => simpa [eq_comm] using ⟨hcr, ih⟩

theorem unified_cons {b : UInt8} (hb : b ≠ 0x0D) (t : Text) : unified (b :: t) = b :: unified t :=
  unified.eq_4 b t (fun _ h _ => hb h) hb

theorem head?_unified_cr (t : Text) : (unified (0x0D :: t)).head? = some 0x0A := by
  cases t with
  | nil => rfl
  | cons b t => by_cases hb : b = 0x0A <;> simp [unified, hb]

/-- A beginning without terminators stays as it is. -/
theorem isPrefixOf_unified (mark : Text) (hmark : ∀ b ∈ mark, b ≠ 0x0A ∧ b ≠ 0x0D) (t : Text) :
    mark.isPrefixOf (unified t) = mark.isPrefixOf t ∧
      (mark.isPrefixOf t → (unified t).drop mark.length = unified (t.drop mark.length)) := by
  induction mark generalizing t with
  | nil => simp
  | cons m mark ih =>
    obtain ⟨hlf, hcr⟩ := hmark m mem_cons_self
    cases t with
    | nil => simp [unified]
    | cons b t =>
      by_cases hb : b = 0x0D
      · subst hb
        obtain ⟨rest, hrest⟩ := head?_eq_some_iff.mp (head?_unified_cr t)
        have hlf' : (m == 0x0A) = false := beq_eq_false_iff_ne.mpr hlf
        have hcr' : (m == 0x0D) = false := beq_eq_false_iff_ne.mpr hcr
        simp [hrest, isPrefixOf_cons_cons, hlf', hcr']
      · obtain ⟨heq, hdrop⟩ := ih (fun b hb => hmark b (mem_cons_of_mem m hb)) t
        simp only [unified_cons hb, isPrefixOf_cons_cons, heq, length_cons, drop_succ_cons,
          Bool.and_eq_true]
        exact ⟨trivial, fun h => hdrop h.2⟩

/-- A text begins with the mark exactly if the unified text does. -/
theorem withoutMark_unified (t : Text) : withoutMark (unified t) = unified (withoutMark t) := by
  obtain ⟨heq, hdrop⟩ := isPrefixOf_unified byteOrderMark (by simp [byteOrderMark]) t
  unfold withoutMark Text.startsWith
  rw [heq]
  split
  · next h => exact hdrop h
  · rfl

theorem splitOn_ne_nil (separator : UInt8) (t : Text) : Text.splitOn separator t ≠ [] := by
  fun_cases Text.splitOn separator t <;> simp_all

theorem splitOn_cons_self (separator : UInt8) (t : Text) :
    Text.splitOn separator (separator :: t) = [] :: Text.splitOn separator t := by
  obtain ⟨piece, more, h⟩ := exists_cons_of_ne_nil (splitOn_ne_nil separator t)
  rw [Text.splitOn, h]
  simp

theorem pieces_cons_lf (t : Text) : pieces (0x0A :: t) = [] :: pieces t := by
  have hne := splitOn_ne_nil 0x0A t
  simp only [pieces, splitOn_cons_self, getLast?_cons_of_ne_nil hne, dropLast_cons_of_ne_nil hne]
  split <;> rfl

theorem pieces_cons {b : UInt8} (hlf : b ≠ 0x0A) (t : Text) :
    pieces (b :: t) = (b :: (pieces t).headD []) :: (pieces t).tail := by
  obtain ⟨piece, more, h⟩ := exists_cons_of_ne_nil (splitOn_ne_nil 0x0A t)
  have hcons : Text.splitOn 0x0A (b :: t) = (b :: piece) :: more := by
    rw [Text.splitOn, h]
    simp [hlf]
  cases more with
  | nil => by_cases hpiece : piece = [] <;> simp [pieces, hcons, h, hpiece]
  | cons next more =>
    simp only [pieces, hcons, h, getLast?_cons_cons, dropLast_cons_cons]
    split <;> rfl

/-- Without CR the lines are the pieces between line feeds. -/
theorem split_eq_pieces {t : Text} (h : 0x0D ∉ t) : split t = pieces t := by
  induction t with
  | nil => rfl
  | cons b t ih =>
    rw [mem_cons, not_or] at h
    obtain ⟨hcr, ht⟩ := h
    by_cases hb : b = 0x0A
    · subst hb
      rw [pieces_cons_lf, ← ih ht, split]
    · rw [split_cons hb (Ne.symm hcr), pieces_cons hb, ih ht]

end NameInference.Lines

namespace NameInference

/-- What is read from a source depends on its lines alone. -/
theorem Module.ofSource_congr {text text' : Text} (h : Lines.ofText text = Lines.ofText text')
    (file : Text) :
    Module.ofSource ⟨text, file⟩ = Module.ofSource ⟨text', file⟩ := by
  have htokens : Source.readTokens ⟨text, file⟩ = Source.readTokens ⟨text', file⟩ := by
    simp only [Source.readTokens, Source.lines, h]
  simp only [Module.ofSource, Source.stackedTokens, List.reverse_singleton, Source.readAllTokens,
    htokens, Source.endToken, Source.lines, h]

/-- Line terminators do not matter: with every one of them written as LF a source has the same
lines, which are the pieces between line feeds, and is read to the same module or rejected with the
same error. -/
theorem Module.ofSource_unified (text file : Text) :
    Lines.ofText text = Lines.ofText (Lines.unified text) ∧
      Lines.ofText text = Lines.pieces (Lines.withoutMark (Lines.unified text)) ∧
      Module.ofSource ⟨text, file⟩ = Module.ofSource ⟨Lines.unified text, file⟩ := by
  have hlines : Lines.ofText text = Lines.ofText (Lines.unified text) := by
    rw [Lines.ofText, Lines.ofText, Lines.withoutMark_unified, Lines.split_unified]
  refine ⟨hlines, ?_, ofSource_congr hlines file⟩
  rw [Lines.withoutMark_unified, ← Lines.split_eq_pieces (Lines.not_mem_unified _),
    Lines.split_unified, Lines.ofText]

end NameInference
