import NameInference.Proofs.Unpack.Targets
import NameInference.Proofs.Value.Numbers

/-!
# Constant subscripts

An index of decimal digits with signs before them keeps its number through evaluation as a text,
which is read as an integer of 64 bits. So it selects the element of a display that it should, or
none of them in particular.
-/

namespace NameInference

open List

namespace Number

variable {text digits : Text} {i : Int}

/-- The integer has 64 bits. -/
def Fits (i : Int) : Prop := -9223372036854775808 ≤ i ∧ i < 9223372036854775808

/-- The text is that of the integer: decimal digits, with a minus sign or without one. -/
def Spells (text : Text) (i : Int) : Prop :=
  ∃ digits : Text, digits ≠ [] ∧ (∀ d ∈ digits, Byte.isDigit d = true) ∧
    (text = digits ∧ i = ofDigits 10 digits ∨ text = 0x2D :: digits ∧ i = -ofDigits 10 digits)

theorem ne_minus_of_isDigit {d : UInt8} (h : Byte.isDigit d = true) : d ≠ 0x2D := by
  rintro rfl
  cases h

theorem Spells.negated (h : Spells text i) : Spells (negated text) (-i) := by
  obtain ⟨digits, hne, hall, ⟨rfl, rfl⟩ | ⟨rfl, rfl⟩⟩ := h
  · refine ⟨text, hne, hall, .inr ⟨?_, rfl⟩⟩
    unfold Number.negated
    split
    · exact absurd rfl (ne_minus_of_isDigit (hall _ mem_cons_self))
    · rfl
  · exact ⟨digits, hne, hall, .inl ⟨rfl, neg_neg _⟩⟩

/-- Digits are read as what they stand for. -/
theorem foldl_isDigit (h : ∀ d ∈ digits, Byte.isDigit d = true) :
    digits.foldl (fun n d => n * 10 + (d - 0x30).toNat) 0 = ofDigits 10 digits := by
  have hfilter : digits.filter (· != 0x5F) = digits := by
    refine filter_eq_self.mpr fun d hd => bne_iff_ne.mpr ?_
    rintro rfl
    cases h _ hd
  rw [ofDigits, hfilter]
  exact foldl_ext _ _ 0 fun n d hd => by rw [Byte.hexValue, if_pos (h d hd)]

/-- The text of an integer is read as the integer, if that has 64 bits, and otherwise not at all. -/
theorem index?_of_spells (h : Spells text i) :
    (Fits i → index? text = some i) ∧ (¬ Fits i → index? text = none) := by
  obtain ⟨digits, hne, hall, htext⟩ := h
  have hdigits : (digits.isEmpty || !digits.all Byte.isDigit) = false := by simpa [hne] using hall
  have hread (value : Int) : (Fits value →
      (if -9223372036854775808 ≤ value && value < 9223372036854775808 then some value else none) =
      some value) ∧ (¬ Fits value →
        (if -9223372036854775808 ≤ value && value < 9223372036854775808 then some value else none) =
          none) := by
    unfold Fits
    constructor <;> intro hfits <;> simp [hfits]
  obtain ⟨rfl, rfl⟩ | ⟨rfl, rfl⟩ := htext
  · unfold index?
    split
    next negative rest hsplit =>
    split at hsplit
    · exact absurd rfl (ne_minus_of_isDigit (hall _ mem_cons_self))
    · cases hsplit
      rw [hdigits, foldl_isDigit hall, if_neg Bool.false_ne_true]
      dsimp only
      rw [if_neg Bool.false_ne_true]
      exact hread _
  · rw [index?, hdigits, foldl_isDigit hall]
    exact hread (-ofDigits 10 digits)

end Number

namespace Infer

variable {α : Type} {elements : List α} {k : Int}

theorem selected?_of_getElem? {i : Nat} {element : α} (h : elements[i]? = some element)
    (hk : k = i ∨ k = i - elements.length) : selected? elements k = some element := by
  have hlt := (List.getElem?_eq_some_iff.mp h).1
  have hi : (if k < 0 then k + elements.length else k) = i := by
    split <;> omega
  simp [selected?, hi, h]

theorem selected?_eq_none (hk : ¬ (-elements.length ≤ k ∧ k < elements.length)) :
    selected? elements k = none := by
  by_cases hneg : k < 0
  · have hbefore : k + elements.length < 0 := by omega
    simp [selected?, hneg, hbefore]
  · have hbehind : elements.length ≤ k.toNat := by omega
    simp [selected?, hneg, hbehind]

end Infer

/-- The index is a literal of decimal digits with signs before it and denotes the integer. -/
inductive Place.Denotes : Place → Nat → Int → Prop
  | literal {p : Place} {digits : Text} (form : p.node.form = .int digits) (some : digits ≠ [])
      (all : ∀ d ∈ digits, Byte.isDigit d = true) : Denotes p 0 (Number.ofDigits 10 digits)
  | sign {p operand : Place} {signs : Nat} {i : Int} (negative : Bool)
      (form : p.form = .unary (Infer.signOf negative) operand) (inner : Denotes operand signs i) :
      Denotes p (signs + 1) (if negative then -i else i)

namespace Session

/-- The set is the literal of an integer. -/
def Spells (s : Session) (set : ValueSet) (i : Int) : Prop :=
  ∃ id text, set = .single id ∧ s.values.get? id = some (.ofInt text) ∧ Number.Spells text i

/-- What is recorded of an index and its parts is the literal of the integer that they denote. -/
def Counts (s : Session) (context : ValueId) (index : Place) : Prop :=
  ∀ p ∈ index.walk, ∀ signs i, p.Denotes signs i → s.memo.find? (.eval p.key context) = none ∨
    ∃ set, s.memo.find? (.eval p.key context) = some (.done set) ∧ s.Spells set i

end Session

namespace Infer

variable {s : Session} {context : ValueId} {index : Place} {signs : Nat} {k : Int}

/-- An index is evaluated to the literal of the integer that it denotes. -/
theorem eval_denotes (h : index.Denotes signs k) (hs : s.values.Consistent)
    (hcounts : s.Counts context index) (depth : Nat) :
    ∃ set t, eval context index (engine (signs + depth + 1)) s = (.ok set, t) ∧ t.Spells set k := by
  induction h generalizing s with
  | @literal p digits hform hne hall =>
    rcases hcounts p p.mem_walk_self _ _ (.literal hform hne hall) with hnew | ⟨set, hdone, hspells⟩
    · refine ⟨_, _, MemoSlot.answer_of_ok hnew (computeEval_int hform _), _, digits, rfl, ?_,
        digits, hne, hall, .inl ⟨rfl, rfl⟩⟩
      exact get?_intern_literal
        (s := Session.memoSlot.update (·.start (.eval p.key context) none) s) hs _ digits
    · exact ⟨set, _, MemoSlot.answer_of_done hdone, hspells⟩
  | @sign p operand signs i negative hform inner ih =>
    rcases hcounts p p.mem_walk_self _ _ (.sign negative hform inner) with
      hnew | ⟨set, hdone, hspells⟩
    · let marked := Session.memoSlot.update (·.start (.eval p.key context) none) s
      have hoperand : operand ∈ p.children := by
        rw [← Place.parts_form, hform]
        exact mem_singleton_self operand
      have hbelow : marked.Counts context operand := by
        intro q hq n j hdenotes
        have hkey : q.key ≠ p.key := by
          have hnodup := p.nodup_walk
          rw [Place.walk_eq, map_cons, nodup_cons] at hnodup
          exact fun heq => hnodup.1 (heq ▸ mem_map_of_mem (mem_flatMap.mpr ⟨operand, hoperand, hq⟩))
        have hsame : (s.memo.start (.eval p.key context) none).find? (.eval q.key context) =
            s.memo.find? (.eval q.key context) := Memo.find?_start_of_ne (by simpa using hkey)
        have hmem := Place.mem_walk_of_mem_walk
          (Place.mem_walk_of_mem_children p.mem_walk_self hoperand) hq
        exact hsame ▸ hcounts q hmem n j hdenotes
      obtain ⟨set, t, hrun, id, text, rfl, hget, hspells⟩ := ih (s := marked) hs hbelow
      obtain ⟨id', u, hsign, -, hget'⟩ := evalUnary_literal
        ((evolves_of_run (steady_engine _) hrun).consistent hs) hget (by simp [numberTypes])
          negative _
      have hcompute : computeEval context p (engine (signs + depth + 1)) marked =
          (.ok (.single id'), u) := by
        rw [computeEval, hform]
        exact (bind_of_ok hrun).trans hsign
      rw [Nat.add_right_comm signs 1]
      refine ⟨_, _, MemoSlot.answer_of_ok hnew hcompute, id', _, rfl, hget', ?_⟩
      cases negative with
      | false => exact hspells
      | true => exact hspells.negated
    · rw [Nat.add_right_comm signs 1]
      exact ⟨set, _, MemoSlot.answer_of_done hdone, hspells⟩

theorem isSlice_of_denotes (h : index.Denotes signs k) : isSlice index = false := by
  cases h with
  | literal form => rw [isSlice, form]
  | sign negative form =>
    unfold Place.form at form
    unfold isSlice
    split
    · next hslice =>
      rw [hslice] at form
      cases form
    · rfl

/-- A display of plain elements is subscripted by the position that the index stands for, if it
stands for one. -/
theorem subscriptDisplay_apply (id cls : ValueId) {scope : ValueId} {display : Place}
    {elements : List Place} {calls : Calls} {position : Option Int} {t : Session}
    (hdisplay : display.sequence? = some elements) (hplain : elements.any Place.isStarred = false)
    (hslice : isSlice index = false)
    (hrun : integerIndex? context index calls s = (.ok position, t)) :
    subscriptDisplay id cls display scope index context calls s =
      ((position.bind (selected? elements)).elim (collect elements (eval scope)) (eval scope))
        calls t := by
  have hform : display.form = .tuple elements ∨ display.form = .list elements := by
    unfold Place.sequence? at hdisplay
    split at hdisplay <;> simp_all
  rcases hform with hform | hform
  all_goals
    rw [subscriptDisplay, hform]
    simp only [hslice, hplain, Bool.false_eq_true, if_false]
    rw [bind_of_ok hrun]
    cases position.bind (selected? elements) <;> rfl

/-- A constant index selects the element that it denotes, counted from the end if it is negative. An
index that denotes none of them, also one of more than 64 bits, stands for all of them. What is
computed on the way has 64 bits. -/
theorem subscriptOne_of_denotes {id cls scope : ValueId} {arguments : ArgumentsId} {display : Place}
    {elements : List Place}
    (hvalue : s.values.get? id = some (.inst cls arguments (some (display, scope))))
    (hdisplay : display.sequence? = some elements) (hplain : elements.any Place.isStarred = false)
    (hsize : Number.Fits elements.length) (hindex : index.Denotes signs k)
    (hs : s.values.Consistent) (hcounts : s.Counts context index) (depth : Nat) :
    ∃ position t, integerIndex? context index (engine (signs + depth + 1)) s = (.ok position, t) ∧
      (Number.Fits k → position = some k ∧ (k < 0 → Number.Fits (k + elements.length))) ∧
      (¬ Number.Fits k → position = none) ∧
      (∀ (i : Nat) element, elements[i]? = some element → k = i ∨ k = i - elements.length →
        subscriptOne id index context (engine (signs + depth + 1)) s =
          eval scope element (engine (signs + depth + 1)) t) ∧
      (¬ (-elements.length ≤ k ∧ k < elements.length) →
        subscriptOne id index context (engine (signs + depth + 1)) s =
          collect elements (eval scope) (engine (signs + depth + 1)) t) := by
  obtain ⟨set, t, hrun, number, text, rfl, hget, hspells⟩ := eval_denotes hindex hs hcounts depth
  obtain ⟨hread, hunread⟩ := Number.index?_of_spells hspells
  have hposition : integerIndex? context index (engine (signs + depth + 1)) s =
      (.ok (Number.index? text), t) := by
    rw [integerIndex?, bind_of_ok hrun]
    have hfound : (ValueSet.single number).only?.bind t.values.get? = some (.ofInt text) := hget
    refine congrArg (fun position => (Except.ok position, t)) ?_
    beta_reduce
    rw [hfound]
    exact if_pos BEq.rfl
  have hsubscript : subscriptOne id index context (engine (signs + depth + 1)) s =
      (((Number.index? text).bind (selected? elements)).elim (collect elements (eval scope))
        (eval scope)) (engine (signs + depth + 1)) t := by
    rw [← subscriptDisplay_apply id cls hdisplay hplain (isSlice_of_denotes hindex) hposition]
    have hfound : query (·.get? id) (engine (signs + depth + 1)) s =
        (.ok (some (.inst cls arguments (some (display, scope)))), s) := by
      rw [← hvalue]
      rfl
    exact bind_of_ok hfound
  refine ⟨_, t, hposition, fun hfits => ⟨hread hfits, fun hneg => ?_⟩, hunread,
    fun i element helement hk => ?_, fun hk => ?_⟩
  · unfold Number.Fits at *
    omega
  · have hlt := (List.getElem?_eq_some_iff.mp helement).1
    have hfits : Number.Fits k := by
      unfold Number.Fits at *
      omega
    rw [hsubscript, hread hfits, Option.bind_some, selected?_of_getElem? helement hk]
    rfl
  · rw [hsubscript]
    by_cases hfits : Number.Fits k
    · rw [hread hfits, Option.bind_some, selected?_eq_none hk]
      rfl
    · rw [hunread hfits]
      rfl

/-- The last element of a display, by an index with a sign and a leading zero. -/
theorem subscriptOne_of_denotes_last :
    let literal (text : String) : Node := .mk default .load (.int text)
    let display : Place := ⟨0, .mk default .load (.list [literal "7", literal "8"]), []⟩
    let index : Place := ⟨1, .mk default .load (.unary .neg (literal "01")), []⟩
    let s : Session := (({} : Session).intern (.inst 0 0 (some (display, 0)))).2
    ∃ first last t, display.sequence? = some [first, last] ∧ last.node.form = .int "8" ∧
      subscriptOne 0 index 0 (engine 2) s = eval 0 last (engine 2) t := by
  intro literal display index s
  have hliteral (p : Place) (h : p.node.form = .int "01") : p.Denotes 0 1 := by
    have hdigits : Text.ofString "01" = [0x30, 0x31] := by decide +kernel
    rw [hdigits] at h
    exact .literal h (cons_ne_nil _ _) (forall_mem_cons.mpr ⟨rfl, forall_mem_singleton.mpr rfl⟩)
  have hindex : index.Denotes 1 (-1) := .sign (i := 1) true rfl (hliteral _ rfl)
  have hfound : s.values.get? 0 = some (.inst 0 0 (some (display, 0))) := by
    change (Arena.intern (Value.map Place.key) {} _).2.get? 0 = _
    rw [Arena.intern_of_new (Arena.find?_empty _ _)]
    rfl
  have hempty : ({} : Session).values.Consistent := Arena.consistent_empty
  obtain ⟨position, t, -, -, -, hselects, -⟩ :=
    subscriptOne_of_denotes hfound rfl rfl (by unfold Number.Fits; decide)
    hindex (hempty.intern _) (fun _ _ _ _ _ => .inl Memo.find?_empty) 0
  exact ⟨_, _, t, rfl, rfl, hselects 1 _ rfl (.inr rfl)⟩

end Infer

end NameInference
