import Mathlib.Data.List.Forall2
import NameInference.Syntax.Cursor

/-!
# Rules that read given symbols

What a rule of the grammar does with a sequence of symbols, a symbol being the kind and the text of
a token. A rule reads symbols if it succeeds wherever these symbols come next, provided that what
follows them does not go on, and then stands right behind them. Positions do not matter for that.
-/

namespace NameInference

open List

variable {k : TokenKind}

/-- Kind and text of a token. -/
abbrev Symbol := TokenKind × Text

def Token.symbol (t : Token) : Symbol := (t.kind, t.text)

namespace Cursor

/-- The symbols from the current token on. -/
def symbols (c : Cursor) : List Symbol := (c.current :: c.rest).map Token.symbol

variable {c : Cursor} {x y : Symbol} {rest : List Symbol}

theorem current_kind (h : c.symbols = x :: rest) : c.current.kind = x.1 :=
  congrArg Prod.fst (List.cons.inj h).1

theorem current_text (h : c.symbols = x :: rest) : c.current.text = x.2 :=
  congrArg Prod.snd (List.cons.inj h).1

theorem next_kind (h : c.symbols = x :: y :: rest) : (c.rest.headD c.current).kind = y.1 := by
  obtain ⟨current, tokens, lastEnd⟩ := c
  cases tokens with
  | nil => simp [symbols] at h
  | cons next tokens =>
    simp only [symbols, map_cons, List.cons.injEq] at h
    exact congrArg Prod.fst h.2.1

/-- Behind a token that is not the last, the next symbols come. -/
theorem symbols_advance (h : c.symbols = x :: y :: rest) : c.advance.symbols = y :: rest := by
  obtain ⟨current, tokens, lastEnd⟩ := c
  cases tokens with
  | nil => simp [symbols] at h
  | cons next tokens =>
    simp only [symbols, map_cons, List.cons.injEq] at h ⊢
    exact ⟨h.2.1, h.2.2⟩

theorem symbols_advance_of_ne_nil (h : c.symbols = x :: rest) (hrest : rest ≠ []) :
    c.advance.symbols = rest := by
  obtain ⟨y, more, rfl⟩ := exists_cons_of_ne_nil hrest
  exact symbols_advance h

theorem length_symbols (c : Cursor) : c.symbols.length = c.ahead + 1 := by simp [symbols, ahead]

/-- Every token from the current one on has the property. -/
def All (P : Token → Prop) (c : Cursor) : Prop := ∀ t ∈ c.current :: c.rest, P t

theorem All.advance {P : Token → Prop} (h : c.All P) : c.advance.All P := by
  obtain ⟨current, tokens, lastEnd⟩ := c
  cases tokens with
  | nil => exact h
  | cons next tokens => exact fun t ht => h t (mem_cons_of_mem _ ht)

end Cursor

namespace Parse

variable {α β : Type} {c c' : Cursor}

theorem bind_of_ok {p : Parse α} {f : α → Parse β} {a : α} (h : p c = .ok (a, c')) :
    (p >>= f) c = f a c' := by
  simp only [bind, StateT.bind, h, Except.bind]

theorem bind_eq_ok {p : Parse α} {f : α → Parse β} {b : β} (h : (p >>= f) c = .ok (b, c')) :
    ∃ a middle, p c = .ok (a, middle) ∧ f a middle = .ok (b, c') := by
  simp only [bind, StateT.bind] at h
  cases hp : p c with
  | error e =>
    rw [hp] at h
    cases h
  | ok r =>
    rw [hp] at h
    exact ⟨r.1, r.2, rfl, h⟩

theorem pure_eq (a : α) (c : Cursor) : (pure a : Parse α) c = .ok (a, c) := rfl

theorem kind_bind (f : TokenKind → Parse β) (c : Cursor) : (kind >>= f) c = f c.current.kind c :=
  rfl

theorem nextKind_bind (f : TokenKind → Parse β) (c : Cursor) :
    (nextKind >>= f) c = f (c.rest.headD c.current).kind c := rfl

theorem token_bind (f : Token → Parse β) (c : Cursor) : (token >>= f) c = f c.current c := rfl

theorem start_bind (f : Position → Parse β) (c : Cursor) : (start >>= f) c = f c.current.start c :=
  rfl

theorem take_bind (f : Token → Parse β) (c : Cursor) : (take >>= f) c = f c.current c.advance := rfl

theorem accept_bind_of_eq (h : c.current.kind = k) (f : Bool → Parse β) :
    (accept k >>= f) c = f true c.advance :=
  bind_of_ok (by rw [accept, if_pos (beq_iff_eq.mpr h)])

theorem accept_bind_of_ne (h : c.current.kind ≠ k) (f : Bool → Parse β) :
    (accept k >>= f) c = f false c :=
  bind_of_ok (by rw [accept, if_neg (by simpa using h)])

theorem expect_bind (h : c.current.kind = k) (what : Expectation) (f : Token → Parse β) :
    (expect k what >>= f) c = f c.current c.advance :=
  bind_of_ok (by rw [expect, if_pos (beq_iff_eq.mpr h)])

theorem reject_ne_ok {fault : GrammarFault} {a : α} : reject fault c ≠ .ok (a, c') := nofun

theorem accept_ite_of_eq (h : c.current.kind = k) (q r : Parse β) :
    (accept k >>= fun b => if b = true then q else r) c = q c.advance := accept_bind_of_eq h _

theorem accept_ite_of_ne (h : c.current.kind ≠ k) (q r : Parse β) :
    (accept k >>= fun b => if b = true then q else r) c = r c := accept_bind_of_ne h _

theorem accept_bind_eq_ok {f : Bool → Parse α} {r : α × Cursor}
    (h : (accept k >>= f) c = .ok r) :
    c.current.kind = k ∧ f true c.advance = .ok r ∨ c.current.kind ≠ k ∧ f false c = .ok r := by
  by_cases hk : c.current.kind = k
  · rw [accept_bind_of_eq hk] at h
    exact Or.inl ⟨hk, h⟩
  · rw [accept_bind_of_ne hk] at h
    exact Or.inr ⟨hk, h⟩

theorem expect_bind_eq_ok {what : Expectation} {f : Token → Parse α} {r : α × Cursor}
    (h : (expect k what >>= f) c = .ok r) : c.current.kind = k ∧ f c.current c.advance = .ok r := by
  by_cases hk : c.current.kind = k
  · rw [expect_bind hk] at h
    exact ⟨hk, h⟩
  · obtain ⟨t, middle, ht, -⟩ := bind_eq_ok h
    rw [expect, if_neg (by simpa using hk)] at ht
    exact absurd ht reject_ne_ok

theorem behind_of_ne (h : c.current.kind ≠ k) (p : Parse α) : behind k p c = .ok (none, c) := by
  rw [behind, accept_bind_of_ne h]
  rfl

theorem behind_of_eq {p : Parse α} {a : α} (h : c.current.kind = k)
    (hp : p c.advance = .ok (a, c')) : behind k p c = .ok (some a, c') := by
  rw [behind, accept_ite_of_eq h, bind_of_ok hp]
  rfl

/-- The rule takes exactly these symbols whenever what comes behind them is a follower, and its
result is as wanted. -/
def Reads (p : Parse α) (symbols : List Symbol) (follower : List Symbol → Bool)
    (wanted : α → Prop) : Prop :=
  ∀ c rest, c.symbols = symbols ++ rest → follower rest = true →
    ∃ a c', p c = .ok (a, c') ∧ c'.symbols = rest ∧ wanted a

/-- The rule takes these symbols where all tokens ahead have the property. -/
def ReadsAmong (P : Token → Prop) (p : Parse α) (symbols : List Symbol)
    (follower : List Symbol → Bool) (wanted : α → Prop) : Prop :=
  ∀ c rest, c.All P → c.symbols = symbols ++ rest → follower rest = true →
    ∃ a c', p c = .ok (a, c') ∧ c'.All P ∧ c'.symbols = rest ∧ wanted a

theorem reads_iff {p : Parse α} {symbols : List Symbol} {follower : List Symbol → Bool}
    {wanted : α → Prop} :
    Reads p symbols follower wanted ↔ ReadsAmong (fun _ => True) p symbols follower wanted := by
  constructor
  · intro h c rest _ hc hrest
    obtain ⟨a, c', hp, hc', ha⟩ := h c rest hc hrest
    exact ⟨a, c', hp, fun _ _ => trivial, hc', ha⟩
  · intro h c rest hc hrest
    obtain ⟨a, c', hp, -, hc', ha⟩ := h c rest (fun _ _ => trivial) hc hrest
    exact ⟨a, c', hp, hc', ha⟩

section Many

variable {P : Token → Prop} {X : Type} {step : Parse (Option α)} {spell : X → List Symbol}
  (follower : List Symbol → Bool) {last : List Symbol → Bool} {wanted : X → α → Prop}

/-- What follows a first thing is a follower, if the further things and what comes behind them are.
-/
private theorem follower_flatMap {xs : List X} {rest : List Symbol}
    (hnext : ∀ x ∈ xs, ∀ rest, follower (spell x ++ rest) = true) (hrest : follower rest = true) :
    follower (xs.flatMap spell ++ rest) = true := by
  cases xs with
  | nil => exact hrest
  | cons x xs =>
    rw [flatMap_cons, append_assoc]
    exact hnext x mem_cons_self _

variable (hend : last [] = false) (hstop : ∀ c, last c.symbols = true → step c = .ok (none, c))
  (hlast : ∀ rest, last rest = true → follower rest = true)

include hstop hlast

private theorem manyWithin_readsAmong (bound : Nat) (xs : List X)
    (hstep : ∀ x ∈ xs, ReadsAmong P step (spell x) follower fun o => ∃ a, o = some a ∧ wanted x a)
    (hnext : ∀ x ∈ xs, ∀ rest, follower (spell x ++ rest) = true) (hbound : xs.length < bound) :
    ReadsAmong P (manyWithin step bound) (xs.flatMap spell) last (List.Forall₂ wanted xs) := by
  induction xs generalizing bound with
  | nil =>
    intro c rest hall hc hrest
    obtain ⟨bound, rfl⟩ := Nat.exists_eq_add_of_lt hbound
    have hnone := hstop c (by simpa [hc] using hrest)
    refine ⟨[], c, ?_, hall, by simpa using hc, List.Forall₂.nil⟩
    simp only [length_nil, Nat.zero_add, manyWithin]
    rw [bind_of_ok hnone]
    rfl
  | cons x xs ih =>
    intro c rest hall hc hrest
    obtain ⟨bound, rfl⟩ := Nat.exists_eq_succ_of_ne_zero (Nat.ne_zero_of_lt hbound)
    have hfollow := follower_flatMap follower (fun y hy => hnext y (mem_cons_of_mem x hy))
      (hlast rest hrest)
    rw [flatMap_cons, append_assoc] at hc
    obtain ⟨o, middle, hx, hall, hmiddle, a, rfl, ha⟩ := hstep x (by simp) c _ hall hc hfollow
    obtain ⟨as, c', hxs, hall, hc', has⟩ := ih bound (fun y hy => hstep y (by simp [hy]))
      (fun y hy => hnext y (by simp [hy])) (by simpa using hbound) middle rest hall hmiddle hrest
    refine ⟨a :: as, c', ?_, hall, hc', List.Forall₂.cons ha has⟩
    rw [Nat.succ_eq_add_one, manyWithin, bind_of_ok hx]
    simp only
    rw [bind_of_ok hxs]
    rfl

include hend

/-- A repetition reads what its steps read, one after the other. -/
theorem many_readsAmong {xs : List X}
    (hstep : ∀ x ∈ xs, ReadsAmong P step (spell x) follower fun o => ∃ a, o = some a ∧ wanted x a)
    (hnext : ∀ x ∈ xs, ∀ rest, follower (spell x ++ rest) = true)
    (hspell : ∀ x ∈ xs, spell x ≠ []) :
    ReadsAmong P (many step) (xs.flatMap spell) last (List.Forall₂ wanted xs) := by
  intro c rest hall hc hrest
  refine manyWithin_readsAmong follower hstop hlast (c.ahead + 1) xs hstep hnext ?_ c rest hall
    hc hrest
  have hlength : xs.length ≤ (xs.flatMap spell).length := by
    clear hstep hnext hc
    induction xs with
    | nil => simp
    | cons x xs ih =>
      have hx : 0 < (spell x).length := length_pos_iff.mpr (hspell x (by simp))
      have hxs := ih fun y hy => hspell y (by simp [hy])
      simp only [length_cons, flatMap_cons, length_append]
      omega
  have hrest' : 0 < rest.length := by
    rw [length_pos_iff]
    rintro rfl
    simp [hend] at hrest
  have := c.length_symbols
  rw [hc, length_append] at this
  omega

theorem many_reads {xs : List X}
    (hstep : ∀ x ∈ xs, Reads step (spell x) follower fun o => ∃ a, o = some a ∧ wanted x a)
    (hnext : ∀ x ∈ xs, ∀ rest, follower (spell x ++ rest) = true)
    (hspell : ∀ x ∈ xs, spell x ≠ []) :
    Reads (many step) (xs.flatMap spell) last (List.Forall₂ wanted xs) :=
  reads_iff.mpr (many_readsAmong follower hend hstop hlast (fun x hx => reads_iff.mp (hstep x hx))
    hnext hspell)

/-- What is read first and a repetition behind it are read together, whatever is made of them
without reading on. -/
theorem Reads.many_behind {γ : Type} {first : Parse β} {head : List Symbol} {wantedFirst : β → Prop}
    {xs : List X} {f : β → List α → Parse γ} {result : γ → Prop}
    (hfirst : Reads first head follower wantedFirst)
    (hstep : ∀ x ∈ xs, Reads step (spell x) follower fun o => ∃ a, o = some a ∧ wanted x a)
    (hnext : ∀ x ∈ xs, ∀ rest, follower (spell x ++ rest) = true) (hspell : ∀ x ∈ xs, spell x ≠ [])
    (hf : ∀ b as c, wantedFirst b → List.Forall₂ wanted xs as → ∃ r, f b as c = .ok (r, c) ∧
      result r) :
    Reads (first >>= fun b => many step >>= fun as => f b as) (head ++ xs.flatMap spell) last
      result := by
  intro c rest hc hrest
  rw [append_assoc] at hc
  obtain ⟨b, middle, hb, hmiddle, hwanted⟩ :=
    hfirst c _ hc (follower_flatMap follower hnext (hlast rest hrest))
  obtain ⟨as, c', has, hc', hall⟩ :=
    many_reads follower hend hstop hlast hstep hnext hspell middle rest hmiddle hrest
  obtain ⟨r, hr, hresult⟩ := hf b as c' hwanted hall
  exact ⟨r, c', by rw [bind_of_ok hb, bind_of_ok has, hr], hc', hresult⟩

omit hend hstop hlast

/-- A closing parenthesis follows. -/
def closes (rest : List Symbol) : Bool := rest.head?.any (·.1 == .rparen)

theorem exists_cons_of_closes {rest : List Symbol} (h : closes rest = true) :
    ∃ y more, rest = y :: more ∧ y.1 = .rparen := by
  cases rest with
  | nil => cases h
  | cons y more => exact ⟨y, more, rfl, by simpa [closes] using h⟩

/-- The symbols of elements with commas between them. -/
def separated (comma : Symbol) (spell : X → List Symbol) : List X → List Symbol
  | [] => []
  | x :: xs => spell x ++ xs.flatMap fun y => comma :: spell y

section Commas

variable {xs : List X} {element : Parse α} {comma : Symbol} (hcomma : comma.1 = .comma)
  (hcloses : ∀ rest, closes rest = true → follower rest = true)
    (hnext : ∀ rest, follower (comma :: rest) = true)
  (helement : ∀ x ∈ xs, ReadsAmong P element (spell x) follower (wanted x))
  (hspell : ∀ x ∈ xs, ∃ s more, spell x = s :: more ∧ s.1 ≠ .rparen)

include hcomma hcloses hnext helement hspell

/-- Elements behind commas are read one after the other. -/
private theorem afterCommas_readsAmong : ReadsAmong P (afterCommas (· != .rparen) element)
    (xs.flatMap fun x => comma :: spell x) closes (List.Forall₂ wanted xs) := by
  refine many_readsAmong follower rfl ?_ hcloses ?_ (fun x _ rest => hnext _)
    (fun x _ => cons_ne_nil _ _)
  · intro c hc
    obtain ⟨y, more, hy, hparen⟩ := exists_cons_of_closes hc
    have hkind : c.current.kind ≠ .comma := by simp [Cursor.current_kind hy, hparen]
    rw [accept_bind_of_ne hkind]
    rfl
  · intro x hx c rest hall hc hrest
    obtain ⟨s, more, hs, hparen⟩ := hspell x hx
    have hkind : c.current.kind = .comma := (Cursor.current_kind hc).trans hcomma
    have hin : c.advance.symbols = spell x ++ rest := by
      rw [hs] at hc ⊢
      exact Cursor.symbols_advance hc
    have hgoes : c.advance.current.kind ≠ .rparen := by
      rw [hs] at hin
      rwa [Cursor.current_kind hin]
    obtain ⟨a, c', hrun, hall, hc', ha⟩ := helement x hx c.advance rest hall.advance hin hrest
    refine ⟨some a, c', ?_, hall, hc', a, rfl, ha⟩
    rw [accept_bind_of_eq hkind, if_neg (by simp), kind_bind, if_neg (by simp [hgoes]),
      bind_of_ok hrun]
    rfl

/-- Elements between commas are read up to a closing parenthesis. -/
theorem betweenCommas_readsAmong :
    ReadsAmong P (betweenCommas (· != .rparen) element) (separated comma spell xs) closes
    (List.Forall₂ wanted xs) := by
  intro c rest hall hc hrest
  cases xs with
  | nil =>
    obtain ⟨y, more, rfl, hy⟩ := exists_cons_of_closes hrest
    have hkind : c.current.kind = .rparen := (Cursor.current_kind hc).trans hy
    refine ⟨[], c, ?_, hall, hc, .nil⟩
    rw [betweenCommas, kind_bind, hkind]
    rfl
  | cons x xs =>
    have hfollow : follower ((xs.flatMap fun y => comma :: spell y) ++ rest) = true := by
      cases xs with
      | nil => exact hcloses rest hrest
      | cons y xs => exact hnext _
    rw [separated, append_assoc] at hc
    have hkind : c.current.kind ≠ .rparen := by
      obtain ⟨s, more, hs, hparen⟩ := hspell x mem_cons_self
      rw [hs] at hc
      rwa [Cursor.current_kind hc]
    obtain ⟨a, middle, hfirst, hall, hmiddle, ha⟩ := helement x mem_cons_self c _ hall hc hfollow
    obtain ⟨as, c', hrun, hall, hc', has⟩ := afterCommas_readsAmong follower hcomma hcloses hnext
      (fun y hy => helement y (mem_cons_of_mem _ hy)) (fun y hy => hspell y (mem_cons_of_mem _ hy))
      middle rest hall hmiddle hrest
    refine ⟨a :: as, c', ?_, hall, hc', .cons ha has⟩
    rw [betweenCommas, kind_bind, if_neg (by simp [hkind]), bind_of_ok hfirst, bind_of_ok hrun]
    rfl

end Commas

end Many

end Parse

end NameInference
