import Mathlib.Order.Nat
import NameInference.Proofs.Syntax.Reads

/-!
# Rules that take tokens

In a sequence of tokens of which the last, and no other, is an end, a rule of the grammar passes
over a token by taking it, never passes the end, and gives up only at a token that it cannot accept.
Two rules are followed side by side that differ only in the rules they use once a token has been
taken: where these do the same, so do they. What a rule does is thereby traced back to fewer tokens,
and a repetition comes to its end.
-/

namespace NameInference

open List

/-- The last token, and no other, is an end. -/
def Terminated (tokens : List Token) : Prop :=
  ∃ before last, tokens = before ++ [last] ∧ last.kind = .done ∧ ∀ t ∈ before, t.kind ≠ .done

/-- The error that rejects a token. -/
def Token.rejection (t : Token) (fault : GrammarFault) : SyntaxError :=
  ⟨t.file, t.start, .grammar fault t.kind t.text⟩

namespace Terminated

variable {t : Token} {tokens : List Token}

/-- Tokens that are terminated are so from each of them on. -/
theorem of_append {ts : List Token} (h : Terminated (ts ++ t :: tokens)) :
    Terminated (t :: tokens) := by
  obtain ⟨before, last, heq, hlast, hbefore⟩ := h
  rcases append_eq_append_iff.mp heq with ⟨more, rfl, hmore⟩ | ⟨more, rfl, hmore⟩
  · exact ⟨more, last, hmore, hlast, fun t ht => hbefore t (mem_append_right _ ht)⟩
  · cases more with
    | nil => exact ⟨[], last, hmore.symm, hlast, nofun⟩
    | cons first more => simp at hmore

/-- Only the end has nothing behind it. -/
theorem kind_eq_done_iff (h : Terminated (t :: tokens)) : t.kind = .done ↔ tokens = [] := by
  obtain ⟨before, last, heq, hlast, hbefore⟩ := h
  cases before with
  | nil =>
    obtain ⟨rfl, rfl⟩ := List.cons.inj heq
    exact iff_of_true hlast rfl
  | cons first before =>
    obtain ⟨rfl, rfl⟩ := List.cons.inj heq
    exact iff_of_false (hbefore t mem_cons_self) (by simp)

end Terminated

namespace Cursor

/-- The tokens from the current one on. -/
def tokens (c : Cursor) : List Token := c.current :: c.rest

/-- One cursor is reached from another by taking the given tokens one after the other. -/
inductive Takes : Cursor → List Token → Cursor → Prop where
  | nil (c : Cursor) : Takes c [] c
  | cons {c c' : Cursor} {ts : List Token} (more : c.rest ≠ []) (rest : Takes c.advance ts c') :
      Takes c (c.current :: ts) c'

/-- What is taken and what is left are the tokens ahead. -/
theorem tokens_advance {c : Cursor} (h : c.rest ≠ []) :
    c.current :: c.advance.tokens = c.tokens := by
  obtain ⟨current, rest, lastEnd⟩ := c
  cases rest with
  | nil => exact absurd rfl h
  | cons next rest => rfl

namespace Takes

variable {c c' c'' : Cursor} {ts us : List Token}

/-- Tokens are taken one run after the other. -/
theorem trans (h : c.Takes ts c') (h' : c'.Takes us c'') : c.Takes (ts ++ us) c'' := by
  induction h with
  | nil => exact h'
  | cons more _ ih => exact .cons more (ih h')

/-- What is taken and what is left are all the tokens. -/
theorem tokens_eq (h : c.Takes ts c') : c.tokens = ts ++ c'.tokens := by
  induction h with
  | nil => rfl
  | cons more _ ih => rw [← tokens_advance more, ih, cons_append]

/-- Every token that is taken is one fewer ahead. -/
theorem ahead_eq (h : c.Takes ts c') : c.ahead = ts.length + c'.ahead := by
  have := congrArg List.length h.tokens_eq
  simp only [tokens, length_cons, length_append] at this
  simp only [ahead]
  omega

/-- The end stays the last token, however many are taken. -/
theorem terminated (h : c.Takes ts c') (hc : Terminated c.tokens) : Terminated c'.tokens := by
  rw [h.tokens_eq] at hc
  exact hc.of_append

end Takes

end Cursor

namespace Parse

variable {α β : Type}

/-- How a rule may end that was begun at a cursor: behind at least `least` tokens, or by rejecting
one for a reason other than the depth of nesting. -/
def Ends (c : Cursor) (least : α → Nat) : Except SyntaxError (α × Cursor) → Prop
  | .ok (a, c') => ∃ ts, c.Takes ts c' ∧ least a ≤ ts.length
  | .error e => ∃ t ∈ c.tokens, ∃ fault, fault ≠ .nestingTooDeep ∧ e = t.rejection fault

/-- With fewer than `m` tokens ahead, at a token of a kind in `K`, the two rules do the same, and
they end behind at least `least` tokens. -/
def Agree (K : TokenKind → Prop) (m : Nat) (least : α → Nat) (p q : Parse α) : Prop :=
  ∀ c, Terminated c.tokens → c.ahead < m → K c.current.kind → q c = p c ∧ Ends c least (p c)

/-- With fewer than `n` tokens ahead the rules do the same. -/
abbrev Stay (n : Nat) (p q : Parse α) : Prop := Agree (fun _ => True) n (fun _ => 0) p q

/-- The rule comes to its end, wherever it is begun. -/
abbrev Stays (n : Nat) (p : Parse α) : Prop := Stay n p p

/-- With up to `n` tokens ahead the rules do the same and take one, so that fewer are left. -/
abbrev TakeAt (K : TokenKind → Prop) (n : Nat) (p q : Parse α) : Prop :=
  Agree K (n + 1) (fun _ => 1) p q

/-- The rules take a token whatever it is. -/
abbrev Take (n : Nat) (p q : Parse α) : Prop := TakeAt (fun _ => True) n p q

/-- The rules do the same and take a token if they give something. -/
abbrev Step (m : Nat) (p q : Parse (Option α)) : Prop :=
  Agree (fun _ => True) m (fun o => o.isSome.toNat) p q

variable {K K' : TokenKind → Prop} {m m' n : Nat} {least least' : α → Nat} {p p' : Parse α}
  {f f' : α → Parse β}

/-- Agreement with fewer tokens ahead, on fewer taken and at fewer kinds. -/
theorem Agree.mono (h : Agree K m least p p') (hm : m' ≤ m) (hleast : ∀ a, least' a ≤ least a)
    (hK : ∀ k, K' k → K k) : Agree K' m' least' p p' := by
  intro c hc hahead hkind
  obtain ⟨heq, hends⟩ := h c hc (hahead.trans_le hm) (hK _ hkind)
  refine ⟨heq, ?_⟩
  cases hrun : p c with
  | error e => simpa [Ends, hrun] using hends
  | ok r =>
    rw [hrun] at hends
    obtain ⟨ts, htakes, hle⟩ := hends
    exact ⟨ts, htakes, (hleast _).trans hle⟩

/-- What agrees at any token agrees at those of some kinds. -/
theorem Agree.at (h : Agree (fun _ => True) m least p p') : Agree K m least p p' :=
  h.mono le_rfl (fun _ => le_rfl) fun _ _ => trivial

/-- How many tokens are taken need not matter. -/
theorem Agree.stay {k : Nat} (h : Agree K m (fun _ => k) p p') : Agree K m (fun _ => 0) p p' :=
  h.mono le_rfl (fun _ => Nat.zero_le _) fun _ => id

theorem Agree.pred (h : Agree K m least p p') : Agree K (m - 1) least p p' :=
  h.mono (Nat.sub_le m 1) (fun _ => le_rfl) fun _ => id

/-- What the first rule takes is no longer ahead of the second and counts for both. -/
theorem Agree.bind {most : β → Nat} (hp : Agree K m least p p')
    (hf : ∀ a, Agree (fun _ => True) (m - least a) (fun b => most b - least a) (f a) (f' a)) :
    Agree K m most (p >>= f) (p' >>= f') := by
  intro c hc hahead hkind
  obtain ⟨heq, hends⟩ := hp c hc hahead hkind
  cases hrun : p c with
  | error e =>
    rw [hrun] at heq hends
    have hfails {q : Parse α} {g : α → Parse β} (h : q c = .error e) : (q >>= g) c = .error e := by
      simp only [Bind.bind, StateT.bind, h, Except.bind]
    rw [hfails heq, hfails hrun]
    exact ⟨rfl, hends⟩
  | ok r =>
    obtain ⟨a, c'⟩ := r
    rw [hrun] at heq hends
    obtain ⟨ts, htakes, hle⟩ := hends
    have hlt : c'.ahead < m - least a := by
      have := htakes.ahead_eq
      omega
    obtain ⟨heq', hends'⟩ := hf a c' (htakes.terminated hc) hlt trivial
    rw [bind_of_ok heq, bind_of_ok hrun]
    refine ⟨heq', ?_⟩
    cases hrun' : f a c' with
    | error e =>
      rw [hrun'] at hends'
      obtain ⟨t, ht, hfault⟩ := hends'
      refine ⟨t, ?_, hfault⟩
      rw [htakes.tokens_eq]
      exact mem_append_right _ ht
    | ok r' =>
      rw [hrun'] at hends'
      obtain ⟨us, htakes', hle'⟩ := hends'
      refine ⟨ts ++ us, htakes.trans htakes', ?_⟩
      beta_reduce at hle'
      rw [length_append]
      omega

/-- Behind a rule that takes a token, another one may take none. -/
theorem Agree.take_bind (hp : TakeAt K n p p') (hf : ∀ a, Stay n (f a) (f' a)) :
    TakeAt K n (p >>= f) (p' >>= f') :=
  hp.bind hf

/-- Behind a rule that takes no token for sure, another one may take some. -/
theorem Agree.stay_bind {most : β → Nat} (hp : Agree K m (fun _ => 0) p p')
    (hf : ∀ a, Agree (fun _ => True) m most (f a) (f' a)) : Agree K m most (p >>= f) (p' >>= f') :=
  hp.bind hf

/-- A result takes no token. -/
theorem agree_pure (a : α) (h : least a = 0) : Agree K m least (pure a) (pure a) :=
  fun c _ _ _ => ⟨rfl, [], .nil c, h.le⟩

theorem stay_pure (a : α) : Agree K m (fun _ => 0) (pure a) (pure a) := agree_pure a rfl

/-- A step behind which nothing is left to do but to give a result. -/
theorem Agree.map {g : α → β} {k : Nat} (h : Agree K m (fun _ => k) p p') :
    Agree K m (fun _ => k) (p >>= fun a => pure (g a)) (p' >>= fun a => pure (g a)) :=
  h.bind fun _ => agree_pure _ (Nat.sub_self k)

/-- What takes a token in any case takes one if it gives something. -/
theorem Agree.step {p p' : Parse (Option α)} (h : Agree K m (fun _ => 1) p p') :
    Agree K m (fun o => o.isSome.toNat) p p' :=
  h.mono le_rfl (fun _ => Bool.toNat_le _) fun _ => id

/-- A rejection names the current token. -/
theorem agree_reject {fault : GrammarFault} (h : fault ≠ .nestingTooDeep) :
    Agree K m least (reject fault) (reject fault) :=
  fun _ _ _ _ => ⟨rfl, _, mem_cons_self, fault, h, rfl⟩

/-- Behind a rejection there is nothing to follow. -/
theorem agree_reject_bind {fault : GrammarFault} {most : β → Nat} (h : fault ≠ .nestingTooDeep) :
    Agree K m most (reject fault >>= f) (reject fault >>= f') :=
  fun _ _ _ _ => ⟨rfl, _, mem_cons_self, fault, h, rfl⟩

/-- Rules agree that decide alike and agree either way. -/
theorem Agree.ite {C : Prop} [Decidable C] {q q' : Parse α} (hp : C → Agree K m least p p')
    (hq : ¬ C → Agree K m least q q') :
    Agree K m least (if C then p else q) (if C then p' else q') := by
  split
  case isTrue h => exact hp h
  case isFalse h => exact hq h

section Current

variable {most : β → Nat} {k : TokenKind} {what : Expectation}

/-- What follows a look at the kind of the current token begins at that kind. -/
theorem agree_kind_bind {f f' : TokenKind → Parse β}
    (h : ∀ k, K k → Agree (· = k) m most (f k) (f' k)) :
    Agree K m most (kind >>= f) (kind >>= f') := by
  intro c hc hahead hkind
  rw [kind_bind, kind_bind]
  exact h c.current.kind hkind c hc hahead rfl

theorem agree_token_bind {f f' : Token → Parse β}
    (h : ∀ t, K t.kind → Agree (· = t.kind) m most (f t) (f' t)) :
    Agree K m most (token >>= f) (token >>= f') := by
  intro c hc hahead hkind
  rw [token_bind, token_bind]
  exact h c.current hkind c hc hahead rfl

theorem agree_nextKind_bind {f f' : TokenKind → Parse β} (h : ∀ k, Agree K m most (f k) (f' k)) :
    Agree K m most (nextKind >>= f) (nextKind >>= f') :=
  fun c hc hahead hkind => h (c.rest.headD c.current).kind c hc hahead hkind

theorem agree_start_bind {f f' : Position → Parse β} (h : ∀ s, Agree K m most (f s) (f' s)) :
    Agree K m most (start >>= f) (start >>= f') :=
  fun c hc hahead hkind => h c.current.start c hc hahead hkind

theorem agree_spanFrom_bind {s : Position} {f f' : Span → Parse β}
    (h : ∀ span, Agree K m most (f span) (f' span)) :
    Agree K m most (spanFrom s >>= f) (spanFrom s >>= f') :=
  fun c hc hahead hkind => h ⟨s, c.lastEnd⟩ c hc hahead hkind

/-- A token that is not the end can be taken. -/
theorem takes_advance {c : Cursor} (hc : Terminated c.tokens) (h : c.current.kind ≠ .done) :
    c.Takes [c.current] c.advance :=
  .cons (mt hc.kind_eq_done_iff.mpr h) (.nil _)

/-- Every token but the end can be taken. -/
theorem agree_take : Agree (· ≠ .done) m (fun _ => 1) take take :=
  fun _ hc _ hkind => ⟨rfl, _, takes_advance hc hkind, le_rfl⟩

/-- A rule that begins with any token but the end begins with one of a given kind. -/
theorem Agree.of_ne_done (h : Agree (· ≠ .done) m least p p') (hk : k ≠ .done) :
    Agree (· = k) m least p p' := by
  refine h.mono le_rfl (fun _ => le_rfl) ?_
  rintro _ rfl
  exact hk

/-- A rule that begins with a token of a certain kind. -/
theorem take_first (hk : k ≠ .done) {f f' : Token → Parse β} (hf : ∀ t, Stay n (f t) (f' t)) :
    Agree (· = k) n (fun _ => 1) (take >>= f) (take >>= f') :=
  (agree_take.of_ne_done hk).bind fun t => (hf t).pred

theorem ne_done_of_beq {wanted : TokenKind} (h : (k == wanted) = true) (hwanted : wanted ≠ .done) :
    k ≠ .done := by
  rwa [beq_iff_eq.mp h]

/-- Taking the end leaves it where it is. -/
theorem stay_take : Stay m take take := by
  intro c hc _ _
  refine ⟨rfl, ?_⟩
  by_cases hdone : c.current.kind = .done
  · have hstays : c.advance = c := by
      obtain ⟨current, rest, lastEnd⟩ := c
      obtain rfl : rest = [] := hc.kind_eq_done_iff.mp hdone
      simp [Cursor.advance, show current.kind = .done from hdone, TokenKind.isLayout]
    refine ⟨[], ?_, le_rfl⟩
    rw [hstays]
    exact .nil c
  · exact ⟨_, takes_advance hc hdone, Nat.zero_le _⟩

/-- An expected token is taken, any other one rejected. -/
theorem agree_expect_of {least : Token → Nat} (h : Agree (· = k) m least take take) :
    Agree K m least (expect k what) (expect k what) := by
  intro c hc hahead _
  refine ⟨rfl, ?_⟩
  rw [expect]
  split
  case isTrue hk => exact (h c hc hahead (beq_iff_eq.mp hk)).2
  case isFalse hk => exact ⟨c.current, mem_cons_self, .expected what, by rintro ⟨⟩, rfl⟩

theorem agree_expect (hk : k ≠ .done) : Agree K m (fun _ => 1) (expect k what) (expect k what) :=
  agree_expect_of (agree_take.of_ne_done hk)

theorem stay_expect : Agree K m (fun _ => 0) (expect k what) (expect k what) :=
  agree_expect_of stay_take.at

theorem stay_expect_bind {f f' : Token → Parse β}
    (hf : ∀ t, Agree (fun _ => True) m most (f t) (f' t)) :
    Agree K m most (expect k what >>= f) (expect k what >>= f') :=
  stay_expect.stay_bind hf

/-- A token that is not accepted is still the current one. -/
theorem agree_accept_bind {f f' : Bool → Parse β}
    (htrue : Agree (· = k) m most (take >>= fun _ => f true) (take >>= fun _ => f' true))
    (hfalse : Agree K m most (f false) (f' false)) :
    Agree K m most (accept k >>= f) (accept k >>= f') := by
  intro c hc hahead hkind
  by_cases h : c.current.kind = k
  · rw [accept_bind_of_eq h, accept_bind_of_eq h]
    exact htrue c hc hahead h
  · rw [accept_bind_of_ne h, accept_bind_of_ne h]
    exact hfalse c hc hahead hkind

theorem stay_accept : Agree K m (fun _ => 0) (accept k) (accept k) := by
  rw [← bind_pure (accept k)]
  exact agree_accept_bind (stay_take.at.stay_bind fun _ => stay_pure _) (stay_pure _)

/-- A first token decides between two ways to go on. -/
theorem take_accept_ite {q q' r r' : Parse β} (hk : k ≠ .done) (hq : Stay n q q')
    (hr : TakeAt K n r r') :
    TakeAt K n (accept k >>= fun b => if b = true then q else r)
      (accept k >>= fun b => if b = true then q' else r') :=
  agree_accept_bind ((agree_take.of_ne_done hk).take_bind fun _ => hq) hr

/-- A token that may stand in front. -/
theorem take_accept_bind {f f' : Bool → Parse β}
    (h : ∀ accepted, Take n (f accepted) (f' accepted)) :
    Take n (accept k >>= f) (accept k >>= f') :=
  stay_accept.stay_bind h

/-- A token that may be missing decides between two ways to go on. -/
theorem stay_accept_ite {q q' r r' : Parse β} (hq : Stay n q q')
    (hr : Agree K n (fun _ => 0) r r') :
    Agree K n (fun _ => 0) (accept k >>= fun b => if b = true then q else r)
      (accept k >>= fun b => if b = true then q' else r') :=
  agree_accept_bind (stay_take.at.stay_bind fun _ => hq) hr

/-- Once a round has taken a token it need not take another. -/
theorem Agree.behind_token {q q' : Parse (Option β)} (h : Stay m q q') :
    Agree (fun _ => True) m (fun o => o.isSome.toNat - 1) q q' :=
  h.mono le_rfl (fun _ => (Nat.sub_eq_zero_of_le (Bool.toNat_le _)).le) fun _ => id

/-- A round that begins by accepting a token takes one. -/
theorem step_accept_bind {f f' : Bool → Parse (Option β)} (hk : k ≠ .done)
    (htrue : Stay n (f true) (f' true))
    (hfalse : Agree K n (fun o => o.isSome.toNat) (f false) (f' false)) :
    Agree K n (fun o => o.isSome.toNat) (accept k >>= f) (accept k >>= f') :=
  agree_accept_bind ((agree_take.of_ne_done hk).bind fun _ => htrue.pred.behind_token) hfalse

end Current

/-- A repetition ends, since each round that gives something takes a token. -/
theorem stay_many {step step' : Parse (Option α)} (h : Step m step step') :
    Stay m (many step) (many step') := by
  -- A round that gives something leaves fewer tokens ahead, so the bound is never reached.
  have hwithin (bound : Nat) : Stay (min m bound) (manyWithin step bound)
      (manyWithin step' bound) := by
    induction bound with
    | zero => exact fun c _ hahead => absurd hahead (by simp)
    | succ bound ih =>
      have hstep : Step (min m (bound + 1)) step step' :=
        h.mono (min_le_left _ _) (fun _ => le_rfl) fun _ => id
      refine hstep.bind fun o => ?_
      cases o with
      | none => exact stay_pure _
      | some a =>
        have hle : min m (bound + 1) - 1 ≤ min m bound := by omega
        exact (ih.mono hle (fun _ => le_rfl) fun _ => id).map
  intro c hc hahead hkind
  exact hwithin (c.ahead + 1) c hc (lt_min hahead (Nat.lt_succ_self _)) hkind

/-- A repetition ends with a round that gives nothing. -/
theorem exists_none_of_many {step : Parse (Option α)} {c c' : Cursor} {as : List α}
    (h : many step c = .ok (as, c')) :
    ∃ last, step last = .ok (none, c') := by
  rw [many] at h
  generalize c.ahead + 1 = bound at h
  induction bound generalizing c as with
  | zero => cases h
  | succ bound ih =>
    obtain ⟨o, middle, hstep, hrest⟩ := bind_eq_ok h
    cases o with
    | none =>
      cases hrest
      exact ⟨c, hstep⟩
    | some a =>
      obtain ⟨more, _, hmore, hpure⟩ := bind_eq_ok hrest
      cases hpure
      exact ih hmore

/-- A repetition takes tokens at which it does not stop. -/
theorem take_many {step step' : Parse (Option α)} (h : Step m step step')
    (hstop : ∀ c c', step c = .ok (none, c') → ¬ K c'.current.kind) :
    Agree K m (fun _ => 1) (many step) (many step') := by
  intro c hc hahead hkind
  obtain ⟨heq, hends⟩ := stay_many h c hc hahead trivial
  refine ⟨heq, ?_⟩
  cases hrun : many step c with
  | error e => simpa [Ends, hrun] using hends
  | ok r =>
    rw [hrun] at hends
    obtain ⟨ts, htakes, -⟩ := hends
    obtain ⟨last, hlast⟩ := exists_none_of_many hrun
    cases htakes with
    | nil => exact absurd hkind (hstop _ _ hlast)
    | cons more rest => exact ⟨_, .cons more rest, Nat.succ_le_succ (Nat.zero_le _)⟩

/-- What may stand behind a token takes at least that token. -/
theorem step_behind {k : TokenKind} (hk : k ≠ .done) (h : Stay n p p') :
    Step n (behind k p) (behind k p') :=
  step_accept_bind hk h.map (agree_pure _ rfl)

theorem stay_behind {k : TokenKind} (h : Stay n p p') : Stay n (behind k p) (behind k p') :=
  stay_accept_ite h.map (stay_pure _)

theorem stay_afterCommas {goesOn : TokenKind → Bool} (h : Stay n p p') :
    Stay n (afterCommas goesOn p) (afterCommas goesOn p') := by
  refine stay_many (step_accept_bind nofun ?_ (agree_pure _ rfl))
  exact agree_kind_bind fun k _ => .ite (fun _ => stay_pure _) fun _ => h.map.at

/-- Elements between commas come to their end if each element does. -/
theorem stay_betweenCommas {goesOn : TokenKind → Bool} (h : Stay n p p') :
    Stay n (betweenCommas goesOn p) (betweenCommas goesOn p') := by
  refine agree_kind_bind fun k _ => .ite (fun _ => stay_pure _) fun _ => ?_
  exact h.at.stay_bind fun _ => (stay_afterCommas h).map

/-- With fewer than `n` tokens ahead, the rules of two families do the same, and every rule takes a
token. -/
def AgreeAll {ι : Type} (n : Nat) (p q : ι → Parse α) : Prop :=
  ∀ i, Agree (fun _ => True) n (fun _ => 1) (p i) (q i)

section Closing

variable {ι : Type} {rule : (ι → Parse α) → ι → Parse α} (within : Nat → ι → Parse α)
  (closed : ι → Parse α) (hrule : ∀ {n p q}, AgreeAll n p q → AgreeAll (n + 1) (rule p) (rule q))
  (hwithin : ∀ depth, within (depth + 1) = rule (within depth))
    (hclosed : ∀ i c, closed i c = within (c.ahead + 1) i c)

include hrule hwithin

/-- Depths beyond the number of tokens do the same. -/
theorem agreeAll_within {depth depth' : Nat} (hdepth : n ≤ depth) (hdepth' : n ≤ depth') :
    AgreeAll n (within depth) (within depth') := by
  induction n generalizing depth depth' with
  | zero => exact fun _ _ _ hahead => absurd hahead (Nat.not_lt_zero _)
  | succ n ih =>
    obtain ⟨depth, rfl⟩ := Nat.exists_eq_add_one_of_ne_zero (Nat.ne_zero_of_lt hdepth)
    obtain ⟨depth', rfl⟩ := Nat.exists_eq_add_one_of_ne_zero (Nat.ne_zero_of_lt hdepth')
    rw [hwithin, hwithin]
    exact hrule (ih (Nat.le_of_succ_le_succ hdepth) (Nat.le_of_succ_le_succ hdepth'))

include hclosed

/-- As many levels as there are tokens ahead are enough. -/
theorem agreeAll_within_closed (n : Nat) : AgreeAll n (within n) closed := by
  intro i c hc hahead hkind
  refine ⟨?_, (agreeAll_within within hrule hwithin le_rfl le_rfl i c hc hahead hkind).2⟩
  rw [hclosed]
  exact (agreeAll_within within hrule hwithin hahead le_rfl i c hc (Nat.lt_succ_self _) hkind).1

/-- The rules for any depth take a token and come to their end. -/
theorem agreeAll_closed : AgreeAll n closed closed := by
  intro i c hc hahead hkind
  obtain ⟨heq, hends⟩ :=
    agreeAll_within_closed within closed hrule hwithin hclosed n i c hc hahead hkind
  exact ⟨rfl, heq ▸ hends⟩

/-- At a cursor the rules are determined by what the nested rules do with fewer tokens ahead. -/
theorem rule_eq_closed (inner : ι → Parse α) {c : Cursor} (hc : Terminated c.tokens)
    (h : ∀ i c', Terminated c'.tokens → c'.ahead < c.ahead → inner i c' = closed i c') (i : ι) :
    rule inner i c = closed i c := by
  have hinner : AgreeAll c.ahead (within c.ahead) inner := by
    intro i c' hc' hahead hkind
    obtain ⟨heq, hends⟩ :=
      agreeAll_within_closed within closed hrule hwithin hclosed _ i c' hc' hahead hkind
    exact ⟨(h i c' hc' hahead).trans heq, hends⟩
  rw [hclosed, hwithin]
  exact (hrule hinner i c hc (Nat.lt_succ_self _) trivial).1

end Closing

end Parse

end NameInference
