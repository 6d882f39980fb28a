import NameInference.Token.Fault
import NameInference.Syntax.Node

/-!
# Reading tokens

A cursor stands at one token of a sequence that ends in an end token, which is never passed. It
remembers where the last token that is not layout ended: that is where a node ends when its last
token has been taken. Repetition is bounded by the number of tokens ahead, which is enough for every
step that takes a token.
-/

namespace NameInference

/-- A position in a sequence of tokens. -/
structure Cursor where
  current : Token
  rest : List Token
  lastEnd : Position := ⟨1, 1⟩

namespace Cursor

/-- The first position of a sequence; the empty sequence has only an end. -/
def ofTokens : List Token → Cursor
  | [] => ⟨default, [], ⟨1, 1⟩⟩
  | first :: rest => ⟨first, rest, ⟨1, 1⟩⟩

/-- The position behind the current token. The last token is not passed. -/
def advance (c : Cursor) : Cursor :=
  let lastEnd := if c.current.kind.isLayout then c.lastEnd else c.current.stop
  match c.rest with
  | [] => { c with lastEnd }
  | next :: rest => ⟨next, rest, lastEnd⟩

/-- Tokens ahead of the current one. -/
def ahead (c : Cursor) : Nat := c.rest.length

end Cursor

/-- A rule of the grammar: it moves the cursor and gives a result, or rejects the current token. -/
abbrev Parse := StateT Cursor (Except SyntaxError)

namespace Parse

/-- Rejects the current token. -/
def reject {α : Type} (fault : GrammarFault) : Parse α := fun c =>
  .error ⟨c.current.file, c.current.start, .grammar fault c.current.kind c.current.text⟩

/-- The current token, which is not taken. -/
def token : Parse Token := fun c => .ok (c.current, c)

/-- The kind of the current token. -/
def kind : Parse TokenKind := fun c => .ok (c.current.kind, c)

/-- The kind of the token after the current one. -/
def nextKind : Parse TokenKind := fun c => .ok ((c.rest.headD c.current).kind, c)

/-- Where the current token begins. -/
def start : Parse Position := fun c => .ok (c.current.start, c)

/-- Takes the current token. -/
def take : Parse Token := fun c => .ok (c.current, c.advance)

/-- Takes the current token if it is of the given kind. -/
def accept (wanted : TokenKind) : Parse Bool := fun c =>
  if c.current.kind == wanted then .ok (true, c.advance) else .ok (false, c)

/-- Takes a token of the given kind. -/
def expect (wanted : TokenKind) (what : Expectation) : Parse Token := fun c =>
  if c.current.kind == wanted then .ok (c.current, c.advance) else reject (.expected what) c

/-- The span from `start` to the end of the last token taken. -/
def spanFrom (start : Position) : Parse Span := fun c => .ok (⟨start, c.lastEnd⟩, c)

/-- Repeats `step` at most `bound` times, until it gives nothing. -/
def manyWithin {α : Type} (step : Parse (Option α)) : Nat → Parse (List α)
  | 0 => reject .nestingTooDeep
  | bound + 1 => do
    match ← step with
    | none => return []
    | some a => return a :: (← manyWithin step bound)

/-- Repeats a step that takes a token whenever it gives something. -/
def many {α : Type} (step : Parse (Option α)) : Parse (List α) :=
  fun c => manyWithin step (c.ahead + 1) c

/-- Elements that each follow a comma. A comma may also stand before a token that does not go on. -/
def afterCommas {α : Type} (goesOn : TokenKind → Bool) (element : Parse α) : Parse (List α) :=
  many do
    if !(← accept .comma) then return none
    if !goesOn (← kind) then return none
    return some (← element)

/-- Elements between commas, none if the first token does not go on. -/
def betweenCommas {α : Type} (goesOn : TokenKind → Bool) (element : Parse α) : Parse (List α) := do
  if !goesOn (← kind) then return []
  let first ← element
  return first :: (← afterCommas goesOn element)

/-- One or more elements between commas. -/
def oneOrMore {α : Type} (element : Parse α) : Parse (List α) :=
  betweenCommas (fun _ => true) element

/-- Runs `rule` if a token of the given kind can be taken first. -/
def behind {α : Type} (wanted : TokenKind) (rule : Parse α) : Parse (Option α) := do
  if ← accept wanted then return some (← rule) else return none

end Parse

/-- The name node of an identifier token. -/
def Token.toName (t : Token) (usage : Usage) : Node := .mk t.span usage (.name t.text)

end NameInference
