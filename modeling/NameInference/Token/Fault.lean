import NameInference.Token

/-!
# Syntax errors

A source text is rejected at one position for one reason. The reason is a value; its wording is
given by `SyntaxFault.wording` and nowhere else.
-/

namespace NameInference

/-- What the grammar wanted to see instead of the token that stands there. -/
inductive Expectation where
  | endOfLine | indentedBlock | identifier | decoratorEnd | functionName | className
  | openParen | closeParen | closeBracket | closeBrace | colon | parameterName
  | keywordDef | keywordClass | keywordIn | keywordFor | keywordWith | keywordImport
  | moduleName | importedName | conditionalElse | attributeName
  deriving DecidableEq, Repr

/-- The phrase that names what was expected. -/
def Expectation.phrase : Expectation → String
  | .endOfLine => "end of line"
  | .indentedBlock => "an indented block"
  | .identifier => "identifier"
  | .decoratorEnd => "end of line after decorator"
  | .functionName => "function name"
  | .className => "class name"
  | .openParen => "'('"
  | .closeParen => "')'"
  | .closeBracket => "']'"
  | .closeBrace => "'\x7d'"
  | .colon => "':'"
  | .parameterName => "parameter name"
  | .keywordDef => "'def'"
  | .keywordClass => "'class'"
  | .keywordIn => "'in'"
  | .keywordFor => "'for'"
  | .keywordWith => "'with'"
  | .keywordImport => "'import'"
  | .moduleName => "module name"
  | .importedName => "imported name"
  | .conditionalElse => "'else' in conditional expression"
  | .attributeName => "attribute name"

/-- A token that no rule of the grammar accepts where it stands. -/
inductive GrammarFault where
  | expected (what : Expectation)
  | unexpectedIndent
  | asyncWithoutBlock
  | delWithoutTarget
  | invalidSyntax
  | decoratorWithoutDefinition
  | tryWithoutHandler
  | expectedExpression
  | nestingTooDeep
  deriving DecidableEq, Repr

/-- The wording of a grammar fault, without the token that was found. -/
def GrammarFault.wording : GrammarFault → String
  | .expected what => "expected " ++ what.phrase
  | .unexpectedIndent => "unexpected indent"
  | .asyncWithoutBlock => "expected 'def', 'for' or 'with' after 'async'"
  | .delWithoutTarget => "expected a target after 'del'"
  | .invalidSyntax => "invalid syntax"
  | .decoratorWithoutDefinition => "expected 'def' or 'class' after decorator"
  | .tryWithoutHandler => "expected 'except' or 'finally' block"
  | .expectedExpression => "expected expression"
  | .nestingTooDeep => "too deeply nested"

/-- Why a source text is rejected. -/
inductive SyntaxFault where
  | unterminatedString
  | unterminatedTripleString
  | unfinishedStatement
  | unmatchedUnindent
  | afterContinuation
  | unexpectedByte (byte : UInt8)
  | grammar (fault : GrammarFault) (found : TokenKind) (text : Text)
  deriving DecidableEq, Repr

/-- The wording of a fault. A found token is shown with its text, unless that is empty or a line
end. -/
def SyntaxFault.wording : SyntaxFault → Text
  | .unterminatedString => "unterminated string literal"
  | .unterminatedTripleString => "unterminated triple-quoted string literal"
  | .unfinishedStatement => "unexpected EOF in multi-line statement"
  | .unmatchedUnindent => "unindent does not match any outer indentation level"
  | .afterContinuation => "unexpected character after line continuation"
  | .unexpectedByte byte => "unexpected character '" ++ [byte] ++ "'"
  | .grammar fault found text =>
    let shown : Text := if text.isEmpty || found == .newline then [] else
      " '" ++ text ++ "'"
    Text.ofString (fault.wording ++ " (got " ++ found.name) ++ shown ++ ")"

/-- A rejection: the file, the position and the reason. -/
structure SyntaxError where
  file : Text
  position : Position
  fault : SyntaxFault
  deriving DecidableEq, Repr

/-- The wording with the place in front of it; messages end before a zero byte. -/
def SyntaxError.message (e : SyntaxError) : Text :=
  Text.untilZero (e.file ++ ":" ++ Text.ofNat e.position.line ++ ":"
    ++ Text.ofNat e.position.col ++ ": " ++ e.fault.wording)

end NameInference
