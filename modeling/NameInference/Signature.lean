import NameInference.Value.Describe

/-!
# Signatures

How a function is called, as it is shown: the parameters with their hints and defaults in the words
of the source.
-/

namespace NameInference

/-- A parameter as it is shown. -/
structure SignatureParam where
  name : Text
  kind : ParamKind := .positionalOrKeyword
  hint : Option Text := none
  default : Option Text := none
  deriving DecidableEq, Inhabited

/-- A function as it is shown. A bound signature leaves out the first parameter. -/
structure Signature where
  name : Text
  params : List SignatureParam := []
  returns : Option Text := none
  isBound : Bool := false
  deriving DecidableEq, Inhabited

namespace SignatureParam

/-- The parameter as it is written; blanks stand around the sign before a default only behind a
hint. -/
def text (p : SignatureParam) : Text :=
  let stars : Text := match p.kind with
    | .varPositional => "*"
    | .varKeyword => "**"
    | _ => []
  let hint : Text := match p.hint with
    | some hint => ": " ++ hint
    | none => []
  let default : Text := match p.default with
    | some default => Text.ofString (if p.hint.isSome then " = " else "=") ++ default
    | none => []
  stars ++ p.name ++ hint ++ default

end SignatureParam

namespace Signature

/-- The parameters with the markers between them. A lone star stands before the first keyword-only
parameter unless a star stood before (`starred`), a slash behind every run of positional-only ones.
-/
def pieces (starred : Bool) : List SignatureParam → List Text
  | [] => []
  | p :: rest =>
    let starred := starred || p.kind == .varPositional
    let star := p.kind == .keywordOnly && !starred
    let slash := p.kind == .positionalOnly && rest.head?.map (·.kind) != some .positionalOnly
    (if star then [Text.ofString "*"] else []) ++ [p.text] ++
      (if slash then [Text.ofString "/"] else []) ++ pieces (starred || star) rest

/-- The signature as it is written. -/
def text (s : Signature) : Text :=
  let returns : Text := match s.returns with
    | some returns => " -> " ++ returns
    | none => []
  s.name ++ "(" ++ Text.joined ", " (pieces false s.params) ++ ")"
    ++ returns

/-- The source text of a part, if it has any. -/
def partText? (module : Module) (part : Option Place) : Option Text :=
  (part.map fun p => module.text p.node.span).filter (!·.isEmpty)

/-- A parameter of a function in a module. -/
def paramOf (module : Module) (p : Place) : SignatureParam :=
  match p.form with
  | .param kind name hint default =>
    ⟨name.id?.getD [], kind, partText? module hint, partText? module default⟩
  | _ => { name := [] }

/-- Leaves out a first parameter that takes a positional argument. -/
def dropReceiver : List SignatureParam → List SignatureParam
  | [] => []
  | p :: rest =>
    match p.kind with
    | .positionalOnly | .positionalOrKeyword => rest
    | _ => p :: rest

/-- The signature of a `def` or a lambda. -/
def ofCallable (module : Module) (node : Place) (isBound : Bool) (name : Option Text := none) :
    Signature :=
  let params := node.params.map (paramOf module)
  let returns := match node.form with
    | .functionDef _ _ _ _ _ returns _ => partText? module returns
    | _ => none
  { name := name.getD (node.definedName?.getD "<lambda>")
    params := if isBound then dropReceiver params else params
    returns
    isBound }

end Signature

end NameInference
