import NameInference.Syntax.Form
import NameInference.Text.Table

/-!
# Matching arguments with parameters

Parameters are served one after the other. Before each of them the keyword arguments that come next
are taken out of the way: one that names a parameter is kept for it, any other one waits for a
parameter that collects keywords. What is left over, doubled or missing is a fault of the call.
-/

namespace NameInference

/-- What matching has to know of a parameter. -/
structure ParamSpec where
  name : Text
  kind : ParamKind
  hasDefault : Bool
  deriving DecidableEq, Inhabited

/-- An argument of a call, over what stands for its value. -/
structure Argument (α : Type) where
  keyword : Option Text := none
  value : α
  position : Position := ⟨0, 0⟩
  deriving Inhabited

/-- What the parameter with a number gets. -/
structure BoundParam (α : Type) where
  param : Nat
  arguments : List (Argument α) := []
  fromDefault : Bool := false
  missing : Bool := false
  deriving Inhabited

/-- A fault of a call. -/
inductive CallFault where
  | tooFew
  | tooMany (position : Position)
  | multipleValues (key : Text)
  | unexpectedKeyword (key : Text) (position : Position)
  deriving DecidableEq

namespace ParamSpec

/-- How many arguments there should have been. -/
def countMessage (params : List ParamSpec) (name : Text) (given : Nat) : Text :=
  let optional := (params.filter fun p => p.hasDefault || p.kind.isVariadic).length
  let total := Text.ofNat params.length
  let range : Text :=
    if optional == 0 then "exactly " ++ total
    else "from " ++ Text.ofNat (params.length - optional) ++ " to " ++ total
  "TypeError: " ++ name ++ "() takes " ++ range ++ " arguments ("
    ++ Text.ofNat given ++ " given)."

/-- The number of the last parameter with a name. -/
def number? (params : List ParamSpec) (name : Text) : Option Nat :=
  ((params.zipIdx.filter fun (p, _) => p.name == name).getLast?).map (·.2)

/-- The last parameter with each name, in ascending order of the names. -/
def byName (params : List ParamSpec) : Table ParamSpec :=
  Table.ofList (params.map fun p => (p.name, p))

end ParamSpec

namespace CallFault

/-- The name of the kind of fault. -/
def kind : CallFault → Text
  | tooFew => "type-error-too-few-arguments"
  | tooMany _ => "type-error-too-many-arguments"
  | multipleValues _ => "type-error-multiple-values"
  | unexpectedKeyword .. => "type-error-keyword-argument"

/-- The wording of a fault of a call of the named function with a number of arguments. -/
def message (params : List ParamSpec) (name : Text) (given : Nat) : CallFault → Text
  | tooFew | tooMany _ => ParamSpec.countMessage params name given
  | multipleValues key =>
    "TypeError: " ++ name ++ "() got multiple values for keyword argument '" ++ key
      ++ "'."
  | unexpectedKeyword key _ =>
    "TypeError: " ++ name ++ "() got an unexpected keyword argument '" ++ key
      ++ "'."

/-- Where the fault is, if not at the call itself. -/
def position? : CallFault → Option Position
  | tooMany position | unexpectedKeyword _ position => some position
  | tooFew | multipleValues _ => none

end CallFault

/-- The state of matching: the arguments that are left, what was given to each name, the keyword
arguments that no parameter has the name of, whether a keyword was seen and whether one was doubled,
and the outcome so far. -/
structure Matching (α : Type) where
  rest : List (Argument α)
  used : List (Text × BoundParam α) := []
  unmatched : List (Text × Argument α) := []
  sawKeyword : Bool := false
  sawDouble : Bool := false
  bound : List (BoundParam α) := []
  faults : List CallFault := []

namespace Matching

variable {α : Type}

/-- Adds a fault. -/
def fault (m : Matching α) (f : CallFault) : Matching α := { m with faults := m.faults ++ [f] }

/-- Whether something was given to a name. -/
def hasUsed (m : Matching α) (name : Text) : Bool := (m.used.lookup name).isSome

/-- Takes a keyword argument out of the way. -/
def takeKeyword (params : List ParamSpec) (m : Matching α) (key : Text) (a : Argument α) :
    Matching α :=
  let m := { m with sawKeyword := true }
  match ParamSpec.number? params key with
  | none => { m with unmatched := m.unmatched ++ [(key, a)] }
  | some param =>
    if m.hasUsed key then { m with sawDouble := true }.fault (.multipleValues key)
    else { m with used := (key, { param, arguments := [a] }) :: m.used }

/-- Takes the keyword arguments that come next out of the way. -/
def takeKeywords (params : List ParamSpec) : List (Argument α) → Matching α → Matching α
  | [], m => { m with rest := [] }
  | a :: rest, m =>
    match a.keyword with
    | none => { m with rest := a :: rest }
    | some key => takeKeywords params rest (m.takeKeyword params key a)

/-- Gives a parameter what it gets. -/
def bind (m : Matching α) (p : ParamSpec) (b : BoundParam α) : Matching α :=
  { m with
    bound := m.bound ++ [b]
    used := if b.missing || p.name.isEmpty then m.used else (p.name, b) :: m.used }

/-- Serves a parameter that gets no argument. -/
def bindNothing (m : Matching α) (reportCounts : Bool) (p : ParamSpec) (param : Nat) : Matching α :=
  if p.hasDefault then m.bind p { param, fromDefault := true }
  else
    let m := if !m.sawKeyword && reportCounts then m.fault .tooFew else m
    m.bind p { param, missing := true }

/-- Serves a parameter for which nothing was kept. -/
def serveNext (m : Matching α) (reportCounts : Bool) (p : ParamSpec) (param : Nat) : Matching α :=
  match p.kind with
  | .varPositional =>
    let arguments := m.rest.takeWhile (·.keyword.isNone)
    { m with rest := m.rest.drop arguments.length }.bind p { param, arguments }
  | .varKeyword =>
    let arguments := m.unmatched.map Prod.snd
    let m := match m.rest with
      | a :: rest =>
        let m := { m with rest }
        if reportCounts then m.fault (.tooMany a.position) else m
      | [] => m
    { m with unmatched := [] }.bind p { param, arguments }
  | .keywordOnly => m.bindNothing reportCounts p param
  | .positionalOnly | .positionalOrKeyword =>
    match m.rest with
    | a :: rest => { m with rest }.bind p { param, arguments := [a] }
    | [] => m.bindNothing reportCounts p param

/-- Serves a parameter. -/
def serve (params : List ParamSpec) (reportCounts : Bool) (m : Matching α)
    (entry : ParamSpec × Nat) : Matching α :=
  let (p, param) := entry
  let m := takeKeywords params m.rest m
  match m.used.lookup p.name with
  | some b => { m with bound := m.bound ++ [b] }
  | none => m.serveNext reportCounts p param

/-- The faults that show when all parameters are served. -/
def finalFaults (params : List ParamSpec) (reportCounts : Bool) (m : Matching α) : List CallFault :=
  let lacking :=
    if !m.sawKeyword || !reportCounts || !m.unmatched.isEmpty || m.sawDouble then [] else
    ((ParamSpec.byName params).filter fun (name, p) =>
      !m.hasUsed name && !p.kind.isVariadic && !p.hasDefault).map fun _ => CallFault.tooFew
  let unexpected := m.unmatched.map fun (key, a) => CallFault.unexpectedKeyword key a.position
  let surplus := match m.rest with
    | a :: _ => if reportCounts then [CallFault.tooMany a.position] else []
    | [] => []
  lacking ++ unexpected ++ surplus

/-- Matches arguments with parameters. Numbers of arguments are only checked if they are all known.
-/
def run (params : List ParamSpec) (reportCounts : Bool) (arguments : List (Argument α)) :
    List (BoundParam α) × List CallFault :=
  let m := params.zipIdx.foldl (serve params reportCounts) { rest := arguments }
  (m.bound, m.faults ++ m.finalFaults params reportCounts)

end Matching

end NameInference
