import NameInference.Syntax.Form

/-!
# Outlines of forms

An outline lists what a form holds as named fields, in the order in which a tree is shown: flags,
words, texts, positions and parts. Whoever writes trees down needs to know only the kinds of field,
not the forms.
-/

namespace NameInference

/-- What a field of an outline holds, over the type of the parts. -/
inductive OutlineField (ν : Type) where
  | flag (value : Bool)
  | number (value : Nat)
  | word (value : String)
  | words (values : List String)
  | text (value : Text)
  | texts (values : List Text)
  | position (value : Position)
  | part (value : Option ν)
  | parts (values : List (Option ν))
  | rows (values : List (List (String × OutlineField ν)))

namespace OutlineField

variable {ν : Type}

/-- A part that is always there. -/
def one (a : ν) : OutlineField ν := part (some a)

/-- Parts that are all there. -/
def all (as : List ν) : OutlineField ν := parts (as.map some)

/-- Keyword arguments, one row each. -/
def keywords (ks : List (Keyword ν)) : OutlineField ν :=
  rows (ks.map fun k =>
    [("name", text k.name), ("line", number k.position.line), ("col", number k.position.col),
    ("value", one k.value)])

/-- The clauses of a comprehension, one row each. -/
def clauses (cs : List (Clause ν)) : OutlineField ν :=
  rows (cs.map fun c =>
    [("async", flag c.isAsync), ("target", one c.target), ("iter", one c.iterable),
    ("ifs", all c.conditions)])

end OutlineField

namespace Form

open OutlineField (flag word words text texts position one all keywords clauses)

variable {ν : Type}

/-- The fields of a form. -/
def outline : Form ν → List (String × OutlineField ν)
  | .module body => [("body", all body)]
  | .functionDef isAsync colon decorators ident params returns body =>
    [("name", one ident), ("async", flag isAsync), ("bodyStart", position colon),
      ("decorators", all decorators),
      ("params", all params), ("returns", .part returns), ("body", all body)]
  | .classDef colon decorators ident bases keys body =>
    [("name", one ident), ("bodyStart", position colon), ("decorators", all decorators),
      ("bases", all bases), ("keywords", keywords keys), ("body", all body)]
  | .param kind ident hint default =>
    [("kind", word kind.label), ("name", one ident), ("annotation", .part hint),
      ("default", .part default)]
  | .returnStmt value => [("value", .part value)]
  | .assign targets hint value =>
    [("targets", all targets), ("annotation", .part hint), ("value", .part value)]
  | .augAssign op target value =>
    [("op", word op.label), ("target", one target), ("value", one value)]
  | .exprStmt value | .await value | .starred value => [("value", one value)]
  | .ifStmt isElif test body orElse =>
    [("elif", flag isElif), ("test", one test), ("body", all body), ("orelse", all orElse)]
  | .whileStmt test body orElse => [("test", one test), ("body", all body), ("orelse", all orElse)]
  | .forStmt isAsync target iterable body orElse =>
    [("async", flag isAsync), ("target", one target), ("iter", one iterable), ("body", all body),
      ("orelse", all orElse)]
  | .tryStmt body handlers orElse final =>
    [("body", all body), ("handlers", all handlers), ("orelse", all orElse), ("finally", all final)]
  | .handler type target body =>
    [("type", .part type), ("target", .part target), ("body", all body)]
  | .withStmt isAsync items body =>
    [("async", flag isAsync), ("items", all items), ("body", all body)]
  | .withItem manager target => [("context", one manager), ("target", .part target)]
  | .pass | .breakStmt | .continueStmt | .noneLit | .ellipsis => []
  | .raise exception cause => [("exc", .part exception), ("cause", .part cause)]
  | .del targets => [("targets", all targets)]
  | .assert test message => [("test", one test), ("msg", .part message)]
  | .importStmt names => [("names", all names)]
  | .importFrom path level star names =>
    [("module", texts path), ("level", .number level), ("star", flag star), ("names", all names)]
  | .importItem path hasAs binding =>
    [("dotted", texts path), ("as", flag hasAs), ("binding", one binding)]
  | .globalStmt names | .nonlocalStmt names => [("names", all names)]
  | .name id => [("id", text id)]
  | .attr value ident identAt =>
    [("attr", text ident), ("attrAt", position identAt), ("value", one value)]
  | .subscript value index => [("value", one value), ("index", one index)]
  | .slice lower upper step =>
    [("lower", .part lower), ("upper", .part upper), ("step", .part step)]
  | .call callee args keys =>
    [("callee", one callee), ("args", all args), ("keywords", keywords keys)]
  | .int digits | .float digits | .imag digits => [("text", text digits)]
  | .string value formatted => [("value", text value), ("formatted", flag formatted)]
  | .bytes value => [("value", text value)]
  | .bool value => [("value", flag value)]
  | .list elements | .tuple elements | .set elements => [("elements", all elements)]
  | .dict entries =>
    [("keys", .parts (entries.map (·.key))), ("values", all (entries.map (·.value)))]
  | .comprehension kind element value cs =>
    [("comp", word kind.label), ("elt", one element), ("valueElt", .part value),
      ("fors", clauses cs)]
  | .unary op operand => [("op", word op.label), ("operand", one operand)]
  | .binary op left right => [("op", word op.label), ("lhs", one left), ("rhs", one right)]
  | .boolean op operands => [("op", word op.label), ("values", all operands)]
  | .compare left rest =>
    [("left", one left), ("ops", words (rest.map (·.op.label))),
      ("comparators", all (rest.map (·.operand)))]
  | .conditional body test orElse =>
    [("body", one body), ("test", one test), ("orelse", one orElse)]
  | .lambda params body => [("params", all params), ("body", one body)]
  | .yield isFrom value => [("from", flag isFrom), ("value", .part value)]
  | .named target value => [("target", one target), ("value", one value)]

end Form

end NameInference
