import NameInference.Text.Table

/-!
# Counts and durations

Counters, gauges and durations by name, and their summaries as text and as JSON. Names are listed in
ascending order; durations are kept in microseconds and shown in milliseconds.
-/

namespace NameInference

/-- Numbers by name. -/
abbrev Counts := Table UInt64

/-- The number of a name, zero if there is none. -/
def Counts.count (counts : Counts) (name : Text) : UInt64 := (Table.get? counts name).getD 0

/-- What a run counted and how long its stages took. -/
structure Tally where
  counters : Counts := []
  gauges : Counts := []
  durations : Counts := []
  deriving Inhabited

namespace Tally

/-- Raises a counter. -/
def count (tally : Tally) (name : Text) (n : UInt64 := 1) : Tally :=
  { tally with counters := Table.set name (tally.counters.count name + n) tally.counters }

/-- Sets a counter. -/
def setCounter (tally : Tally) (name : Text) (n : UInt64) : Tally :=
  { tally with counters := Table.set name n tally.counters }

/-- Sets a gauge. -/
def setGauge (tally : Tally) (name : Text) (n : UInt64) : Tally :=
  { tally with gauges := Table.set name n tally.gauges }

/-- Adds the duration of a stage. -/
def addDuration (tally : Tally) (name : Text) (microseconds : UInt64) : Tally :=
  { tally with
    durations := Table.set name (tally.durations.count name + microseconds) tally.durations }

/-- Milliseconds with three decimals. -/
def milliseconds (microseconds : UInt64) : Text :=
  let digits := Text.ofNat (microseconds.toNat % 1000)
  Text.ofNat (microseconds.toNat / 1000) ++ Text.ofString "." ++
    List.replicate (3 - digits.length) 0x30 ++ digits

/-- Short observations on the counters. -/
def hints (tally : Tally) : List Text :=
  let trips := tally.counters.count "guard.trips"
  (if tally.counters.count "issues" > 0 then [Text.ofString "analysis_issues_present"] else [])
    ++ (if trips > 1000 then [Text.ofString "deep_recursion"]
      else if trips > 0 then [Text.ofString "recursion_guarded"] else [])
    ++ (if tally.counters.count "descriptor.loaded" == 0 &&
        tally.counters.count "descriptor.missing" > 0 then
      [Text.ofString "no_descriptors_found"] else [])

/-- One line for each number. -/
def summaryText (tally : Tally) : Text :=
  let line (name value : Text) : Text :=
    Text.ofString "  " ++ name ++ value ++ Text.ofString "\n"
  Text.ofString "== Metrics ==\n"
    ++ tally.durations.flatMap (fun (name, n) =>
      line name (Text.ofString ": " ++ milliseconds n ++ Text.ofString " ms"))
    ++ (tally.counters ++ tally.gauges).flatMap fun (name, n) =>
      line name (Text.ofString " = " ++ Text.ofNat n.toNat)

/-- The members of a JSON object, one on each line, behind a comma but for the first. -/
def jsonMembers (members : List (Text × Text)) : Text :=
  Text.joined "," (members.map fun (name, value) =>
    "\n    \"" ++ name ++ "\": " ++ value)

/-- The JSON text of an object that is a member of the summary, if it has members. -/
def jsonObject (title : String) (counts : Counts) : Text :=
  if counts.isEmpty then []
  else Text.ofString (",\n  \"" ++ title ++ "\": \x7b")
    ++ jsonMembers (counts.map fun (name, n) => (name, Text.ofNat n.toNat)) ++ "\n  \x7d"

/-- The summary as JSON; stages are named in lower case. -/
def summaryJson (tally : Tally) : Text :=
  let hints := tally.hints
  let shownHints : Text := if hints.isEmpty then [] else
    ",\n  \"hints\": ["
      ++ Text.joined ", " (hints.map fun h => "\"" ++ h ++ "\"")
      ++ "]"
  "\x7b\n  \"durations_ms\": \x7b"
    ++ jsonMembers (tally.durations.map fun (name, n) => (name.map Byte.toLower, milliseconds n))
    ++ "\n  \x7d" ++ jsonObject "counters" tally.counters ++ jsonObject "gauges" tally.gauges
    ++ shownHints ++ "\n\x7d\n"

end Tally

end NameInference
