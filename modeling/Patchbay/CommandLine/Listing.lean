import Patchbay.Config.Build

/-!
# Listings

What the command line prints: the units of the catalogue, one unit in detail, and the steps of a
patch.
-/

namespace Patchbay.CommandLine

open Catalogue

/-- Lines as a text. -/
def lines (xs : List String) : String := String.join (xs.map (· ++ "\n"))

/-- The categories in the order in which they are listed. -/
def categories : List Category := [.io, .generator, .arithmetic, .link, .control, .storage]

/-- A unit in detail. -/
def describe (e : Catalogue.Entry) : String :=
  let aliases := ", ".intercalate e.aliases
  lines <|
    [e.label, String.ofList (List.replicate e.label.length '='), "", e.description,
     s!"Category: {e.category.text}"] ++
    if e.aliases.isEmpty then [] else [s!"Aliases: {aliases}"]

/-- The width of the column of labels. -/
def labelWidth : Nat := 10

/-- The line that lists a unit. -/
def entryLine (e : Catalogue.Entry) : String :=
  let aliases := ", ".intercalate e.aliases
  let label := padRight labelWidth e.label
  let others := if e.aliases.isEmpty then "" else s!" ({aliases})"
  s!"  {label} {e.description}{others}"

/-- All units by category. -/
def listUnits : String :=
  lines <|
    s!"Available Units ({entries.length})" ::
    categories.flatMap fun c => ["", s!"{c.text}:"] ++ (inCategory c).map entryLine

/-- A step of a patch, with the name and label of its unit. -/
def stepText (c : Construction) : Step → String
  | .unit id =>
    let name := (c.nameOf? id).getD "?"
    let label := ((c.engine.graph.node? id).map (·.body.label)).getD "?"
    s!"{name} ({label})"
  | step => step.text

/-- The numbered steps of a plan. -/
def listSteps (c : Construction) (plan : Plan) : String :=
  let steps := plan.steps.toList.map (stepText c)
  let numbered := steps.zipIdx.map fun (text, i) =>
    let place := padLeft 3 ' ' (writeNat (i + 1))
    s!"  {place}. {text}"
  lines (s!"Process order ({plan.steps.size} steps, {plan.buffers} buffers):" :: numbered)

end Patchbay.CommandLine
