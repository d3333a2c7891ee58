/-
The log of a desugaring run.

Building the types, each element access and the end of the run are events.  An event
has a level, a message and named values, all as text.
-/
import ListSugar.Source

namespace ListSugar

/-- How much attention an event wants. -/
inductive Severity where
  | trace
  | debug
  | info
  | warn
deriving DecidableEq, Repr

/-- The name of a level in a log. -/
def Severity.text : Severity → String
  | .trace => "TRACE"
  | .debug => "DEBUG"
  | .info => "INFO"
  | .warn => "WARN"

/-- One thing that happened in a run. -/
inductive Event where
  /-- The types of all nodes were determined. -/
  | typed (nodes : Nat)
  /-- An element access is no list literal. -/
  | access (pos : Pos)
  /-- A list literal was met. -/
  | literal (site : Site)
  /-- The run ended. -/
  | finished (expanded abstained diagnostics : Nat)
deriving Repr

namespace Event

/-- The event of a visit. -/
def ofVisit : Desugar.Visit → Event
  | .access pos => .access pos
  | .literal site => .literal site

/-- The level of an event. -/
def severity : Event → Severity
  | .typed _ => .trace
  | .access _ => .trace
  | .literal site =>
    match site.outcome with
    | .expanded => .debug
    | .abstained => .warn
  | .finished _ _ _ => .info

/-- The message of an event. -/
def message : Event → String
  | .typed _ => "semantic model built"
  | .access _ => "element access is not a list literal"
  | .literal site =>
    match site.outcome with
    | .expanded => "list literal rewritten"
    | .abstained => "cannot infer list element type; literal left unchanged"
  | .finished _ _ _ => "desugaring finished"

/-- The line and the column of a place, by name. -/
def placeFields (pos : Pos) : List (String × String) :=
  [("line", toString pos.line), ("col", toString pos.col)]

/-- The named values of an event. -/
def fields : Event → List (String × String)
  | .typed nodes => [("nodes", toString nodes)]
  | .access pos => placeFields pos
  | .literal site =>
    match site.outcome with
    | .expanded =>
      placeFields site.pos ++ [("elements", toString site.count), ("element_type", site.ty.text)]
    | .abstained => placeFields site.pos
  | .finished expanded abstained diagnostics =>
    [("rewritten", toString expanded), ("abstained", toString abstained),
      ("diagnostics", toString diagnostics)]

end Event

/-- The events of a run, in order. -/
def Desugared.events (d : Desugared) : List Event :=
  .typed d.typedNodes :: (d.visits.map Event.ofVisit
    ++ [.finished d.report.expanded d.report.abstained d.diagnostics.length])

end ListSugar
