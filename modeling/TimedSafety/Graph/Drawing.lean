import TimedSafety.Graph.Basic

/-!
Drawings of an abstract graph as text for Graphviz: one box per state, grouped by location, and an
arrow per transition. Initial states have a thick border, error states a double one, and highlighted
states are filled.
-/

set_option autoImplicit false

namespace TimedSafety

/-- How a graph is drawn. -/
structure DrawingStyle where
  shape : String := "box"
  highlightColor : String := "lightcoral"
  arrowStyle : String := "solid"
  showZones : Bool := true
  groupLocations : Bool := true

namespace DrawingStyle

/-- Writes a backslash before backslashes and quotes. -/
def escape (label : String) : String :=
  String.join (label.toList.map fun c ↦
    if c = '\\' then "\\\\" else if c = '"' then "\\\"" else String.singleton c)

end DrawingStyle

namespace AbstractGraph

/-- The line of a state. -/
def drawState (graph : AbstractGraph) (style : DrawingStyle) (state : AbstractState) :
    Except Fault String := do
  let label ← if style.showZones then do
      let zoneText ← state.zone.text
      pure (state.id.text ++ "\\n" ++ DrawingStyle.escape zoneText)
    else pure state.id.text
  let isError ← graph.isErrorState state.id
  let attributes :=
    ["label=\"" ++ label ++ "\""] ++
    (if state.initial then ["penwidth=2"] else []) ++
    (if state.highlighted then ["style=filled, fillcolor=" ++ style.highlightColor] else []) ++
    (if isError then ["peripheries=2"] else [])
  return s!"{state.id.number} [" ++ ", ".intercalate attributes ++ "];\n"

/-- The lines of a location and its states. -/
def drawLocation (graph : AbstractGraph) (style : DrawingStyle) (location : Location) :
    Except Fault String := do
  let place ← graph.automaton.place location
  let states ← (graph.statesAt location).mapM (graph.drawState style)
  return if style.groupLocations then
      s!"subgraph cluster_{location.index} \x7b\n" ++
        "label=\"" ++ DrawingStyle.escape place.name ++ "\";\n" ++ String.join states ++ "\x7d\n"
    else String.join states

/-- The line of a transition. -/
def drawTransition (style : DrawingStyle) (transition : Transition) : String :=
  s!"{transition.source.number} -> {transition.target.number} " ++
    s!"[label=\"{transition.edge.text}\", style={style.arrowStyle}];\n"

/-- The text of a drawing of the graph. -/
def draw (graph : AbstractGraph) (style : DrawingStyle) : Except Fault String := do
  let locations ← graph.automaton.locations.mapM (graph.drawLocation style)
  return "digraph \x7b\n" ++ s!"node [shape={style.shape}];\n" ++ String.join locations ++
    String.join (graph.transitions.map (drawTransition style)) ++ "\x7d\n"

end AbstractGraph

end TimedSafety
