/-
  BytecodeFlow.Graph.Dot — GRAPHS AS TEXT for a graph-drawing program.

  The drawing is a list of lines: a heading with an optional title, one line per block, one line
  per edge.  Blocks are boxes named `B` and their offset:

  | block                          | drawn                |
  |--------------------------------|----------------------|
  | the entry                      | filled green         |
  | ends the function              | filled red           |
  | neither of these, and not live | dashed               |
  | any other                      | plain                |

  A title stands between double quotes, so its quotes, backslashes and angle brackets are escaped,
  a line feed is written as `\n`, and carriage returns are left out.
-/
import BytecodeFlow.Graph.Basic

namespace BytecodeFlow

namespace Dot

/-! ## §1. Quoted text -/

/-- How one character of a title is written between double quotes. -/
def escapeChar : Char → List Char
  | '\\' => ['\\', '\\']
  | '"' => ['\\', '"']
  | '<' => ['\\', '<']
  | '>' => ['\\', '>']
  | '\n' => ['\\', 'n']
  | '\r' => []
  | c => [c]

/-- A title as it is written between double quotes. -/
def escape (title : String) : String := String.ofList (title.toList.flatMap escapeChar)

/-! ## §2. Lines -/

/-- The name of a block in the drawing. -/
def blockName (o : Offset) : String := s!"B{o}"

/-- How a block is drawn. -/
def style (g : Graph) (b : Block) : String :=
  if b.start = g.entry then ", style=filled, fillcolor=lightgreen"
  else if b.terminating then ", style=filled, fillcolor=lightcoral"
  else if g.isLive b.start then ""
  else ", style=dashed"

/-- The line of a block: its name, its body, its style. -/
def blockLine (g : Graph) (b : Block) : String :=
  let name := blockName b.start
  let role := if b.start = g.entry then " (entry)" else ""
  let body := Offset.joined b.body.toList
  s!"    {name} [label=\"{name}{role}\\l[{body}]\\l\"{style g b}];"

/-- The lines of the edges out of a block. -/
def edgeLines (b : Block) : List String :=
  b.outgoing.toList.map fun target => s!"    {blockName b.start} -> {blockName target};"

/-- The line of a title. -/
def titleLine (title : String) : String := s!"    label=\"CFG: {escape title}\";"

/-- The first line of a drawing; its brace is closed by the last line. -/
def heading : String := "digraph CFG ".push '{'

/-- The last line of a drawing. -/
def closing : String := String.singleton '}'

/-- The lines of a drawing. -/
def lines (g : Graph) (title : Option String) : List String :=
  [heading]
    ++ (title.map titleLine).toList
    ++ ["    labelloc=t;", "    node [shape=box, fontname=\"Courier\", fontsize=10];", ""]
    ++ g.inOrder.map (blockLine g)
    ++ [""]
    ++ g.inOrder.flatMap edgeLines
    ++ [closing]

end Dot

/-- The drawing of a graph, each line ended by a line feed. -/
def Graph.toDot (g : Graph) (title : Option String) : String :=
  String.join ((Dot.lines g title).map (· ++ "\n"))

end BytecodeFlow
