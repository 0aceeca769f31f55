import Automata.Graph.Basic
import Automata.Text.Escape

/-! The text of a graph is one line of statements, each closed by a semicolon: the attributes of the
graph, then the nodes, then the edges group by group. Names and values are quoted. The attributes of
a node or edge stand in brackets in ascending order of their names, with no brackets if there are
none. -/
namespace Automata

namespace GraphKind

/-- The word that opens the text of the graph. -/
def keyword : GraphKind → String
  | undirected => "graph"
  | directed => "digraph"

/-- The mark between the two ends of an edge. -/
def connector : GraphKind → String
  | undirected => "--"
  | directed => "->"

end GraphKind

/-- The attributes that are set, under their names, in ascending order of the names. -/
def NodeAttrs.entries (attrs : NodeAttrs) : List (String × String) :=
  (attrs.label.map ("label", ·)).toList ++ (attrs.borderCount.map ("peripheries", ·)).toList ++
    (attrs.shape.map ("shape", ·)).toList ++ (attrs.style.map ("style", ·)).toList

def EdgeAttrs.entries (attrs : EdgeAttrs) : List (String × String) :=
  (attrs.label.map ("label", ·)).toList

namespace Graph

/-- The attributes of the graph itself that are set. -/
def entries (graph : Graph) : List (String × String) :=
  (graph.rankDir.map ("rankdir", ·)).toList

/-- A name and its quoted value. -/
def assignment (entry : String × String) : List Char :=
  entry.1.toList ++ '=' :: Text.quoteString entry.2

def attributeList : List (String × String) → List Char
  | [] => []
  | entries => '[' :: ([','].intercalate (entries.map assignment) ++ [']'])

def statement (chars : List Char) : List Char := chars ++ [';']

def nodeStatement (entry : String × NodeAttrs) : List Char :=
  statement (Text.quoteString entry.1 ++ attributeList entry.2.entries)

def edgeStatement (kind : GraphKind) (ends : String × String) (attrs : EdgeAttrs) : List Char :=
  statement (Text.quoteString ends.1 ++ kind.connector.toList ++ Text.quoteString ends.2 ++
    attributeList attrs.entries)

def edgeStatements (kind : GraphKind) (group : (String × String) × List EdgeAttrs) : List Char :=
  group.2.flatMap (edgeStatement kind group.1)

/-- The text of a graph, character by character. -/
def chars (graph : Graph) : List Char :=
  graph.kind.keyword.toList ++ [' ', '\x7b'] ++
    graph.entries.flatMap (fun entry => statement (assignment entry)) ++
    graph.nodes.toList.flatMap nodeStatement ++
    graph.edges.toList.flatMap (edgeStatements graph.kind) ++ ['\x7d']

def text (graph : Graph) : String := String.ofList graph.chars

end Graph
end Automata
