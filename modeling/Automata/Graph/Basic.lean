import Automata.Graph.Entries

/-! A graph is drawn up by edits: a layout direction, nodes, edges, and attributes set on the node
or edge just named. A node keeps the place of its first mention, and an edge mentions its two ends.
Edges between the same two nodes in the same order form one group, at the place of its first edge,
in a directed and in an undirected graph alike. -/
namespace Automata

inductive NodeAttr where
  | label
  /-- How many lines run around the node. -/
  | borderCount
  | shape
  | style
  deriving DecidableEq

structure NodeAttrs where
  label : Option String
  borderCount : Option String
  shape : Option String
  style : Option String
  deriving DecidableEq

namespace NodeAttrs

def blank : NodeAttrs := ⟨none, none, none, none⟩

/-- Sets one attribute; a value set before is lost. -/
def set (attrs : NodeAttrs) (name : NodeAttr) (value : String) : NodeAttrs :=
  match name with
  | .label => { attrs with label := some value }
  | .borderCount => { attrs with borderCount := some value }
  | .shape => { attrs with shape := some value }
  | .style => { attrs with style := some value }

def setAll (attrs : NodeAttrs) (settings : List (NodeAttr × String)) : NodeAttrs :=
  settings.foldl (fun attrs setting => attrs.set setting.1 setting.2) attrs

def get (attrs : NodeAttrs) : NodeAttr → Option String
  | .label => attrs.label
  | .borderCount => attrs.borderCount
  | .shape => attrs.shape
  | .style => attrs.style

theorem get_set (attrs : NodeAttrs) (name other : NodeAttr) (value : String) :
    (attrs.set name value).get other = if name = other then some value else attrs.get other := by
  cases name <;> cases other <;> rfl

end NodeAttrs

inductive EdgeAttr where
  | label
  deriving DecidableEq

structure EdgeAttrs where
  label : Option String
  deriving DecidableEq

namespace EdgeAttrs

def blank : EdgeAttrs := ⟨none⟩

/-- Sets one attribute; a value set before is lost. -/
def set (attrs : EdgeAttrs) (name : EdgeAttr) (value : String) : EdgeAttrs :=
  match name with
  | .label => { attrs with label := some value }

def setAll (attrs : EdgeAttrs) (settings : List (EdgeAttr × String)) : EdgeAttrs :=
  settings.foldl (fun attrs setting => attrs.set setting.1 setting.2) attrs

end EdgeAttrs

inductive GraphKind where
  | undirected
  | directed
  deriving DecidableEq

/-- A graph with named nodes. -/
structure Graph where
  kind : GraphKind
  /-- The direction in which ranks of nodes are laid out. -/
  rankDir : Option String
  nodes : Entries String NodeAttrs
  edges : Entries (String × String) (List EdgeAttrs)
  deriving DecidableEq

namespace Graph

def empty (kind : GraphKind) : Graph := ⟨kind, none, .empty, .empty⟩

/-- Mentions a node, and sets attributes on it in order. -/
def node (graph : Graph) (id : String) (settings : List (NodeAttr × String)) : Graph :=
  { graph with nodes := graph.nodes.alter id fun attrs? => (attrs?.getD .blank).setAll settings }

/-- Mentions both ends, left before right, and draws a new edge between them. -/
def edge (graph : Graph) (left right : String) (settings : List (EdgeAttr × String)) : Graph :=
  let mentioned := (graph.node left []).node right []
  { mentioned with
    edges := mentioned.edges.alter (left, right) fun group? =>
      group?.getD [] ++ [EdgeAttrs.blank.setAll settings] }

/-- One step in drawing up a graph. -/
inductive Edit where
  | rankDir (value : String)
  | node (id : String) (settings : List (NodeAttr × String))
  | edge (left right : String) (settings : List (EdgeAttr × String))

def apply (graph : Graph) : Edit → Graph
  | .rankDir value => { graph with rankDir := some value }
  | .node id settings => graph.node id settings
  | .edge left right settings => graph.edge left right settings

/-- The graph that the edits draw up, in order. -/
def build (kind : GraphKind) (edits : List Edit) : Graph := edits.foldl apply (empty kind)

end Graph
end Automata
