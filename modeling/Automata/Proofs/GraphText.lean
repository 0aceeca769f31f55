import Automata.Graph.Text
import Automata.Proofs.Drawing
import Automata.Proofs.Escaping

/-! The text of a graph determines the graph, whatever its names and values are. The text is a list
of statements, and each is read back from the front: names and values are quoted, a list of
attributes ends at its bracket, and after a node stands a bracket or a semicolon where an edge has
its connector. From the statements in turn the graph is collected, the edges into their groups. -/
namespace Automata
open Text (SelfDelimiting BeginsOff)

namespace NodeAttr

def name : NodeAttr → String
  | label => "label"
  | borderCount => "peripheries"
  | shape => "shape"
  | style => "style"

end NodeAttr

namespace NodeAttrs

theorem ext_get {attrs attrs' : NodeAttrs} (same : ∀ attr, attrs.get attr = attrs'.get attr) :
    attrs = attrs' := by
  obtain ⟨_, _, _, _⟩ := attrs
  obtain ⟨_, _, _, _⟩ := attrs'
  congr 1
  · exact same .label
  · exact same .borderCount
  · exact same .shape
  · exact same .style

theorem lookup_entries (attrs : NodeAttrs) (attr : NodeAttr) :
    attrs.entries.lookup attr.name = attrs.get attr := by
  obtain ⟨_ | _, _ | _, _ | _, _ | _⟩ := attrs <;> cases attr <;> rfl

theorem entries_injective : Function.Injective entries := by
  intro attrs attrs' same
  apply ext_get
  intro attr
  rw [← lookup_entries, same, lookup_entries]

theorem exists_name_of_mem_entries {attrs : NodeAttrs} {entry : String × String}
    (mem : entry ∈ attrs.entries) : ∃ attr : NodeAttr, entry.1 = attr.name := by
  simp only [entries, List.mem_append, Option.mem_toList, Option.map_eq_some_iff] at mem
  obtain ((⟨_, -, rfl⟩ | ⟨_, -, rfl⟩) | ⟨_, -, rfl⟩) | ⟨_, -, rfl⟩ := mem
  · exact ⟨.label, rfl⟩
  · exact ⟨.borderCount, rfl⟩
  · exact ⟨.shape, rfl⟩
  · exact ⟨.style, rfl⟩

end NodeAttrs

theorem EdgeAttrs.entries_injective : Function.Injective EdgeAttrs.entries := by
  rintro ⟨_ | label⟩ ⟨_ | label'⟩ same
  · rfl
  · cases same
  · cases same
  · cases same; rfl

namespace Graph

/-! Attributes. -/

/-- The entries whose names end where the equals sign stands. -/
def clearlyNamed : Set (String × String) := {entry | '=' ∉ entry.1.toList}

theorem assignment_selfDelimiting : SelfDelimiting clearlyNamed assignment := by
  rintro ⟨name, value⟩ hname ⟨name', value'⟩ hname' u v same
  have hsplit : (name.toList ++ ['=']) ++ (Text.quoteString value ++ u) =
      (name'.toList ++ ['=']) ++ (Text.quoteString value' ++ v) := by
    simpa [assignment] using same
  obtain ⟨hnames, hrest⟩ := SelfDelimiting.upTo '=' hname hname' hsplit
  obtain ⟨rfl, huv⟩ := Text.quoteString_selfDelimiting trivial trivial hrest
  obtain rfl : name = name' := String.toList_inj.mp hnames
  exact ⟨rfl, huv⟩

theorem attributeList_cons (entry : String × String) (entries : List (String × String)) :
    attributeList (entry :: entries) = '[' :: (assignment entry ++
      (entries.flatMap (fun entry => ',' :: assignment entry) ++ [']'])) := by
  have hcommas : [','].intercalate ((entry :: entries).map assignment) =
      assignment entry ++ entries.flatMap (fun entry => ',' :: assignment entry) := by
    induction entries generalizing entry with
    | nil => simp
    | cons next entries ih => simp only [List.map_cons, List.intercalate_cons_cons] at ih ⊢; simp [ih]
  rw [attributeList, hcommas, List.append_assoc]
  rintro ⟨⟩

/-- A list of attributes is read back where a semicolon closes it. -/
theorem attributeList_selfDelimiting :
    SelfDelimiting {entries | ∀ entry ∈ entries, entry ∈ clearlyNamed}
      fun entries => statement (attributeList entries) := by
  have htail : SelfDelimiting {entries | ∀ entry ∈ entries, entry ∈ clearlyNamed}
      fun entries : List (String × String) =>
        entries.flatMap (fun entry => ',' :: assignment entry) ++ [']'] := by
    exact (assignment_selfDelimiting.cons ',').list fun entry _ => ⟨',', _, rfl, by decide⟩
  intro entries hentries entries' hentries' u v same
  cases entries with
  | nil =>
    cases entries' with
    | nil => exact ⟨rfl, List.append_cancel_left same⟩
    | cons => simp [statement, attributeList] at same
  | cons entry entries =>
    cases entries' with
    | nil => simp [statement, attributeList] at same
    | cons entry' entries' =>
      obtain ⟨hfirst, hrest⟩ := List.forall_mem_cons.1 hentries
      obtain ⟨hfirst', hrest'⟩ := List.forall_mem_cons.1 hentries'
      simp only [statement, attributeList_cons, List.append_assoc, List.cons_append,
        List.cons.injEq, true_and] at same
      obtain ⟨hentry, same⟩ := assignment_selfDelimiting hfirst hfirst' same
      obtain ⟨hentries, same⟩ := htail hrest hrest' (by simpa using same)
      exact ⟨by rw [hentry, hentries], (List.cons.inj same).2⟩

theorem nodeAttrs_selfDelimiting :
    SelfDelimiting Set.univ fun attrs : NodeAttrs => statement (attributeList attrs.entries) := by
  have hclear (attrs : NodeAttrs) : ∀ entry ∈ attrs.entries, entry ∈ clearlyNamed := by
    intro entry mem
    obtain ⟨attr, hname⟩ := NodeAttrs.exists_name_of_mem_entries mem
    show '=' ∉ entry.1.toList
    rw [hname]
    cases attr <;> decide
  exact attributeList_selfDelimiting.comap NodeAttrs.entries_injective hclear

theorem edgeAttrs_selfDelimiting :
    SelfDelimiting Set.univ fun attrs : EdgeAttrs => statement (attributeList attrs.entries) := by
  have hclear (attrs : EdgeAttrs) : ∀ entry ∈ attrs.entries, entry ∈ clearlyNamed := by
    intro entry mem
    simp only [EdgeAttrs.entries, Option.mem_toList, Option.map_eq_some_iff] at mem
    obtain ⟨_, -, rfl⟩ := mem
    show '=' ∉ "label".toList
    decide
  exact attributeList_selfDelimiting.comap EdgeAttrs.entries_injective hclear

/-! Statements. -/

/-- What one statement says. -/
inductive Statement where
  | rankDir (value : String)
  | node (entry : String × NodeAttrs)
  | edge (entry : (String × String) × EdgeAttrs)

namespace Statement

def write (kind : GraphKind) : Statement → List Char
  | rankDir value => statement (assignment ("rankdir", value))
  | node entry => nodeStatement entry
  | edge entry => edgeStatement kind entry.1 entry.2

theorem write_rankDir (kind : GraphKind) (value : String) :
    write kind (rankDir value) = 'r' :: ("ankdir=".toList ++ (Text.quoteString value ++ [';'])) := by
  simp [write, statement, assignment]

theorem write_node (kind : GraphKind) (id : String) (attrs : NodeAttrs) :
    write kind (node (id, attrs)) =
      Text.quoteString id ++ statement (attributeList attrs.entries) := by
  simp [write, nodeStatement, statement]

theorem write_edge (kind : GraphKind) (left right : String) (attrs : EdgeAttrs) :
    write kind (edge ((left, right), attrs)) =
      Text.quoteString left ++ (kind.connector.toList ++
        (Text.quoteString right ++ statement (attributeList attrs.entries))) := by
  simp [write, edgeStatement, statement]

theorem write_labelled_edge (left right label : String) :
    write .directed (edge ((left, right), ⟨some label⟩)) =
      Text.quoteString left ++ "->".toList ++ Text.quoteString right ++ "[label=".toList ++
        Text.quoteString label ++ "];".toList := by
  rw [write_edge]
  simp [statement, attributeList, assignment, EdgeAttrs.entries, GraphKind.connector]

/-- After its quoted name a node goes on with a bracket or a semicolon, an edge with a dash. -/
theorem node_ne_edge {kind : GraphKind} {entries : List (String × String)} {u v : List Char} :
    statement (attributeList entries) ++ u ≠ kind.connector.toList ++ v := by
  cases kind <;> cases entries <;> simp [statement, attributeList, GraphKind.connector]

theorem write_selfDelimiting (kind : GraphKind) : SelfDelimiting Set.univ (write kind) := by
  have hquote := Text.quoteString_selfDelimiting
  rintro (value | ⟨id, attrs⟩ | ⟨⟨left, right⟩, attrs⟩) -
    (value' | ⟨id', attrs'⟩ | ⟨⟨left', right'⟩, attrs'⟩) - u v same
  all_goals
    simp only [write_rankDir, write_node, write_edge, List.append_assoc, List.cons_append] at same
  case rankDir.rankDir =>
    obtain ⟨hvalue, same⟩ :=
      hquote trivial trivial (List.append_cancel_left (List.cons.inj same).2)
    exact ⟨by rw [hvalue], (List.cons.inj same).2⟩
  case rankDir.node | rankDir.edge => exact absurd (List.cons.inj same).1 (by decide)
  case node.rankDir | edge.rankDir => exact absurd (List.cons.inj same).1 (by decide)
  case node.node =>
    obtain ⟨hid, same⟩ := hquote trivial trivial same
    obtain ⟨hattrs, huv⟩ := nodeAttrs_selfDelimiting trivial trivial same
    exact ⟨by rw [hid, hattrs], huv⟩
  case node.edge => exact absurd (hquote trivial trivial same).2 node_ne_edge
  case edge.node => exact absurd (hquote trivial trivial same).2.symm node_ne_edge
  case edge.edge =>
    obtain ⟨hleft, same⟩ := hquote trivial trivial same
    obtain ⟨hright, same⟩ := hquote trivial trivial (List.append_cancel_left same)
    obtain ⟨hattrs, huv⟩ := edgeAttrs_selfDelimiting trivial trivial same
    exact ⟨by rw [hleft, hright, hattrs], huv⟩

/-- No statement begins like the end of the text. -/
theorem write_beginsOff (kind : GraphKind) (said : Statement) :
    BeginsOff '\x7d' (write kind said) := by
  obtain value | ⟨id, attrs⟩ | ⟨⟨left, right⟩, attrs⟩ := said
  · exact ⟨'r', _, write_rankDir kind value, by decide⟩
  · exact ⟨'"', _, rfl, by decide⟩
  · exact ⟨'"', _, rfl, by decide⟩

def rankDir? : Statement → Option String
  | rankDir value => some value
  | _ => none

def node? : Statement → Option (String × NodeAttrs)
  | node entry => some entry
  | _ => none

def edge? : Statement → Option ((String × String) × EdgeAttrs)
  | edge entry => some entry
  | _ => none

end Statement

/-- The parts of the text of a graph, character by character. -/
structure Spelled (kind : GraphKind) : Prop where
  keyword : kind.keyword = if kind = .directed then "digraph" else "graph"
  rankDir : ∀ value, Statement.write kind (.rankDir value) =
    "rankdir=".toList ++ Text.quoteString value ++ [';']
  node : ∀ id attrs, Statement.write kind (.node (id, attrs)) =
    Text.quoteString id ++ attributeList attrs.entries ++ [';']
  edge : ∀ left right attrs, Statement.write kind (.edge ((left, right), attrs)) =
    Text.quoteString left ++ (if kind = .directed then ['-', '>'] else ['-', '-']) ++
      Text.quoteString right ++ attributeList attrs.entries ++ [';']
  /-- There are no brackets without an attribute. -/
  bare : attributeList [] = []
  /-- Names with their values stand in brackets, with commas between them. -/
  bracketed : ∀ entry entries, attributeList (entry :: entries) =
    '[' :: (entry.1.toList ++ '=' :: Text.quoteString entry.2 ++
      entries.flatMap (fun entry => ',' :: (entry.1.toList ++ '=' :: Text.quoteString entry.2)) ++
      [']'])
  /-- Names and values are quoted, with every character escaped that needs it. -/
  quoted : ∀ s : String, Text.quoteString s = '"' :: (s.toList.flatMap (fun c =>
    if c = '\t' then ['\\', 't'] else if c = '\r' then ['\\', 'r']
    else if c = '\n' then ['\\', 'n'] else if c = '\x00' then ['\\', '0']
    else if c = '\\' ∨ c = '"' then ['\\', c]
    else if Text.isHidden c then '\\' :: 'u' :: '\x7b' :: (Nat.toDigits 16 c.toNat ++ ['\x7d'])
    else [c]) ++ ['"'])
  /-- The characters that are escaped by their code points are those of the tables. -/
  hidden : ∀ c, Text.isHidden c = true ↔
    (∃ range ∈ Text.unprintableRanges, range.1 ≤ c.toNat ∧ c.toNat ≤ range.2) ∨
    (∃ range ∈ Text.defaultIgnorableRanges, range.1 ≤ c.toNat ∧ c.toNat ≤ range.2) ∨
    (∃ range ∈ Text.graphemeExtendRanges, range.1 ≤ c.toNat ∧ c.toNat ≤ range.2) ∧
      c ≠ '\uff9e' ∧ c ≠ '\uff9f'

theorem spelled (kind : GraphKind) : Spelled kind where
  keyword := by cases kind <;> rfl
  rankDir value := by
    rw [Statement.write_rankDir, List.append_assoc]
    rfl
  node id attrs := by rw [Statement.write_node, statement, List.append_assoc]
  edge left right attrs := by
    rw [Statement.write_edge, statement]
    cases kind <;> simp [GraphKind.connector]
  bare := rfl
  bracketed entry entries := by
    rw [attributeList_cons, ← List.append_assoc]
    rfl
  quoted s := by
    rw [Text.quoteString, Text.quote, ← funext (Text.escape_eq '"')]
  hidden c := Text.isHidden_eq_true

/-- What the text of a graph says, statement by statement. -/
def statements (graph : Graph) : List Statement :=
  graph.rankDir.toList.map .rankDir ++ graph.nodes.toList.map .node ++
    (ungroup graph.edges.toList).map .edge

theorem chars_eq (graph : Graph) :
    graph.chars = graph.kind.keyword.toList ++ [' ', '\x7b'] ++
      (graph.statements.flatMap (Statement.write graph.kind) ++ ['\x7d']) := by
  have hrankDir : graph.entries.flatMap (fun entry => statement (assignment entry)) =
      (graph.rankDir.toList.map .rankDir).flatMap (Statement.write graph.kind) := by
    cases h : graph.rankDir <;> simp [entries, h, Statement.write]
  have hnodes : graph.nodes.toList.flatMap nodeStatement =
      (graph.nodes.toList.map .node).flatMap (Statement.write graph.kind) := by
    simp [List.flatMap_map, Statement.write]
  have hedges : graph.edges.toList.flatMap (edgeStatements graph.kind) =
      ((ungroup graph.edges.toList).map .edge).flatMap (Statement.write graph.kind) := by
    simp only [ungroup, List.flatMap_map, List.flatMap_assoc]
    rfl
  rw [chars, hrankDir, hnodes, hedges, statements]
  simp only [List.flatMap_append, List.append_assoc]

theorem findSome?_rankDir?_statements (graph : Graph) :
    graph.statements.findSome? Statement.rankDir? = graph.rankDir := by
  cases h : graph.rankDir with
  | none => simp [statements, h, List.findSome?_map, Function.comp_def, Statement.rankDir?]
  | some value => rw [statements, h]; rfl

theorem filterMap_node?_statements (graph : Graph) :
    graph.statements.filterMap Statement.node? = graph.nodes.toList := by
  simp [statements, List.filterMap_map, Function.comp_def, Statement.node?]

theorem filterMap_edge?_statements (graph : Graph) :
    graph.statements.filterMap Statement.edge? = ungroup graph.edges.toList := by
  simp [statements, List.filterMap_map, Function.comp_def, Statement.edge?]

/-- The first letter of the text tells the two kinds apart. -/
theorem kind_eq_of_chars {graph graph' : Graph} (same : graph.chars = graph'.chars) :
    graph.kind = graph'.kind := by
  rw [chars_eq, chars_eq] at same
  cases hkind : graph.kind <;> cases hkind' : graph'.kind <;>
    simp [hkind, hkind', GraphKind.keyword] at same ⊢

theorem statements_eq_of_chars {graph graph' : Graph} (same : graph.chars = graph'.chars) :
    graph.statements = graph'.statements := by
  have hkind := kind_eq_of_chars same
  have hlist := (Statement.write_selfDelimiting graph.kind).list fun said _ =>
    Statement.write_beginsOff graph.kind said
  rw [chars_eq, chars_eq, ← hkind] at same
  exact (hlist (fun _ _ => trivial) (fun _ _ => trivial)
    (congrArg (· ++ []) (List.append_cancel_left same))).1

theorem ext {graph graph' : Graph} (kind : graph.kind = graph'.kind)
    (rankDir : graph.rankDir = graph'.rankDir) (nodes : graph.nodes.toList = graph'.nodes.toList)
    (edges : graph.edges.toList = graph'.edges.toList) : graph = graph' := by
  obtain ⟨_, _, ⟨_⟩, ⟨_⟩⟩ := graph
  obtain ⟨_, _, ⟨_⟩, ⟨_⟩⟩ := graph'
  obtain rfl := kind
  obtain rfl := rankDir
  obtain rfl := nodes
  obtain rfl := edges
  rfl

theorem eq_of_text {graph graph' : Graph} (grouped : Grouped graph.edges.toList)
    (grouped' : Grouped graph'.edges.toList) (same : graph.text = graph'.text) :
    graph = graph' := by
  have hchars : graph.chars = graph'.chars := String.ofList_injective same
  have hkind := kind_eq_of_chars hchars
  have hstatements := statements_eq_of_chars hchars
  have hrankDir : graph.rankDir = graph'.rankDir := by
    rw [← findSome?_rankDir?_statements, hstatements, findSome?_rankDir?_statements]
  have hnodes : graph.nodes.toList = graph'.nodes.toList := by
    rw [← filterMap_node?_statements, hstatements, filterMap_node?_statements]
  have hedges : graph.edges.toList = graph'.edges.toList := by
    apply grouped.eq_of_ungroup grouped'
    rw [← filterMap_edge?_statements, hstatements, filterMap_edge?_statements]
  exact ext hkind hrankDir hnodes hedges

end Graph
end Automata
