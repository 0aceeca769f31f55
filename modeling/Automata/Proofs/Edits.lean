import Automata.Proofs.Collecting
import Automata.Proofs.GraphText

/-! What edits make of a graph can be told from the list of the edits. A node is there once if any
edit mentions it, at its first mention, with what all edits together set on it. Every edge is there
as it was drawn, in the group of its ends, and the groups stand in the order of their first edges.
So an edit changes the attributes of the node that it names and of nothing else, and moves nothing
that is there; and two lists of edits draw the same graph, and with it the same text, just when they
have all this in common. -/
namespace Automata

section Attributes
variable {κ : Type} [DecidableEq κ]

/-- The value that was set last under the name. -/
def lastSet (name : κ) (settings : List (κ × String)) : Option String :=
  (itemsOf name settings).getLast?

theorem lastSet_concat (name : κ) (settings : List (κ × String)) (setting : κ × String) :
    lastSet name (settings ++ [setting]) =
      if setting.1 = name then some setting.2 else lastSet name settings := by
  rw [lastSet, itemsOf_concat]
  split
  next => exact List.getLast?_concat
  next => rw [List.append_nil, lastSet]

end Attributes

namespace NodeAttrs

theorem get_setAll_blank (settings : List (NodeAttr × String)) (attr : NodeAttr) :
    (blank.setAll settings).get attr = lastSet attr settings := by
  induction settings using List.reverseRecOn with
  | nil => cases attr <;> rfl
  | append_singleton settings setting ih =>
    rw [setAll, List.foldl_concat, get_set, lastSet_concat, ← ih]
    rfl

theorem mem_entries {attrs : NodeAttrs} {name value : String} :
    (name, value) ∈ attrs.entries ↔
      ∃ attr : NodeAttr, attr.name = name ∧ attrs.get attr = some value := by
  simp only [entries, List.mem_append, Option.mem_toList, Option.map_eq_some_iff, Prod.mk.injEq]
  constructor
  · rintro (((⟨_, set, rfl, rfl⟩ | ⟨_, set, rfl, rfl⟩) | ⟨_, set, rfl, rfl⟩) | ⟨_, set, rfl, rfl⟩)
    · exact ⟨.label, rfl, set⟩
    · exact ⟨.borderCount, rfl, set⟩
    · exact ⟨.shape, rfl, set⟩
    · exact ⟨.style, rfl, set⟩
  · rintro ⟨attr, rfl, set⟩
    cases attr with
    | label => exact .inl (.inl (.inl ⟨value, set, rfl, rfl⟩))
    | borderCount => exact .inl (.inl (.inr ⟨value, set, rfl, rfl⟩))
    | shape => exact .inl (.inr ⟨value, set, rfl, rfl⟩)
    | style => exact .inr ⟨value, set, rfl, rfl⟩

theorem names_ascending (attrs : NodeAttrs) : (attrs.entries.map Prod.fst).Pairwise (· < ·) := by
  have hall : ["label", "peripheries", "shape", "style"].Pairwise (· < ·) := by decide
  refine hall.sublist ?_
  obtain ⟨_ | _, _ | _, _ | _, _ | _⟩ := attrs <;> simp [entries]

end NodeAttrs

theorem EdgeAttrs.label_setAll_blank (settings : List (EdgeAttr × String)) :
    (blank.setAll settings).label = lastSet .label settings := by
  induction settings using List.reverseRecOn with
  | nil => rfl
  | append_singleton settings setting ih =>
    rw [setAll, List.foldl_concat, lastSet_concat, if_pos (by cases setting.1; rfl)]
    rfl

theorem EdgeAttrs.setAll_blank (settings : List (EdgeAttr × String)) :
    blank.setAll settings = ⟨lastSet .label settings⟩ :=
  congrArg EdgeAttrs.mk (label_setAll_blank settings)

namespace Graph

namespace Edit

/-- The nodes that an edit mentions, with what it sets on them. An edge mentions its left end and
then its right end, and sets nothing on either. -/
def touches : Edit → List (String × List (NodeAttr × String))
  | .rankDir _ => []
  | .node id settings => [(id, settings)]
  | .edge left right _ => [(left, []), (right, [])]

/-- The edge that an edit draws, with what it sets on it. -/
def draws : Edit → List ((String × String) × List (EdgeAttr × String))
  | .edge left right settings => [((left, right), settings)]
  | .rankDir _ | .node _ _ => []

def directs : Edit → List String
  | .rankDir value => [value]
  | .node _ _ | .edge _ _ _ => []

end Edit

/-- The nodes that the edits mention, in order, with what they set on them. -/
def touched (edits : List Edit) : List (String × List (NodeAttr × String)) :=
  edits.flatMap Edit.touches

/-- What the edits set on the node. -/
def settingsOn (id : String) (edits : List Edit) : List (NodeAttr × String) :=
  (itemsOf id (touched edits)).flatten

/-- The edges that the edits draw. -/
def strokes (edits : List Edit) : List ((String × String) × List (EdgeAttr × String)) :=
  edits.flatMap Edit.draws

/-- What is to be seen of the edits: the last direction, then each node that is mentioned, in the
order of first mentions, then the edges. These go by their ends, pairs of ends in the order of their
first edges, and under each pair the edges as they are drawn. -/
def shown (edits : List Edit) : List Statement :=
  (edits.flatMap Edit.directs).getLast?.toList.map .rankDir ++
    (keysOf (touched edits)).map (fun id =>
      .node (id, NodeAttrs.blank.setAll (settingsOn id edits))) ++
    (keysOf (strokes edits)).flatMap fun ends =>
      (itemsOf ends (strokes edits)).map fun settings =>
        .edge (ends, EdgeAttrs.blank.setAll settings)

section Build
variable (kind : GraphKind) (edits more : List Edit)

theorem kind_build : (build kind edits).kind = kind :=
  build_induction (motive := fun graph => graph.kind = kind) rfl
    (fun _ edit same => by cases edit <;> exact same) edits

theorem build_concat (edit : Edit) : build kind (edits ++ [edit]) = apply (build kind edits) edit := by
  rw [build, List.foldl_concat]
  rfl

theorem rankDir_build : (build kind edits).rankDir = (edits.flatMap Edit.directs).getLast? := by
  induction edits using List.reverseRecOn with
  | nil => rfl
  | append_singleton edits edit ih =>
    rw [build_concat, List.flatMap_append, List.flatMap_singleton]
    cases edit with
    | rankDir value => simp [apply, Edit.directs]
    | node id settings => exact ih.trans (by rw [Edit.directs, List.append_nil])
    | edge left right settings => exact ih.trans (by rw [Edit.directs, List.append_nil])

theorem nodes_build_eq_foldl : (build kind edits).nodes =
    (touched edits).foldl (Entries.collect .blank NodeAttrs.setAll) .empty := by
  induction edits using List.reverseRecOn with
  | nil => rfl
  | append_singleton edits edit ih =>
    rw [build_concat, touched, List.flatMap_append, List.flatMap_singleton, List.foldl_append,
      ← touched, ← ih]
    cases edit <;> rfl

theorem edges_build_eq_foldl : (build kind edits).edges =
    (strokes edits).foldl
      (Entries.collect [] fun group settings => group ++ [EdgeAttrs.blank.setAll settings])
      .empty := by
  induction edits using List.reverseRecOn with
  | nil => rfl
  | append_singleton edits edit ih =>
    rw [build_concat, strokes, List.flatMap_append, List.flatMap_singleton, List.foldl_append,
      ← strokes, ← ih]
    cases edit <;> rfl

theorem toList_nodes_build : (build kind edits).nodes.toList =
    (keysOf (touched edits)).map fun id => (id, NodeAttrs.blank.setAll (settingsOn id edits)) := by
  have hsettings (settings : List (List (NodeAttr × String))) :
      settings.foldl NodeAttrs.setAll .blank = NodeAttrs.blank.setAll settings.flatten :=
    List.foldl_flatten.symm
  rw [nodes_build_eq_foldl, Entries.toList_foldl_collect]
  simp only [hsettings]
  rfl

/-- A group is drawn edge by edge. -/
theorem foldl_group (group : List (List (EdgeAttr × String))) :
    group.foldl (fun group settings => group ++ [EdgeAttrs.blank.setAll settings]) [] =
      group.map EdgeAttrs.blank.setAll := by
  rw [List.foldl_append_eq_append, List.nil_append]
  exact List.map_eq_flatMap.symm

theorem toList_edges_build : (build kind edits).edges.toList =
    (keysOf (strokes edits)).map fun ends =>
      (ends, (itemsOf ends (strokes edits)).map EdgeAttrs.blank.setAll) := by
  rw [edges_build_eq_foldl, Entries.toList_foldl_collect]
  simp only [foldl_group]

/-- The edges between two ends are those that are drawn between them. -/
theorem getD_get?_edges_build (ends : String × String) :
    ((build kind edits).edges.get? ends).getD [] =
      (itemsOf ends (strokes edits)).map EdgeAttrs.blank.setAll := by
  rw [edges_build_eq_foldl, Entries.get?_foldl_collect]
  split
  next => exact foldl_group _
  next absent => rw [itemsOf_eq_nil absent]; rfl

/-- A node has what is set on it, and one that no edit mentions has nothing. -/
theorem getD_get?_nodes_build (id : String) : ((build kind edits).nodes.get? id).getD .blank =
    NodeAttrs.blank.setAll (settingsOn id edits) := by
  rw [nodes_build_eq_foldl, Entries.get?_foldl_collect]
  split
  next => exact List.foldl_flatten.symm
  next absent => rw [settingsOn, itemsOf_eq_nil absent]; rfl

theorem statements_build : (build kind edits).statements = shown edits := by
  rw [statements, shown, rankDir_build, toList_nodes_build, toList_edges_build, ungroup, List.map_map,
    List.flatMap_map, List.map_flatMap]
  simp only [List.map_map]
  rfl

/-- Each edge that is drawn is there once. -/
theorem perm_edges_build : (ungroup (build kind edits).edges.toList).Perm
    ((strokes edits).map fun stroke => (stroke.1, EdgeAttrs.blank.setAll stroke.2)) := by
  have hperm := (perm_grouped (strokes edits)).map
    fun stroke => (stroke.1, EdgeAttrs.blank.setAll stroke.2)
  rw [List.map_flatMap] at hperm
  simp only [List.map_map] at hperm
  rw [toList_edges_build, ungroup, List.flatMap_map]
  simp only [List.map_map]
  exact hperm

theorem mem_touched_of_mem_strokes {left right : String} {settings : List (EdgeAttr × String)}
    (mem : ((left, right), settings) ∈ strokes edits) :
    left ∈ keysOf (touched edits) ∧ right ∈ keysOf (touched edits) := by
  obtain ⟨edit, hedit, hdraws⟩ := List.mem_flatMap.1 mem
  have htouches (id : String) (touches : (id, []) ∈ edit.touches) : id ∈ keysOf (touched edits) :=
    mem_keysOf.2 (List.mem_map_of_mem (List.mem_flatMap.2 ⟨edit, hedit, touches⟩))
  cases edit with
  | rankDir value => cases hdraws
  | node id settings => cases hdraws
  | edge l r settings =>
    obtain ⟨⟨rfl, rfl⟩, rfl⟩ := List.mem_singleton.1 hdraws
    exact ⟨htouches _ List.mem_cons_self, htouches _ (List.mem_cons_of_mem _ List.mem_cons_self)⟩

theorem touched_append : touched (edits ++ more) = touched edits ++ touched more :=
  List.flatMap_append

theorem strokes_append : strokes (edits ++ more) = strokes edits ++ strokes more :=
  List.flatMap_append

theorem settingsOn_append (id : String) :
    settingsOn id (edits ++ more) = settingsOn id edits ++ settingsOn id more := by
  rw [settingsOn, touched_append, itemsOf_append, List.flatten_append]
  rfl

variable {edits}

theorem settingsOn_eq_nil {id : String}
    (bare : ∀ settings, .node id settings ∈ edits → settings = []) : settingsOn id edits = [] := by
  rw [settingsOn, List.flatten_eq_nil_iff]
  intro settings mem
  obtain ⟨edit, hedit, htouches⟩ := List.mem_flatMap.1 (mem_itemsOf.1 mem)
  cases edit with
  | rankDir value => cases htouches
  | node other settings =>
    obtain ⟨rfl, rfl⟩ := List.mem_singleton.1 htouches
    exact bare _ hedit
  | edge left right _ =>
    simp only [Edit.touches, List.mem_cons, Prod.mk.injEq, List.not_mem_nil, or_false] at htouches
    obtain ⟨-, rfl⟩ | ⟨-, rfl⟩ := htouches <;> rfl

/-- A node keeps its place, and what is set on it later comes on top of what it had. -/
theorem getElem?_nodes_build_append {i : Nat} {id : String} {attrs : NodeAttrs}
    (place : (build kind edits).nodes.toList[i]? = some (id, attrs)) :
    (build kind (edits ++ more)).nodes.toList[i]? =
      some (id, attrs.setAll (settingsOn id more)) := by
  rw [toList_nodes_build, List.getElem?_map, Option.map_eq_some_iff] at place ⊢
  obtain ⟨_, place, ⟨rfl, rfl⟩⟩ := place
  rw [touched_append]
  refine ⟨_, getElem?_keysOf_append place _, ?_⟩
  rw [settingsOn_append, NodeAttrs.setAll, List.foldl_append]
  rfl

/-- A group of edges keeps its place, and later edges come after those in it. -/
theorem getElem?_edges_build_append {i : Nat} {ends : String × String} {group : List EdgeAttrs}
    (place : (build kind edits).edges.toList[i]? = some (ends, group)) :
    ∃ added, (build kind (edits ++ more)).edges.toList[i]? = some (ends, group ++ added) := by
  rw [toList_edges_build, List.getElem?_map, Option.map_eq_some_iff] at place
  obtain ⟨_, place, ⟨rfl, rfl⟩⟩ := place
  refine ⟨(itemsOf ends (strokes more)).map EdgeAttrs.blank.setAll, ?_⟩
  rw [toList_edges_build, strokes_append, List.getElem?_map, getElem?_keysOf_append place,
    Option.map_some, itemsOf_append, List.map_append]

end Build

/-- What two lists of edits have in common that draw the same graph: the last direction, the nodes in
the order of their first mentions with the last value of each attribute, and the groups of edges in
the order of their first edges, edge by edge with the last label. -/
structure DrawAlike (edits edits' : List Edit) : Prop where
  direction : (edits.flatMap Edit.directs).getLast? = (edits'.flatMap Edit.directs).getLast?
  nodes : keysOf (touched edits) = keysOf (touched edits')
  nodeAttrs : ∀ id attr, lastSet attr (settingsOn id edits) = lastSet attr (settingsOn id edits')
  groups : keysOf (strokes edits) = keysOf (strokes edits')
  labels : ∀ ends, (itemsOf ends (strokes edits)).map (lastSet .label) =
    (itemsOf ends (strokes edits')).map (lastSet .label)

theorem keys_nodes_build (kind : GraphKind) (edits : List Edit) :
    (build kind edits).nodes.keys = keysOf (touched edits) := by
  rw [nodes_build_eq_foldl, Entries.keys_foldl_collect]

theorem keys_edges_build (kind : GraphKind) (edits : List Edit) :
    (build kind edits).edges.keys = keysOf (strokes edits) := by
  rw [edges_build_eq_foldl, Entries.keys_foldl_collect]

/-- The labels of the edges between two ends are the last ones that are set on them. -/
theorem labels_build (kind : GraphKind) (edits : List Edit) (ends : String × String) :
    (((build kind edits).edges.get? ends).getD []).map EdgeAttrs.label =
      (itemsOf ends (strokes edits)).map (lastSet .label) := by
  rw [getD_get?_edges_build, List.map_map]
  exact List.map_congr_left fun settings _ => EdgeAttrs.label_setAll_blank settings

/-- What is built tells the kind and what the edits draw, and nothing else of the edits. -/
theorem build_eq_iff {kind kind' : GraphKind} {edits edits' : List Edit} :
    build kind edits = build kind' edits' ↔ kind = kind' ∧ DrawAlike edits edits' := by
  constructor
  · intro same
    refine ⟨by rw [← kind_build kind edits, same, kind_build], ?_⟩
    constructor
    case direction => rw [← rankDir_build kind, same, rankDir_build]
    case nodes => rw [← keys_nodes_build kind, same, keys_nodes_build]
    case nodeAttrs =>
      intro id attr
      rw [← NodeAttrs.get_setAll_blank, ← getD_get?_nodes_build kind, same, getD_get?_nodes_build,
        NodeAttrs.get_setAll_blank]
    case groups => rw [← keys_edges_build kind, same, keys_edges_build]
    case labels =>
      intro ends
      rw [← labels_build kind, same, labels_build]
  · rintro ⟨rfl, alike⟩
    have hattrs (id : String) : NodeAttrs.blank.setAll (settingsOn id edits) =
        NodeAttrs.blank.setAll (settingsOn id edits') := by
      apply NodeAttrs.ext_get
      intro attr
      rw [NodeAttrs.get_setAll_blank, NodeAttrs.get_setAll_blank, alike.nodeAttrs]
    have hgroup (ends : String × String) :
        (itemsOf ends (strokes edits)).map EdgeAttrs.blank.setAll =
          (itemsOf ends (strokes edits')).map EdgeAttrs.blank.setAll := by
      have hlabels := congrArg (List.map EdgeAttrs.mk) (alike.labels ends)
      simpa only [List.map_map, Function.comp_def, ← EdgeAttrs.setAll_blank] using hlabels
    have hnodes : (build kind edits).nodes.toList = (build kind edits').nodes.toList := by
      simp only [toList_nodes_build, alike.nodes, hattrs]
    have hedges : (build kind edits).edges.toList = (build kind edits').edges.toList := by
      simp only [toList_edges_build, alike.groups, hgroup]
    apply ext
    · rw [kind_build, kind_build]
    · rw [rankDir_build, rankDir_build, alike.direction]
    · exact hnodes
    · exact hedges

/-- Two graphs that are built have the same text only if they are the same: of the same kind and
with the same layout direction, with the same nodes in the same order and the same attributes on
them, and with the same groups of edges in the same order, edge by edge with the same attributes. -/
theorem text_build_inj (kind kind' : GraphKind) (edits edits' : List Edit) :
    ((build kind edits).text = (build kind' edits').text ↔
      build kind edits = build kind' edits') ∧
    (build kind edits = build kind' edits' ↔ kind = kind' ∧ DrawAlike edits edits') := by
  refine ⟨⟨?_, congrArg text⟩, build_eq_iff⟩
  exact eq_of_text (grouped_build kind edits) (grouped_build kind' edits')

/-- What the text of a graph shows of the edits that drew the graph up. -/
structure ShowsEdits (kind : GraphKind) (edits : List Edit) : Prop where
  /-- The text says what is to be seen of the edits, statement by statement. -/
  text : (build kind edits).text = String.ofList (kind.keyword.toList ++ [' ', '\x7b'] ++
    ((shown edits).flatMap (Statement.write kind) ++ ['\x7d']))
  /-- What a statement of the text looks like. -/
  spelled : Spelled kind
  /-- No node comes twice, and no pair of ends. -/
  distinct : (keysOf (touched edits)).Nodup ∧ (keysOf (strokes edits)).Nodup
  /-- Each edge that is drawn has one statement. -/
  edges : ((shown edits).filterMap Statement.edge?).Perm
    ((strokes edits).map fun stroke => (stroke.1, EdgeAttrs.blank.setAll stroke.2))
  /-- Both ends of an edge have statements. -/
  ends : ∀ left right attrs, .edge ((left, right), attrs) ∈ shown edits →
    (∃ attrs, .node (left, attrs) ∈ shown edits) ∧ ∃ attrs, .node (right, attrs) ∈ shown edits
  /-- A node is written with what is set on it, each attribute with its last value, in the order of
  the names. -/
  nodeAttrs : ∀ id attrs, .node (id, attrs) ∈ shown edits →
    (attrs.entries.map Prod.fst).Pairwise (· < ·) ∧
      ∀ name value, (name, value) ∈ attrs.entries ↔
        ∃ attr : NodeAttr, attr.name = name ∧ lastSet attr (settingsOn id edits) = some value
  /-- An edge is written with the label that is set on it last, if any is. -/
  edgeAttrs : ∀ settings : List (EdgeAttr × String), (EdgeAttrs.blank.setAll settings).entries =
    ((lastSet .label settings).map ("label", ·)).toList
  /-- A node keeps its place whatever comes later, and its attributes but for those that are set on
  it again. -/
  nodesStay : ∀ (more : List Edit) (i : Nat) (id : String) (attrs : NodeAttrs),
    (build kind edits).nodes.toList[i]? = some (id, attrs) →
    (build kind (edits ++ more)).nodes.toList[i]? =
      some (id, attrs.setAll (settingsOn id more)) ∧
    ((∀ settings, .node id settings ∈ more → settings = []) →
      (build kind (edits ++ more)).nodes.toList[i]? = some (id, attrs))
  /-- An edge keeps its group and its place in the group, and the group its place. -/
  edgesStay : ∀ (more : List Edit) (i : Nat) (ends : String × String) (group : List EdgeAttrs),
    (build kind edits).edges.toList[i]? = some (ends, group) →
    ∃ added, (build kind (edits ++ more)).edges.toList[i]? = some (ends, group ++ added)

theorem mem_shown_node {id : String} {attrs : NodeAttrs} :
    .node (id, attrs) ∈ shown edits ↔
      id ∈ keysOf (touched edits) ∧ NodeAttrs.blank.setAll (settingsOn id edits) = attrs := by
  simp [shown]

theorem mem_shown_edge {left right : String} {attrs : EdgeAttrs} :
    .edge ((left, right), attrs) ∈ shown edits ↔
      ∃ settings, ((left, right), settings) ∈ strokes edits ∧
        EdgeAttrs.blank.setAll settings = attrs := by
  simp only [shown, List.mem_append, List.mem_map, List.mem_flatMap, mem_itemsOf]
  constructor
  · rintro ((⟨_, -, ⟨⟩⟩ | ⟨_, -, ⟨⟩⟩) | ⟨ends, -, settings, mem, ⟨⟩⟩)
    exact ⟨settings, mem, rfl⟩
  · rintro ⟨settings, mem, rfl⟩
    exact .inr ⟨_, mem_keysOf.2 (List.mem_map_of_mem mem), settings, mem, rfl⟩

/-- The text of a graph shows each node once and each edge, with what was set on them, and no later
edit takes any of this back. -/
theorem text_build_shows_edits (kind : GraphKind) (edits : List Edit) : ShowsEdits kind edits where
  text := by rw [text, chars_eq, kind_build, statements_build]
  spelled := spelled kind
  distinct := ⟨nodup_eraseDups _, nodup_eraseDups _⟩
  edges := by
    rw [← statements_build kind, filterMap_edge?_statements]
    exact perm_edges_build kind edits
  ends left right attrs mem := by
    obtain ⟨settings, mem, -⟩ := mem_shown_edge.1 mem
    obtain ⟨hleft, hright⟩ := mem_touched_of_mem_strokes edits mem
    exact ⟨⟨_, mem_shown_node.2 ⟨hleft, rfl⟩⟩, ⟨_, mem_shown_node.2 ⟨hright, rfl⟩⟩⟩
  nodeAttrs id attrs mem := by
    obtain ⟨-, rfl⟩ := mem_shown_node.1 mem
    refine ⟨NodeAttrs.names_ascending _, fun name value => ?_⟩
    simp only [NodeAttrs.mem_entries, NodeAttrs.get_setAll_blank]
  edgeAttrs settings := by rw [EdgeAttrs.entries, EdgeAttrs.label_setAll_blank]
  nodesStay more i id attrs place := by
    have later := getElem?_nodes_build_append kind more place
    refine ⟨later, fun bare => ?_⟩
    rw [later, settingsOn_eq_nil bare]
    rfl
  edgesStay more i ends group place := getElem?_edges_build_append kind more place

end Graph
end Automata
