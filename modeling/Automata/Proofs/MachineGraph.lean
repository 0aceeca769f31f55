import Automata.Graph.Machine
import Automata.Proofs.Edits

/-! The drawing of an automaton shows its states and its rules and nothing else. Distinct states are
different nodes even if they have the same name, because a node goes by the number of its state and
numbers are written differently from each other and from the mark at the start. So the edges between
two nodes are the rules between the two states, each as often as it is listed. -/
namespace Automata
namespace Graph
variable {S : Type} [Ordered S]

section Names
variable (states : List S)

theorem nodeName_eq_repr (q : S) : nodeName states q = (states.idxOf q).repr := rfl

variable {states}

theorem nodeName_inj {p q : S} (mem : p ∈ states) (same : nodeName states p = nodeName states q) :
    p = q := by
  have hdigits : Nat.toDigits 10 (states.idxOf p) = Nat.toDigits 10 (states.idxOf q) :=
    String.ofList_injective same
  exact (List.idxOf_inj mem).1 (Text.decimal_injective hdigits)

/-- The names of the nodes that stand for the two states. -/
def nodeNames (states : List S) (ends : S × S) : String × String :=
  (nodeName states ends.1, nodeName states ends.2)

theorem nodeNames_inj {ends ends' : S × S} (left : ends.1 ∈ states) (right : ends.2 ∈ states)
    (same : nodeNames states ends = nodeNames states ends') : ends = ends' :=
  Prod.ext (nodeName_inj left (Prod.mk.inj same).1) (nodeName_inj right (Prod.mk.inj same).2)

theorem nodeName_ne_startMark (q : S) : nodeName states q ≠ startMark := by
  intro same
  have hdigits : Nat.toDigits 10 (states.idxOf q) = startMark.toList := by
    rw [← same, nodeName, String.toList_ofList]
  have hunderscore : '_' ∈ Nat.toDigits 10 (states.idxOf q) := by
    rw [hdigits]
    decide
  exact Text.not_mem_decimal (by decide) _ hunderscore

theorem mark_ne_nodeNames (ends : S × S) (name : String) :
    (startMark, name) ≠ nodeNames states ends :=
  fun same => nodeName_ne_startMark ends.1 (Prod.mk.inj same).1.symm

/-- A state that is listed is found when its number is looked up. -/
theorem exists_idxOf?_eq_some {q : S} (mem : q ∈ states) :
    ∃ i, states.idxOf? q = some i ∧ nodeName states q = i.repr := by
  obtain ⟨i, found⟩ := Option.isSome_iff_exists.1 (List.isSome_idxOf?.2 mem)
  refine ⟨i, found, ?_⟩
  rw [nodeName_eq_repr, List.idxOf_eq_getD_idxOf?, found]
  rfl

end Names

/-- The states that are numbered first, as often as they are named. -/
def named (start : S) (rules : List (Rule S)) : List S :=
  start :: rules.flatMap fun rule => [rule.source, rule.target]

/-- Each rule under its two ends. -/
def spanned (rules : List (Rule S)) : List ((S × S) × Rule S) :=
  rules.map fun rule => ((rule.source, rule.target), rule)

theorem itemsOf_spanned (rules : List (Rule S)) (p q : S) :
    itemsOf (p, q) (spanned rules) = rules.filter fun rule => rule.source = p ∧ rule.target = q := by
  rw [itemsOf, spanned, List.filter_map, List.map_map]
  simp [Function.comp_def]

section States
variable {start : S} {accept : SortedSet S} {rules : List (Rule S)}

theorem mem_machineStates {q : S} :
    q ∈ machineStates start accept rules ↔
      q = start ∨ (∃ rule ∈ rules, q = rule.source ∨ q = rule.target) ∨ q ∈ accept := by
  simp [machineStates, SortedSet.mem_def]

theorem start_mem : start ∈ machineStates start accept rules := mem_machineStates.2 (.inl rfl)

/-- The ends of the rules are among the states. -/
theorem ends_mem {ends : S × S} (mem : ends ∈ keysOf (spanned rules)) :
    ends.1 ∈ machineStates start accept rules ∧ ends.2 ∈ machineStates start accept rules := by
  rw [mem_keysOf, spanned, List.map_map] at mem
  obtain ⟨rule, hrule, rfl⟩ := List.mem_map.1 mem
  exact ⟨mem_machineStates.2 (.inr (.inl ⟨rule, hrule, .inl rfl⟩)),
    mem_machineStates.2 (.inr (.inl ⟨rule, hrule, .inr rfl⟩))⟩

theorem nodup_machineStates : (machineStates start accept rules).Nodup := nodup_eraseDups _

/-- The accepting states that nothing else names come last, and in ascending order. -/
theorem machineStates_eq : machineStates start accept rules =
    (named start rules).eraseDups ++ accept.toList.filter (· ∉ named start rules) := by
  have hrest : accept.toList.removeAll (named start rules) =
      accept.toList.filter (· ∉ named start rules) := by
    simp [List.removeAll]
  have hdistinct : (accept.toList.filter (· ∉ named start rules)).Nodup := by
    refine List.Nodup.filter _ (accept.ascending.imp fun {p q} hlt same => ?_)
    exact Ordered.lt_irrefl p (same ▸ hlt)
  calc machineStates start accept rules
      = (named start rules ++ accept.toList).eraseDups := rfl
    _ = (named start rules).eraseDups ++ accept.toList.filter (· ∉ named start rules) := by
        rw [List.eraseDups_append, hrest, eraseDups_eq_self hdistinct]

theorem nodeName_start : nodeName (machineStates start accept rules) start = "0" := by
  rw [machineStates, List.eraseDups_cons, nodeName_eq_repr, List.idxOf_cons_self]
  rfl

theorem zipIdx_machineStates : (machineStates start accept rules).zipIdx =
    (machineStates start accept rules).map
      fun q => (q, (machineStates start accept rules).idxOf q) := by
  apply List.ext_getElem
  · simp
  · intro i hzip hmap
    simp [nodup_machineStates.idxOf_getElem]

end States

/-- The edges that stand for the rules. -/
def ruleStrokes (states : List S) (rules : List (Rule S)) :
    List ((String × String) × List (EdgeAttr × String)) :=
  (spanned rules).map (Prod.map (nodeNames states) fun rule =>
    [(.label, String.ofList (Rule.symbolChars rule.symbol))])

theorem mark_notMem_ruleStrokes (states : List S) (rules : List (Rule S)) :
    (startMark, "0") ∉ keysOf (ruleStrokes states rules) := by
  rw [mem_keysOf, ruleStrokes, List.map_map]
  intro mem
  obtain ⟨⟨ends, rule⟩, -, same⟩ := List.mem_map.1 mem
  exact mark_ne_nodeNames ends "0" same.symm

theorem touched_ruleEdits (states : List S) (rules : List (Rule S)) :
    (touched (rules.map (ruleEdit states))).map Prod.fst =
    (rules.flatMap fun rule => [rule.source, rule.target]).map (nodeName states) := by
  rw [touched, List.flatMap_map, List.map_flatMap, List.map_flatMap]
  rfl

variable [StateText S]

section Drawn
variable (start : S) (accept : SortedSet S) (rules : List (Rule S))

/-- The attributes of the node of a state. -/
def stateAttrs (q : S) : NodeAttrs :=
  ⟨some (String.ofList (StateText.name q)), if q ∈ accept then some "2" else none, none, none⟩

def markAttrs : NodeAttrs := ⟨some "", none, some "point", some "invis"⟩

def ruleAttrs (rule : Rule S) : EdgeAttrs := ⟨some (String.ofList (Rule.symbolChars rule.symbol))⟩

/-- What is set on the node of a state. -/
def stateSettings (q : S) : List (NodeAttr × String) :=
  (.label, String.ofList (StateText.name q)) :: if q ∈ accept then [(.borderCount, "2")] else []

theorem setAll_stateSettings (q : S) :
    NodeAttrs.blank.setAll (stateSettings accept q) = stateAttrs accept q := by
  rw [stateSettings, stateAttrs]
  split <;> rfl

/-- The last edits: the mark, and the edge from it to the start state. -/
def markEdits (states : List S) : List Edit :=
  [.node startMark [(.style, "invis"), (.shape, "point"), (.label, "")],
    .edge startMark (nodeName states start) []]

theorem machineEdits_eq : machineEdits start accept rules =
    .rankDir "LR" :: ((machineStates start accept rules).map
        (stateEdit (machineStates start accept rules) accept) ++
      (rules.map (ruleEdit (machineStates start accept rules)) ++
        markEdits start (machineStates start accept rules))) := by
  rw [← List.append_assoc]
  rfl

theorem touched_stateEdits (states : List S) : touched (states.map (stateEdit states accept)) =
    (states.map fun q => (q, stateSettings accept q)).map (Prod.map (nodeName states) id) := by
  rw [touched, List.flatMap_map, List.map_map]
  exact List.map_eq_flatMap.symm

/-- The nodes are those of the states and, after them, the mark. -/
theorem keysOf_touched_machineEdits : keysOf (touched (machineEdits start accept rules)) =
    (machineStates start accept rules).map (nodeName (machineStates start accept rules)) ++
      [startMark] := by
  let states := machineStates start accept rules
  let names := states.map (nodeName states)
  let ends := (rules.flatMap fun rule => [rule.source, rule.target]).map (nodeName states)
  -- every state is mentioned by its own edit before any rule mentions it
  have hmentioned : (touched (machineEdits start accept rules)).map Prod.fst =
      names ++ ends ++ [startMark] ++ [startMark, nodeName states start] := by
    have hstates : (touched (states.map (stateEdit states accept))).map Prod.fst = names := by
      rw [touched_stateEdits, List.map_map, List.map_map]
      rfl
    have hsplit : touched (machineEdits start accept rules) =
        touched (states.map (stateEdit states accept)) ++
          (touched (rules.map (ruleEdit states)) ++ touched (markEdits start states)) := by
      rw [← touched_append, ← touched_append, machineEdits_eq]
      rfl
    rw [hsplit, List.map_append, List.map_append, hstates, touched_ruleEdits, List.append_assoc,
      List.append_assoc]
    rfl
  have hends : ends ⊆ names := by
    refine List.map_subset _ fun q mem => ?_
    exact mem_machineStates.2 (.inr (.inl (by simpa using mem)))
  have hmark : startMark ∉ names ++ ends := by
    intro mem
    obtain ⟨q, -, same⟩ := List.mem_map.1 (List.append_subset.2 ⟨List.Subset.refl _, hends⟩ mem)
    exact nodeName_ne_startMark q same
  have hstart : nodeName states start ∈ names := List.mem_map_of_mem start_mem
  have hagain : [startMark, nodeName states start] ⊆ names ++ ends ++ [startMark] := by
    simp [hstart]
  have hdistinct : names.Nodup :=
    nodup_machineStates.map_on fun _ mem _ _ same => nodeName_inj mem same
  rw [keysOf, hmentioned, eraseDups_append_of_subset hagain, eraseDups_concat, if_neg hmark,
    eraseDups_append_of_subset hends, eraseDups_eq_self hdistinct]

variable {start accept rules}

theorem settingsOn_state {q : S} (mem : q ∈ machineStates start accept rules) :
    settingsOn (nodeName (machineStates start accept rules) q) (machineEdits start accept rules) =
      stateSettings accept q := by
  let states := machineStates start accept rules
  have hstates : settingsOn (nodeName states q) (states.map (stateEdit states accept)) =
      stateSettings accept q := by
    have apart : ∀ p ∈ keysOf (states.map fun q => (q, stateSettings accept q)),
        nodeName states p = nodeName states q → p = q := by
      intro p hp same
      refine nodeName_inj ?_ same
      simpa [mem_keysOf] using hp
    rw [settingsOn, touched_stateEdits, itemsOf_map apart, itemsOf_map_mk nodup_machineStates _ mem]
    simp
  have hothers : settingsOn (nodeName states q)
      (rules.map (ruleEdit states) ++ markEdits start states) = [] := by
    refine settingsOn_eq_nil fun settings hnode => ?_
    simp [ruleEdit, markEdits, nodeName_ne_startMark] at hnode
  rw [machineEdits_eq, ← List.singleton_append, settingsOn_append, settingsOn_append, hstates,
    hothers, List.append_nil]
  rfl

theorem settingsOn_mark : settingsOn startMark (machineEdits start accept rules) =
    [(.style, "invis"), (.shape, "point"), (.label, "")] := by
  let states := machineStates start accept rules
  have hmark : settingsOn startMark (markEdits start states) =
      [(.style, "invis"), (.shape, "point"), (.label, "")] := by
    simp [settingsOn, touched, markEdits, Edit.touches, itemsOf, nodeName_ne_startMark]
  have hothers : settingsOn startMark (.rankDir "LR" ::
      (states.map (stateEdit states accept) ++ rules.map (ruleEdit states))) = [] := by
    refine settingsOn_eq_nil fun settings hnode => ?_
    simp [stateEdit, ruleEdit, nodeName_ne_startMark] at hnode
  rw [machineEdits_eq, ← List.append_assoc, ← List.cons_append, settingsOn_append, hothers, hmark]
  rfl

theorem strokes_machineEdits : strokes (machineEdits start accept rules) =
    ruleStrokes (machineStates start accept rules) rules ++ [((startMark, "0"), [])] := by
  let states := machineStates start accept rules
  have hstates : strokes (states.map (stateEdit states accept)) = [] := by
    simp [strokes, stateEdit, Edit.draws, List.flatMap_map]
  have hrules : strokes (rules.map (ruleEdit states)) = ruleStrokes states rules := by
    rw [strokes, List.flatMap_map, ruleStrokes, spanned, List.map_map]
    exact List.map_eq_flatMap.symm
  have hmark : strokes (markEdits start states) = [((startMark, "0"), [])] := by
    rw [markEdits, nodeName_start]
    rfl
  rw [machineEdits_eq, ← List.singleton_append, strokes_append, strokes_append, strokes_append,
    hstates, hrules, hmark]
  rfl

/-- The groups of edges are those of the rules, and after them the one of the mark. -/
theorem keysOf_strokes_machineEdits : keysOf (strokes (machineEdits start accept rules)) =
    (keysOf (spanned rules)).map (nodeNames (machineStates start accept rules)) ++
      [(startMark, "0")] := by
  have apart : ∀ a ∈ keysOf (spanned rules), ∀ b ∈ keysOf (spanned rules),
      nodeNames (machineStates start accept rules) a =
        nodeNames (machineStates start accept rules) b → a = b :=
    fun a mem _ _ => nodeNames_inj (ends_mem mem).1 (ends_mem mem).2
  rw [strokes_machineEdits, keysOf_concat, if_neg (mark_notMem_ruleStrokes _ rules), ruleStrokes,
    keysOf_map apart]

theorem itemsOf_strokes_machineEdits (ends : S × S) :
    (itemsOf (nodeNames (machineStates start accept rules) ends)
      (strokes (machineEdits start accept rules))).map EdgeAttrs.blank.setAll =
    (itemsOf ends (spanned rules)).map ruleAttrs := by
  have apart : ∀ a ∈ keysOf (spanned rules), nodeNames (machineStates start accept rules) a =
      nodeNames (machineStates start accept rules) ends → a = ends :=
    fun a mem => nodeNames_inj (ends_mem mem).1 (ends_mem mem).2
  rw [strokes_machineEdits, itemsOf_concat, if_neg (mark_ne_nodeNames ends "0"), List.append_nil,
    ruleStrokes, itemsOf_map apart, List.map_map]
  rfl

theorem itemsOf_strokes_mark :
    itemsOf (startMark, "0") (strokes (machineEdits start accept rules)) = [[]] := by
  rw [strokes_machineEdits, itemsOf_concat, itemsOf_eq_nil (mark_notMem_ruleStrokes _ rules),
    if_pos rfl]
  rfl

theorem directs_machineEdits : (machineEdits start accept rules).flatMap Edit.directs = ["LR"] := by
  simp [machineEdits, stateEdit, ruleEdit, Edit.directs, List.flatMap_map]

/-- The nodes of a drawing: each state with its number, and the mark. -/
theorem toList_nodes_ofMachine : (ofMachine start accept rules).nodes.toList =
    (machineStates start accept rules).zipIdx.map (fun entry =>
      (entry.2.repr, stateAttrs accept entry.1)) ++ [(startMark, markAttrs)] := by
  let states := machineStates start accept rules
  have hstate : ∀ q ∈ states, (nodeName states q, NodeAttrs.blank.setAll
      (settingsOn (nodeName states q) (machineEdits start accept rules))) =
        ((states.idxOf q).repr, stateAttrs accept q) := by
    intro q mem
    rw [settingsOn_state mem, setAll_stateSettings, nodeName_eq_repr]
  rw [ofMachine, toList_nodes_build, keysOf_touched_machineEdits, List.map_append, List.map_map,
    zipIdx_machineStates, List.map_map, List.map_singleton, settingsOn_mark]
  exact congrArg (· ++ _) (List.map_congr_left hstate)

/-- The groups of edges of a drawing: the rules between each two states, and the mark's edge. -/
theorem toList_edges_ofMachine : (ofMachine start accept rules).edges.toList =
    (keysOf (spanned rules)).map (fun ends => (nodeNames (machineStates start accept rules) ends,
      (itemsOf ends (spanned rules)).map ruleAttrs)) ++ [((startMark, "0"), [.blank])] := by
  rw [ofMachine, toList_edges_build, keysOf_strokes_machineEdits, List.map_append, List.map_map,
    List.map_singleton, itemsOf_strokes_mark]
  simp only [Function.comp_def, itemsOf_strokes_machineEdits]
  rfl

end Drawn

/-- The statement of a state shows its number and its name, and two borders if it accepts. -/
theorem write_stateAttrs (accept : SortedSet S) (i : Nat) (q : S) :
    Statement.write .directed (.node (i.repr, stateAttrs accept q)) =
      Text.quoteString i.repr ++ "[label=".toList ++
        Text.quoteString (String.ofList (StateText.name q)) ++
        (if q ∈ accept then ",peripheries=\"2\"".toList else []) ++ "];".toList := by
  have htwo : Text.quoteString "2" = ['"', '2', '"'] := by decide
  rw [Statement.write_node, stateAttrs]
  split <;> simp [statement, attributeList, assignment, NodeAttrs.entries, htwo]

/-- The graph shows the automaton with its states numbered as listed. -/
structure Depicts (start : S) (accept : SortedSet S) (rules : List (Rule S)) (states : List S)
    (graph : Graph) : Prop where
  kind : graph.kind = .directed
  rankDir : graph.rankDir = some "LR"
  /-- Each state has one number. -/
  distinct : states.Nodup
  mem_states : ∀ q, q ∈ states ↔
    q = start ∨ (∃ rule ∈ rules, q = rule.source ∨ q = rule.target) ∨ q ∈ accept
  /-- Start, sources and targets are numbered in the order in which they are named first, the other
  accepting states after them in ascending order. -/
  numbered : ∃ first, states = first ++ accept.toList.filter (· ∉ named start rules) ∧
    (∀ q, q ∈ first ↔ q ∈ named start rules) ∧
    first.Pairwise fun p q => (named start rules).idxOf p < (named start rules).idxOf q
  /-- No number is looked up in vain. -/
  found : ∀ q, q = start ∨ (∃ rule ∈ rules, q = rule.source ∨ q = rule.target) →
    ∃ i, states.idxOf? q = some i ∧ nodeName states q = i.repr
  /-- The nodes are the states by number, with their names and borders, and then the mark. -/
  nodes : graph.nodes.toList = states.zipIdx.map (fun entry =>
    (entry.2.repr, stateAttrs accept entry.1)) ++ [(startMark, markAttrs)]
  nodesApart : graph.nodes.keys.Nodup
  /-- The edges are the rules, pairs of ends in the order of their first rules, and then the one
  from the mark. -/
  edges : graph.edges.toList = (keysOf (spanned rules)).map (fun ends =>
    (nodeNames states ends, (itemsOf ends (spanned rules)).map ruleAttrs)) ++
      [((startMark, "0"), [.blank])]
  /-- Between the nodes of two states are the rules from the one to the other. -/
  between : ∀ p q, (graph.edges.get? (nodeName states p, nodeName states q)).getD [] =
    (rules.filter fun rule => rule.source = p ∧ rule.target = q).map ruleAttrs
  /-- All this is written, in this order. -/
  text : graph.text = String.ofList ("digraph".toList ++ [' ', '\x7b'] ++
    ((.rankDir "LR" :: (graph.nodes.toList.map .node ++ (ungroup graph.edges.toList).map .edge)).flatMap
      (Statement.write .directed) ++ ['\x7d']))
  /-- What a statement of the text looks like. -/
  spelled : Spelled .directed
  stateText : ∀ (i : Nat) (q : S),
    Statement.write .directed (.node (i.repr, stateAttrs accept q)) =
      Text.quoteString i.repr ++ "[label=".toList ++
        Text.quoteString (String.ofList (StateText.name q)) ++
        (if q ∈ accept then ",peripheries=\"2\"".toList else []) ++ "];".toList
  markText : Statement.write .directed (.node (startMark, markAttrs)) =
    "\"_start\"[label=\"\",shape=\"point\",style=\"invis\"];".toList
  ruleText : ∀ (p q : S) (rule : Rule S),
    Statement.write .directed (.edge (nodeNames states (p, q), ruleAttrs rule)) =
      Text.quoteString (nodeName states p) ++ "->".toList ++
        Text.quoteString (nodeName states q) ++ "[label=".toList ++
        Text.quoteString (String.ofList (Rule.symbolChars rule.symbol)) ++ "];".toList
  pointerText : Statement.write .directed (.edge ((startMark, "0"), .blank)) =
    "\"_start\"->\"0\";".toList
  /-- A symbol is written in printable ASCII, and a free move as the letter epsilon. -/
  symbolText : Rule.symbolChars none = ['ϵ'] ∧ ∀ c, Rule.symbolChars (some c) =
    if c = '\t' then ['\\', 't'] else if c = '\r' then ['\\', 'r']
    else if c = '\n' then ['\\', 'n'] else if c = '\\' ∨ c = '"' ∨ c = '\'' then ['\\', c]
    else if ' ' ≤ c ∧ c ≤ '~' then [c]
    else '\\' :: 'u' :: '\x7b' :: (Nat.toDigits 16 c.toNat ++ ['\x7d'])

theorem depicts_ofMachine (start : S) (accept : SortedSet S) (rules : List (Rule S)) :
    Depicts start accept rules (machineStates start accept rules) (ofMachine start accept rules) where
  kind := kind_build _ _
  rankDir := by rw [ofMachine, rankDir_build, directs_machineEdits]; rfl
  distinct := nodup_machineStates
  mem_states _ := mem_machineStates
  numbered := ⟨(named start rules).eraseDups, machineStates_eq, fun _ => List.mem_eraseDups,
    pairwise_idxOf_eraseDups _⟩
  found q hq := exists_idxOf?_eq_some (mem_machineStates.2 (hq.imp_right .inl))
  nodes := toList_nodes_ofMachine
  nodesApart := by
    rw [ofMachine, keys_nodes_build]
    exact nodup_eraseDups _
  edges := toList_edges_ofMachine
  between p q := by
    rw [ofMachine, getD_get?_edges_build, ← itemsOf_spanned]
    exact itemsOf_strokes_machineEdits (p, q)
  text := by
    rw [text, chars_eq, statements, ofMachine, rankDir_build, directs_machineEdits, kind_build]
    rfl
  spelled := Graph.spelled .directed
  stateText := write_stateAttrs accept
  markText := by decide
  ruleText p q rule := Statement.write_labelled_edge _ _ _
  pointerText := by decide
  symbolText := ⟨rfl, Text.escapeAscii_eq⟩

/-- Every automaton is drawn as it is, whether or not its states can be told apart by name. -/
theorem graph_depicts_machine :
    (∀ nfa : Nfa S, Depicts nfa.start nfa.accept nfa.rulebook.rules
      (machineStates nfa.start nfa.accept nfa.rulebook.rules) nfa.graph) ∧
    ∀ dfa : Dfa S, Depicts dfa.start dfa.accept dfa.table.rules
      (machineStates dfa.start dfa.accept dfa.table.rules) dfa.graph :=
  ⟨fun nfa => depicts_ofMachine nfa.start nfa.accept nfa.rulebook.rules,
    fun dfa => depicts_ofMachine dfa.start dfa.accept dfa.table.rules⟩

end Graph
end Automata
