import Automata.Graph.Text
import Automata.Nfa.Basic
import Automata.Dfa.Basic

/-! The drawing of an automaton. States are numbered in the order in which they first appear: the
start state, then source and target of each rule, then the accepting states that are left. The nodes
go by those numbers and carry the names of the states as labels, so two states of one name are still
two nodes. An accepting state has a second border. A last, invisible node points at the start. -/
namespace Automata
namespace Graph
variable {S : Type} [Ordered S]

/-- The states of an automaton in order of first appearance. -/
def machineStates (start : S) (accept : SortedSet S) (rules : List (Rule S)) : List S :=
  (start :: (rules.flatMap (fun rule => [rule.source, rule.target]) ++ accept.toList)).eraseDups

/-- The name of the node that stands for the state: its place in the list. -/
def nodeName (states : List S) (state : S) : String :=
  String.ofList (Nat.toDigits 10 (states.idxOf state))

/-- The name of the node from which the start state is pointed at. -/
def startMark : String := "_start"

variable [StateText S]

def stateEdit (states : List S) (accept : SortedSet S) (state : S) : Edit :=
  .node (nodeName states state) <|
    (.label, String.ofList (StateText.name state)) ::
      if state ∈ accept then [(.borderCount, "2")] else []

def ruleEdit (states : List S) (rule : Rule S) : Edit :=
  .edge (nodeName states rule.source) (nodeName states rule.target)
    [(.label, String.ofList (Rule.symbolChars rule.symbol))]

/-- The steps in which an automaton is drawn. -/
def machineEdits (start : S) (accept : SortedSet S) (rules : List (Rule S)) : List Edit :=
  let states := machineStates start accept rules
  .rankDir "LR" :: (states.map (stateEdit states accept) ++ rules.map (ruleEdit states) ++
    [.node startMark [(.style, "invis"), (.shape, "point"), (.label, "")],
      .edge startMark (nodeName states start) []])

def ofMachine (start : S) (accept : SortedSet S) (rules : List (Rule S)) : Graph :=
  build .directed (machineEdits start accept rules)

end Graph

variable {S : Type} [Ordered S] [StateText S]

def Nfa.graph (nfa : Nfa S) : Graph := .ofMachine nfa.start nfa.accept nfa.rulebook.rules

def Dfa.graph (dfa : Dfa S) : Graph := .ofMachine dfa.start dfa.accept dfa.table.rules

end Automata
