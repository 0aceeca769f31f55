import Automata.Dfa.Basic
import Automata.Graph.Machine
import Automata.Nfa.Subset
import Automata.Pattern.Compile
import Automata.Pattern.Parser
import Automata.Proofs.Descent
import Automata.Proofs.Feed
import Automata.Proofs.Idempotence
import Automata.Proofs.Reassociation
import Automata.Proofs.Regrouping
import Automata.Proofs.Renaming
import Automata.Proofs.Trimness
import Automata.Proofs.Closure
import Automata.Proofs.Drawing
import Automata.Proofs.Escaping
import Automata.Proofs.Parentheses
import Automata.Proofs.Shortlex
import Automata.Proofs.GraphText
import Automata.Proofs.Validation
import Automata.Proofs.Collecting
import Automata.Proofs.Edits
import Automata.Proofs.Stuck
import Automata.Proofs.MachineGraph
import Automata.Proofs.RuleText
import Automata.Proofs.Minting
import Automata.Proofs.Worklist
import Automata.Proofs.Fragments
