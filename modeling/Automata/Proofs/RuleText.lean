import Automata.Proofs.Escaping
import Automata.Rule

/-! The text of a rule determines the rule. Spaces, dashes and arrow heads are symbols too, so the
arrow cannot be looked for. Read from the left, the source ends at the first space, since no name
has one; the symbol ends by itself, whatever follows it; and behind the arrow the rest is the
target. A name with a space in it would break this, which is why it is said of states whose names
are legible: numbers with or without a sign, and minted states. -/
namespace Automata

namespace StateText

/-- Names that tell the states apart and have no space in them. -/
structure Legible (S : Type) [StateText S] : Prop where
  injective : Function.Injective (name : S → List Char)
  unspaced : ∀ q : S, ' ' ∉ name q

theorem signedDigits_injective : Function.Injective signedDigits := by
  -- a sign is no digit, so it opens the text of no other number
  have unsigned (m n : Nat) : Nat.toDigits 10 m ≠ '-' :: Nat.toDigits 10 (n + 1) := by
    intro same
    exact Text.not_mem_decimal (by decide) m (same ▸ List.mem_cons_self)
  intro a b same
  cases a with
  | ofNat m =>
    cases b with
    | ofNat n => exact congrArg Int.ofNat (Text.decimal_injective same)
    | negSucc n => exact absurd same (unsigned m n)
  | negSucc m =>
    cases b with
    | ofNat n => exact absurd same.symm (unsigned n m)
    | negSucc n =>
      have hdigits := Text.decimal_injective (List.cons.inj same).2
      exact congrArg Int.negSucc (Nat.succ.inj hdigits)

theorem legible_int : Legible Int where
  injective := signedDigits_injective
  unspaced z := by
    cases z with
    | ofNat n => exact Text.not_mem_decimal (by decide) n
    | negSucc n =>
      intro mem
      rcases List.mem_cons.1 mem with sign | mem
      · exact absurd sign (by decide)
      · exact Text.not_mem_decimal (by decide) (n + 1) mem

theorem legible_nat : Legible Nat where
  injective := Text.decimal_injective
  unspaced := Text.not_mem_decimal (by decide)

theorem legible_state : Legible State where
  injective p q same :=
    State.id_injective p q (UInt64.toNat_inj.1 (Text.decimal_injective (List.cons.inj same).2))
  unspaced q mem := by
    rcases List.mem_cons.1 mem with letter | mem
    · exact absurd letter (by decide)
    · exact Text.not_mem_decimal (by decide) _ mem

end StateText

namespace Rule

/-- The mark of a free move opens the text of no symbol. -/
theorem symbolChars_beginsOff (c : Char) : Text.BeginsOff 'ϵ' (symbolChars (some c)) := by
  obtain ⟨d, rest, hsplit⟩ := List.exists_cons_of_ne_nil (Text.escapeAscii_ne_nil c)
  refine ⟨d, rest, hsplit, ?_⟩
  rintro rfl
  exact absurd (Text.printable_of_mem_escapeAscii (hsplit ▸ List.mem_cons_self)).2 (by decide)

/-- A symbol, or the absence of one, is read back from its text in front of any other text. -/
theorem symbolChars_selfDelimiting : Text.SelfDelimiting Set.univ symbolChars := by
  have unlike (c : Char) (u v : List Char) : symbolChars (some c) ++ u ≠ symbolChars none ++ v := by
    obtain ⟨d, rest, htext, hd⟩ := symbolChars_beginsOff c
    rw [htext]
    intro heq
    exact hd (List.cons.inj heq).1
  intro s _ t _ u v heq
  cases s with
  | none =>
    cases t with
    | none => exact ⟨rfl, (List.cons.inj heq).2⟩
    | some d => exact absurd heq.symm (unlike d v u)
  | some c =>
    cases t with
    | none => exact absurd heq (unlike c u v)
    | some d =>
      obtain ⟨hsymbol, hrest⟩ := (Text.escaped_escapeAscii c).inj (Text.escaped_escapeAscii d) heq
      exact ⟨congrArg some hsymbol, hrest⟩

theorem symbolChars_injective : Function.Injective symbolChars := by
  intro s t same
  have heq : symbolChars s ++ [] = symbolChars t ++ [] := by rw [same]
  exact (symbolChars_selfDelimiting trivial trivial heq).1

variable {S : Type} [StateText S]

theorem text_injective (legible : StateText.Legible S) :
    Function.Injective (text : Rule S → String) := by
  intro a b same
  have hchars : a.chars = b.chars := String.ofList_injective same
  simp only [chars, List.append_assoc, List.cons_append, List.nil_append] at hchars
  have hnames := (Text.SelfDelimiting.upTo ' ').comap legible.injective legible.unspaced
  obtain ⟨hsource, hrest⟩ := hnames (a := a.source) trivial (b := b.source) trivial
    (by simpa using hchars)
  obtain ⟨hsymbol, hrest⟩ := symbolChars_selfDelimiting trivial trivial
    (List.cons.inj (List.cons.inj hrest).2).2
  have htarget : a.target = b.target := legible.injective (by simpa using hrest)
  exact key_injective a b (by rw [key, key, hsource, hsymbol, htarget])

/-- With spaces in the names, an arrow can stand in a name as well as between two. -/
example : (⟨"p", some 'a', "q --b--> r"⟩ : Rule String).text =
    (⟨"p --a--> q", some 'b', "r"⟩ : Rule String).text := by decide

/-- Rules over numbers, with or without a sign, and rules over minted states are told apart by their
texts, whatever symbols they read. Symbols are told apart from each other and from a free move, the
letter that marks one included. -/
theorem text_identifies_rule :
    Function.Injective (text : Rule Int → String) ∧
    Function.Injective (text : Rule State → String) ∧
    Function.Injective (text : Rule Nat → String) ∧
    Function.Injective symbolChars ∧
    ∀ c : Char, symbolChars (some c) ≠ symbolChars none :=
  ⟨text_injective StateText.legible_int, text_injective StateText.legible_state,
    text_injective StateText.legible_nat, symbolChars_injective,
    fun c same => Option.some_ne_none c (symbolChars_injective same)⟩

end Rule
end Automata
