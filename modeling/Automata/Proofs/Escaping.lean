import Automata.Text.Escape
import Mathlib.Data.Set.Basic

/-! Escaped text is read back as it was written. An escape opens with a backslash, the letter after
the backslash tells a named character from a code point, and a code point ends at its brace. So the
written form of a character determines the character and where the form ends, whatever follows. The
same holds of a list of such forms up to a mark that none of them begins with, and with that of
quoted text. -/
namespace Automata.Text

/-- The text of one of the values, with anything after it, determines the value and what is after
it. -/
def SelfDelimiting {α : Type} (values : Set α) (write : α → List Char) : Prop :=
  ∀ ⦃a⦄, a ∈ values → ∀ ⦃b⦄, b ∈ values →
    ∀ ⦃u v : List Char⦄, write a ++ u = write b ++ v → a = b ∧ u = v

/-- The text has a first character, and it is not the mark. -/
def BeginsOff (mark : Char) (text : List Char) : Prop := ∃ c rest, text = c :: rest ∧ c ≠ mark

namespace SelfDelimiting
variable {α : Type} {values : Set α} {write : α → List Char} {mark : Char}

theorem mono {larger : Set α} (h : SelfDelimiting larger write) (hsub : values ⊆ larger) :
    SelfDelimiting values write :=
  fun _ ha _ hb => h (hsub ha) (hsub hb)

theorem cons (h : SelfDelimiting values write) (c : Char) :
    SelfDelimiting values fun a => c :: write a :=
  fun _ ha _ hb _ _ heq => h ha hb (List.cons.inj heq).2

/-- What determines a value that is read back is read back with it. -/
theorem comap {β : Type} (h : SelfDelimiting values write) {f : β → α}
    (hf : Function.Injective f) (hvalues : ∀ b, f b ∈ values) :
    SelfDelimiting Set.univ fun b => write (f b) := by
  intro a _ b _ u v heq
  obtain ⟨hab, huv⟩ := h (hvalues a) (hvalues b) heq
  exact ⟨hf hab, huv⟩

/-- A list written entry by entry ends at the first mark that stands where an entry would begin. -/
theorem list (h : SelfDelimiting values write)
    (hmark : ∀ a ∈ values, BeginsOff mark (write a)) :
    SelfDelimiting {l : List α | ∀ a ∈ l, a ∈ values} fun l => l.flatMap write ++ [mark] := by
  intro l
  induction l with
  | nil =>
    intro _ l' hl' u v heq
    cases l' with
    | nil => simpa using heq
    | cons b l' =>
      obtain ⟨c, rest, hb, hc⟩ := hmark b (hl' b List.mem_cons_self)
      simp only [List.flatMap_nil, List.flatMap_cons, hb, List.nil_append, List.cons_append] at heq
      exact absurd (List.cons.inj heq).1.symm hc
  | cons a l ih =>
    intro hl l' hl' u v heq
    cases l' with
    | nil =>
      obtain ⟨c, rest, ha, hc⟩ := hmark a (hl a List.mem_cons_self)
      simp only [List.flatMap_nil, List.flatMap_cons, ha, List.nil_append, List.cons_append] at heq
      exact absurd (List.cons.inj heq).1 hc
    | cons b l' =>
      obtain ⟨ha, hrest⟩ := List.forall_mem_cons.mp hl
      obtain ⟨hb, hrest'⟩ := List.forall_mem_cons.mp hl'
      simp only [List.flatMap_cons, List.append_assoc] at heq
      obtain ⟨hab, htail⟩ := h ha hb heq
      obtain ⟨hll', huv⟩ := ih hrest hrest' (by simpa using htail)
      exact ⟨by rw [hab, hll'], huv⟩

/-- Characters written as they are end at the first mark. -/
theorem upTo (mark : Char) :
    SelfDelimiting {l : List Char | mark ∉ l} fun l => l ++ [mark] := by
  have hplain : SelfDelimiting {c : Char | c ≠ mark} fun c => [c] := by
    intro a _ b _ u v heq
    simpa using heq
  have hlist := hplain.list fun a ha => ⟨a, [], rfl, ha⟩
  simp only [List.flatMap_singleton'] at hlist
  exact hlist.mono fun l hl c hc hcm => hl (hcm ▸ hc)

end SelfDelimiting

/-! A number in decimal. -/

theorem decimal_injective : Function.Injective (Nat.toDigits 10) := by
  intro m n same
  calc m = Nat.ofDigitChars 10 (Nat.toDigits 10 m) 0 := Nat.ofDigitChars_ten_toDigits.symm
    _ = Nat.ofDigitChars 10 (Nat.toDigits 10 n) 0 := by rw [same]
    _ = n := Nat.ofDigitChars_ten_toDigits

theorem not_mem_decimal {c : Char} (hc : c.isDigit = false) (n : Nat) : c ∉ Nat.toDigits 10 n := by
  intro mem
  have hdigit := Nat.isDigit_of_mem_toDigits (by decide) (by decide) mem
  rw [hc] at hdigit
  cases hdigit

/-! A code point in hexadecimal, without leading zeros. -/

theorem digitChar_inj_of_lt {i j : Nat} (hi : i < 16) (hj : j < 16)
    (h : Nat.digitChar i = Nat.digitChar j) : i = j := by
  have hall : ∀ i < 16, ∀ j < 16, Nat.digitChar i = Nat.digitChar j → i = j := by decide
  exact hall i hi j hj h

theorem hex_inj {m n : Nat} (h : Nat.toDigits 16 m = Nat.toDigits 16 n) : m = n := by
  induction m using Nat.strongRecOn generalizing n with
  | ind m ih =>
    have hshort (k : Nat) : (Nat.toDigits 16 k).length ≤ 1 ↔ k < 16 :=
      Nat.length_toDigits_le_iff (by decide) (by decide)
    have hsmall : m < 16 ↔ n < 16 := by rw [← hshort, ← hshort, h]
    by_cases hm : m < 16
    · rw [Nat.toDigits_of_lt_base hm, Nat.toDigits_of_lt_base (hsmall.mp hm)] at h
      exact digitChar_inj_of_lt hm (hsmall.mp hm) (List.cons.inj h).1
    · rw [Nat.toDigits_of_base_le (by decide) (Nat.le_of_not_lt hm),
        Nat.toDigits_of_base_le (by decide) (Nat.le_of_not_lt (mt hsmall.mpr hm))] at h
      obtain ⟨hrest, hlast⟩ := List.append_inj' h rfl
      have hdiv : m / 16 = n / 16 := ih _ (by omega) hrest
      have hmod : m % 16 = n % 16 := digitChar_inj_of_lt (Nat.mod_lt _ (by decide))
        (Nat.mod_lt _ (by decide)) (List.cons.inj hlast).1
      omega

theorem exists_digitChar_of_mem_hex {n : Nat} {c : Char} (h : c ∈ Nat.toDigits 16 n) :
    ∃ i < 16, c = Nat.digitChar i := by
  induction n using Nat.strongRecOn with
  | ind n ih =>
    by_cases hn : n < 16
    · rw [Nat.toDigits_of_lt_base hn, List.mem_singleton] at h
      exact ⟨n, hn, h⟩
    · rw [Nat.toDigits_of_base_le (by decide) (Nat.le_of_not_lt hn), List.mem_append,
        List.mem_singleton] at h
      cases h with
      | inl h => exact ih _ (by omega) h
      | inr h => exact ⟨_, Nat.mod_lt _ (by decide), h⟩

theorem brace_notMem_hex (n : Nat) : '\x7d' ∉ Nat.toDigits 16 n := by
  intro h
  obtain ⟨i, -, hi⟩ := exists_digitChar_of_mem_hex h
  exact Nat.digitChar_ne '\x7d' rfl hi.symm

theorem codePointEscape_selfDelimiting : SelfDelimiting Set.univ codePointEscape := by
  have hdigits : Function.Injective fun c : Char => Nat.toDigits 16 c.toNat :=
    fun _ _ h => Char.toNat_inj.mp (hex_inj h)
  have hclosed := (SelfDelimiting.upTo '\x7d').comap hdigits fun c => brace_notMem_hex c.toNat
  exact ((hclosed.cons '\x7b').cons 'u').cons '\\'

/-! The forms of a character. -/

/-- The character that the letter after a backslash names; none for the letter of a code point. -/
def named? : Char → Option Char
  | 't' => some '\t'
  | 'r' => some '\r'
  | 'n' => some '\n'
  | '0' => some '\x00'
  | '\\' => some '\\'
  | '"' => some '"'
  | '\'' => some '\''
  | _ => none

/-- The texts that stand for a character. -/
inductive Escaped (c : Char) : List Char → Prop
  | named {letter : Char} : named? letter = some c → Escaped c ['\\', letter]
  | coded : Escaped c (codePointEscape c)
  | plain : c ≠ '\\' → Escaped c [c]

namespace Escaped
variable {c d : Char} {s t u v : List Char}

/-- Texts in front of other text stand for one character only, whatever their forms. -/
theorem inj (hs : Escaped c s) (ht : Escaped d t) (heq : s ++ u = t ++ v) : c = d ∧ u = v := by
  cases hs with
  | @named letter hc =>
    cases ht with
    | named hd =>
      simp only [List.cons_append, List.nil_append, List.cons.injEq, true_and] at heq
      obtain ⟨rfl, huv⟩ := heq
      exact ⟨Option.some.inj (hc.symm.trans hd), huv⟩
    | coded =>
      simp only [codePointEscape, List.cons_append, List.nil_append, List.cons.injEq] at heq
      obtain ⟨-, rfl, -⟩ := heq
      cases hc
    | plain hd => exact absurd (List.cons.inj heq).1.symm hd
  | coded =>
    cases ht with
    | named hd =>
      simp only [codePointEscape, List.cons_append, List.nil_append, List.cons.injEq] at heq
      obtain ⟨-, rfl, -⟩ := heq
      cases hd
    | coded => exact codePointEscape_selfDelimiting trivial trivial heq
    | plain hd => exact absurd (List.cons.inj heq).1.symm hd
  | plain hc =>
    cases ht with
    | named => exact absurd (List.cons.inj heq).1 hc
    | coded => exact absurd (List.cons.inj heq).1 hc
    | plain => simpa using heq

end Escaped

theorem named?_of_controlLetter? {c letter : Char} (h : controlLetter? c = some letter) :
    named? letter = some c := by
  unfold controlLetter? at h
  split at h <;> cases h <;> rfl

theorem controlLetter?_eq (c : Char) : controlLetter? c =
    if c = '\t' then some 't' else if c = '\r' then some 'r' else if c = '\n' then some 'n'
    else none := by
  unfold controlLetter?
  split
  case h_4 htab hreturn hfeed => rw [if_neg htab, if_neg hreturn, if_neg hfeed]
  all_goals rfl

/-- What is hidden stands in the tables. Of the characters that extend the one before them, the
voicing marks are shown. -/
theorem isHidden_eq_true {c : Char} : isHidden c = true ↔
    (∃ range ∈ unprintableRanges, range.1 ≤ c.toNat ∧ c.toNat ≤ range.2) ∨
    (∃ range ∈ defaultIgnorableRanges, range.1 ≤ c.toNat ∧ c.toNat ≤ range.2) ∨
    (∃ range ∈ graphemeExtendRanges, range.1 ≤ c.toNat ∧ c.toNat ≤ range.2) ∧
      c ≠ '\uff9e' ∧ c ≠ '\uff9f' := by
  rw [← isUnprintable_eq_true, ← isDefaultIgnorable_eq_true, ← isGraphemeExtend_eq_true]
  simp [isHidden, isVoicingMark, or_assoc]

/-- A character of quoted text, case by case. -/
theorem escape_eq (delimiter c : Char) : escape delimiter c =
    if c = '\t' then ['\\', 't'] else if c = '\r' then ['\\', 'r']
    else if c = '\n' then ['\\', 'n'] else if c = '\x00' then ['\\', '0']
    else if c = '\\' ∨ c = delimiter then ['\\', c]
    else if isHidden c then '\\' :: 'u' :: '\x7b' :: (Nat.toDigits 16 c.toNat ++ ['\x7d'])
    else [c] := by
  rw [escape, controlLetter?_eq]
  split_ifs <;> rfl

/-- A delimiter is one of the characters that stand for themselves after a backslash. -/
theorem escaped_escape {delimiter : Char} (hdelimiter : named? delimiter = some delimiter)
    (c : Char) : Escaped c (escape delimiter c) := by
  unfold escape
  split
  next letter hletter => exact .named (named?_of_controlLetter? hletter)
  next =>
    split_ifs with hzero hself hhidden
    · exact hzero ▸ .named rfl
    · refine .named ?_
      cases hself with
      | inl h => rw [h]; rfl
      | inr h => rw [h, hdelimiter]
    · exact .coded
    · exact .plain fun h => hself (.inl h)

/-- No character is written so that the text seems to end with it. -/
theorem escape_beginsOff (delimiter : Char) (hdelimiter : delimiter ≠ '\\') (c : Char) :
    BeginsOff delimiter (escape delimiter c) := by
  unfold escape
  split
  next letter _ => exact ⟨'\\', [letter], rfl, hdelimiter.symm⟩
  next =>
    split_ifs with hzero hself hhidden
    · exact ⟨'\\', _, rfl, hdelimiter.symm⟩
    · exact ⟨'\\', _, rfl, hdelimiter.symm⟩
    · exact ⟨'\\', _, rfl, hdelimiter.symm⟩
    · exact ⟨c, [], rfl, fun h => hself (.inr h)⟩

theorem escape_selfDelimiting {delimiter : Char} (hdelimiter : named? delimiter = some delimiter) :
    SelfDelimiting Set.univ (escape delimiter) :=
  fun c _ d _ _ _ => (escaped_escape hdelimiter c).inj (escaped_escape hdelimiter d)

theorem quoteString_selfDelimiting : SelfDelimiting Set.univ quoteString := by
  have hchars : SelfDelimiting Set.univ (escape '"') := escape_selfDelimiting rfl
  have hlist := hchars.list fun c _ => escape_beginsOff '"' (by decide) c
  exact (hlist.cons '"').comap (fun _ _ => String.toList_injective) fun _ _ _ => trivial

/-! A symbol outside quotes. -/

/-- A symbol outside quotes, case by case. -/
theorem escapeAscii_eq (c : Char) : escapeAscii c =
    if c = '\t' then ['\\', 't'] else if c = '\r' then ['\\', 'r']
    else if c = '\n' then ['\\', 'n'] else if c = '\\' ∨ c = '"' ∨ c = '\'' then ['\\', c]
    else if ' ' ≤ c ∧ c ≤ '~' then [c]
    else '\\' :: 'u' :: '\x7b' :: (Nat.toDigits 16 c.toNat ++ ['\x7d']) := by
  rw [escapeAscii, controlLetter?_eq]
  split_ifs <;> rfl

theorem escaped_escapeAscii (c : Char) : Escaped c (escapeAscii c) := by
  unfold escapeAscii
  split
  next letter hletter => exact .named (named?_of_controlLetter? hletter)
  next =>
    split_ifs with hself hprintable
    · refine .named ?_
      rcases hself with rfl | rfl | rfl <;> rfl
    · exact .plain fun h => hself (.inl h)
    · exact .coded

theorem escapeAscii_ne_nil (c : Char) : escapeAscii c ≠ [] := by
  unfold escapeAscii codePointEscape
  split
  next => exact List.cons_ne_nil _ _
  next => split_ifs <;> exact List.cons_ne_nil _ _

theorem printable_of_mem_hex {n : Nat} {c : Char} (mem : c ∈ Nat.toDigits 16 n) :
    ' ' ≤ c ∧ c ≤ '~' := by
  have hall : ∀ i < 16, ' ' ≤ Nat.digitChar i ∧ Nat.digitChar i ≤ '~' := by decide
  obtain ⟨i, hi, rfl⟩ := exists_digitChar_of_mem_hex mem
  exact hall i hi

/-- A symbol is written in printable ASCII alone. -/
theorem printable_of_mem_escapeAscii {c d : Char} (mem : d ∈ escapeAscii c) :
    ' ' ≤ d ∧ d ≤ '~' := by
  have hbackslash : ' ' ≤ '\\' ∧ '\\' ≤ '~' := by decide
  have hletter {letter : Char} (h : controlLetter? c = some letter) :
      ' ' ≤ letter ∧ letter ≤ '~' := by
    unfold controlLetter? at h
    split at h <;> cases h <;> decide
  unfold escapeAscii at mem
  split at mem
  next letter h =>
    simp only [List.mem_cons, List.not_mem_nil, or_false] at mem
    rcases mem with rfl | rfl
    · exact hbackslash
    · exact hletter h
  next =>
    split_ifs at mem with hself hprintable
    · simp only [List.mem_cons, List.not_mem_nil, or_false] at mem
      rcases mem with rfl | rfl
      · exact hbackslash
      · rcases hself with rfl | rfl | rfl <;> decide
    · rw [List.mem_singleton] at mem
      exact mem ▸ hprintable
    · simp only [codePointEscape, List.mem_cons, List.mem_append, List.not_mem_nil, or_false] at mem
      rcases mem with rfl | rfl | rfl | mem | rfl
      · exact hbackslash
      · decide
      · decide
      · exact printable_of_mem_hex mem
      · decide

end Automata.Text
