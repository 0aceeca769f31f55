import Automata.Proofs.Numbering
import Mathlib.Data.Char
import Mathlib.Data.List.Induction
import Mathlib.Data.List.Shortlex
import Mathlib.Data.Prod.Lex

/-! The order of discovery is the order of words. A search that tries the symbols in ascending order
draws its points along words that ascend, shorter ones first and those of one length by their first
difference: a word waits behind all that were found before it, and the words that join the queue
continue one that was found by a symbol more. No word before it leads to the same point, since a
word is either found, or some word not after it is found that leads as far, or it still waits. So a
number of the subset construction stands for the least word that leads to it. -/
namespace Automata

/-- The length of a word, then the word: words compare by rank in order of length, and words of one
length by their first difference. -/
def rank (word : List Char) : ℕ ×ₗ List Char := toLex (word.length, word)

section Rank
variable {u v : List Char}

theorem rank_lt_iff : rank u < rank v ↔ u.length < v.length ∨ u.length = v.length ∧ u < v :=
  Prod.Lex.toLex_lt_toLex

theorem shortlex_iff_rank_lt : List.Shortlex (· < ·) u v ↔ rank u < rank v :=
  List.shortlex_def.trans rank_lt_iff.symm

theorem rank_injective : Function.Injective rank := fun _ _ h => congrArg Prod.snd (toLex.injective h)

theorem rank_nil_le (word : List Char) : rank [] ≤ rank word := by
  rw [← not_lt, rank_lt_iff]
  simp

theorem rank_lt_concat (word : List Char) (c : Char) : rank word < rank (word ++ [c]) :=
  rank_lt_iff.2 (.inl (by simp))

/-- Words of one length differ before what continues them. -/
theorem concat_lt_concat (hlength : u.length = v.length) (h : List.Lex (· < ·) u v) (c d : Char) :
    u ++ [c] < v ++ [d] := by
  induction h with
  | nil => exact absurd hlength (by simp)
  | rel hlt => exact .rel hlt
  | cons _ ih => exact .cons (ih (Nat.succ.inj hlength))

theorem rank_concat_lt_concat (h : rank u < rank v) (c d : Char) :
    rank (u ++ [c]) < rank (v ++ [d]) := by
  simp only [rank_lt_iff, List.length_append, List.length_singleton, Nat.add_lt_add_iff_right,
    Nat.add_right_cancel_iff] at h ⊢
  exact h.imp_right fun ⟨hlength, hlt⟩ => ⟨hlength, concat_lt_concat hlength hlt c d⟩

theorem rank_concat_le_concat (h : rank u ≤ rank v) (c : Char) :
    rank (u ++ [c]) ≤ rank (v ++ [c]) := by
  rcases h.lt_or_eq with hlt | heq
  · exact (rank_concat_lt_concat hlt c c).le
  · rw [rank_injective heq]

theorem rank_concat_lt_of_lt (word : List Char) {c d : Char} (h : c < d) :
    rank (word ++ [c]) < rank (word ++ [d]) := by
  refine rank_lt_iff.2 (.inr ⟨by simp, ?_⟩)
  exact List.Lex.append_left _ (.rel h) word

end Rank

namespace Search
variable {α : Type} [Ordered α] {move : α → Char → α} {symbols : List Char} {start x : α}
  {found waiting : List (List Char)} {w word : List Char} {seen : Roster α} {rest : List α}

/-- The word waits, or one not after it was found and leads to the same point. -/
def Settled (move : α → Char → α) (start : α) (found waiting : List (List Char))
    (word : List Char) : Prop :=
  word ∈ waiting ∨
    ∃ first ∈ found, first.foldl move start = word.foldl move start ∧ rank first ≤ rank word

/-- The words along which a search came to the points that it has seen and to those in its queue. -/
structure Accessed (move : α → Char → α) (symbols : List Char) (start : α)
    (found waiting : List (List Char)) (search : Search α) : Prop where
  seen : search.seen.toList = found.map (·.foldl move start)
  queue : search.queue = waiting.map (·.foldl move start)
  ascending : (found ++ waiting).Pairwise fun u v => rank u < rank v
  inside : ∀ word ∈ found ++ waiting, ∀ c ∈ word, c ∈ symbols
  /-- Only words that were found are continued. -/
  continues : ∀ word ∈ waiting, word = [] ∨ ∃ first ∈ found, ∃ c, word = first ++ [c]
  root : Settled move start found waiting []
  onward : ∀ first ∈ found, ∀ c ∈ symbols, Settled move start found waiting (first ++ [c])
  least : ∀ first ∈ found, ∀ word, (∀ c ∈ word, c ∈ symbols) →
    word.foldl move start = first.foldl move start → rank first ≤ rank word

theorem Accessed.first (move : α → Char → α) (symbols : List Char) (start : α) :
    Accessed move symbols start [] [[]] ⟨∅, [start]⟩ where
  seen := rfl
  queue := rfl
  ascending := List.pairwise_singleton _ _
  inside := by simp
  continues _ mem := .inl (List.mem_singleton.1 mem)
  root := .inl (List.mem_singleton_self _)
  onward _ mem := absurd mem List.not_mem_nil
  least _ mem := absurd mem List.not_mem_nil

namespace Accessed

/-- Of each word over the symbols, one not after it is found and leads as far, or one not after it
waits. -/
theorem exists_rank_le {search : Search α}
    (accessed : Accessed move symbols start found waiting search)
    (hword : ∀ c ∈ word, c ∈ symbols) :
    (∃ first ∈ found, first.foldl move start = word.foldl move start ∧ rank first ≤ rank word) ∨
      ∃ later ∈ waiting, rank later ≤ rank word := by
  -- symbol by symbol: what was found for the word so far was continued when it was found
  induction word using List.reverseRecOn with
  | nil =>
    rcases accessed.root with mem | settled
    · exact .inr ⟨[], mem, le_rfl⟩
    · exact .inl settled
  | append_singleton word c ih =>
    rw [List.forall_mem_append, List.forall_mem_singleton] at hword
    rcases ih hword.1 with ⟨first, mem, same, hle⟩ | ⟨later, mem, hle⟩
    · have hconcat := rank_concat_le_concat hle c
      rcases accessed.onward first mem c hword.2 with waits | ⟨least, mem', same', hle'⟩
      · exact .inr ⟨_, waits, hconcat⟩
      · refine .inl ⟨least, mem', ?_, hle'.trans hconcat⟩
        rw [same', List.foldl_concat, List.foldl_concat, same]
    · exact .inr ⟨later, mem, hle.trans (rank_lt_concat word c).le⟩

section Draw
variable (accessed : Accessed move symbols start found (w :: waiting) ⟨seen, x :: rest⟩)
include accessed

theorem head : x = w.foldl move start := (List.cons.inj accessed.queue).1

theorem lt_head : ∀ first ∈ found, rank first < rank w := fun first mem =>
  (List.pairwise_append.1 accessed.ascending).2.2 first mem w List.mem_cons_self

theorem head_le : ∀ later ∈ w :: waiting, rank w ≤ rank later := by
  intro later mem
  rcases List.mem_cons.1 mem with rfl | mem
  · exact le_rfl
  · have hwaiting := (List.pairwise_append.1 accessed.ascending).2.1
    exact ((List.pairwise_cons.1 hwaiting).1 later mem).le

theorem mem_seen_iff : x ∈ seen ↔
    ∃ first ∈ found, first.foldl move start = w.foldl move start := by
  rw [← Roster.mem_toList, accessed.seen, List.mem_map, accessed.head]

/-- A word that leads to a seen point has one before it that does. -/
theorem drop (mem : x ∈ seen) : Accessed move symbols start found waiting ⟨seen, rest⟩ := by
  have hsettled {word : List Char} (settled : Settled move start found (w :: waiting) word) :
      Settled move start found waiting word := by
    rcases settled with waits | settled
    · rcases List.mem_cons.1 waits with rfl | waits
      · obtain ⟨first, hfirst, same⟩ := accessed.mem_seen_iff.1 mem
        exact .inr ⟨first, hfirst, same, (accessed.lt_head first hfirst).le⟩
      · exact .inl waits
    · exact .inr settled
  have hsub : (found ++ waiting).Sublist (found ++ w :: waiting) :=
    (List.sublist_cons_self w waiting).append_left found
  exact {
    seen := accessed.seen
    queue := (List.cons.inj accessed.queue).2
    ascending := accessed.ascending.sublist hsub
    inside := fun word mem => accessed.inside word (hsub.subset mem)
    continues := fun word mem => accessed.continues word (List.mem_cons_of_mem w mem)
    root := hsettled accessed.root
    onward := fun first mem c hc => hsettled (accessed.onward first mem c hc)
    least := accessed.least }

/-- What continues the word of the front comes after all words so far. -/
theorem lt_concat_head (c : Char) : ∀ word ∈ found ++ w :: waiting, rank word < rank (w ++ [c]) := by
  intro word mem
  rcases List.mem_append.1 mem with mem | mem
  · exact (accessed.lt_head word mem).trans (rank_lt_concat w c)
  · rcases accessed.continues word mem with rfl | ⟨first, hfirst, d, rfl⟩
    · exact (rank_nil_le w).trans_lt (rank_lt_concat w c)
    · exact rank_concat_lt_concat (accessed.lt_head first hfirst) d c

/-- A word that leads to a new point is the least that does. -/
theorem expand (hsymbols : symbols.Pairwise (· < ·)) (new : x ∉ seen) :
    Accessed move symbols start (found ++ [w]) (waiting ++ symbols.map fun c => w ++ [c])
      ⟨seen.push x new, rest ++ symbols.map (move x)⟩ := by
  have hsettled {word : List Char} (settled : Settled move start found (w :: waiting) word) :
      Settled move start (found ++ [w]) (waiting ++ symbols.map fun c => w ++ [c]) word := by
    rcases settled with waits | ⟨first, hfirst, same, hle⟩
    · rcases List.mem_cons.1 waits with rfl | waits
      · exact .inr ⟨word, by simp, rfl, le_rfl⟩
      · exact .inl (List.mem_append_left _ waits)
    · exact .inr ⟨first, List.mem_append_left _ hfirst, same, hle⟩
  have hsplit : found ++ [w] ++ (waiting ++ symbols.map fun c => w ++ [c]) =
      found ++ w :: waiting ++ symbols.map fun c => w ++ [c] := by simp
  constructor
  case seen => simp [accessed.seen, accessed.head]
  case queue => simp [(List.cons.inj accessed.queue).2, accessed.head]
  case ascending =>
    rw [hsplit]
    refine List.pairwise_append.2 ⟨accessed.ascending, ?_, fun word mem later hlater => ?_⟩
    · exact List.pairwise_map.2 (hsymbols.imp (rank_concat_lt_of_lt w))
    · obtain ⟨c, -, rfl⟩ := List.mem_map.1 hlater
      exact accessed.lt_concat_head c word mem
  case inside =>
    rw [hsplit]
    refine List.forall_mem_append.2 ⟨accessed.inside, List.forall_mem_map.2 fun c hc => ?_⟩
    exact List.forall_mem_append.2 ⟨accessed.inside w (by simp), List.forall_mem_singleton.2 hc⟩
  case continues =>
    refine List.forall_mem_append.2 ⟨fun word mem => ?_, List.forall_mem_map.2 fun c _ => ?_⟩
    · refine (accessed.continues word (List.mem_cons_of_mem w mem)).imp_right ?_
      rintro ⟨first, hfirst, c, same⟩
      exact ⟨first, List.mem_append_left _ hfirst, c, same⟩
    · exact .inr ⟨w, by simp, c, rfl⟩
  case root => exact hsettled accessed.root
  case onward =>
    refine List.forall_mem_append.2 ⟨fun first mem c hc => ?_, List.forall_mem_singleton.2 ?_⟩
    · exact hsettled (accessed.onward first mem c hc)
    · exact fun c hc => .inl (List.mem_append_right _ (List.mem_map_of_mem hc))
  case least =>
    refine List.forall_mem_append.2 ⟨accessed.least, List.forall_mem_singleton.2 ?_⟩
    intro word hword same
    rcases accessed.exists_rank_le hword with ⟨first, hfirst, same', -⟩ | ⟨later, mem, hle⟩
    · exact absurd (accessed.mem_seen_iff.2 ⟨first, hfirst, same'.trans same⟩) new
    · exact (accessed.head_le later mem).trans hle

end Draw

/-- To the end of the search, the points come along words that ascend, and along none sooner. -/
theorem exhaust (hsymbols : symbols.Pairwise (· < ·)) {search : Search α}
    (halts : Halts (fun x => symbols.map (move x)) search)
    (accessed : Accessed move symbols start found waiting search) :
    ∃ words, Accessed move symbols start words [] ⟨Search.exhaust _ search halts, []⟩ := by
  induction search, halts using Halts.induct _ generalizing found waiting with
  | nil seen halts =>
    obtain rfl : waiting = [] := List.map_eq_nil_iff.1 accessed.queue.symm
    rw [exhaust_nil]
    exact ⟨found, accessed⟩
  | drop seen x rest halts halts' mem ih =>
    obtain ⟨w, waiting, rfl, -⟩ := List.map_eq_cons_iff.1 accessed.queue.symm
    rw [exhaust_of_draw? _ halts (draw?_of_mem _ mem)]
    exact ih (accessed.drop mem)
  | expand seen x rest halts new halts' ih =>
    obtain ⟨w, waiting, rfl, -⟩ := List.map_eq_cons_iff.1 accessed.queue.symm
    rw [exhaust_of_draw? _ halts (draw?_of_not_mem _ new)]
    exact ih (accessed.expand hsymbols new)

end Accessed
end Search

namespace Nfa
variable {S : Type} [Ordered S] {nfa : Nfa S} {i j : Nat} {word later : List Char}

theorem current_readWord_run (nfa : Nfa S) (word : List Char) :
    (nfa.run.readWord word).current = word.foldl nfa.step nfa.startSet := by
  induction word using List.reverseRecOn with
  | nil => rfl
  | append_singleton word c ih => rw [current_readWord_concat, ih, List.foldl_concat]

/-- Over the alphabet, a run of the numbered automaton is in the number of the set that the word
leads to. -/
theorem readWord_toDfa_iff (inside : ∀ c ∈ word, c ∈ nfa.rulebook.alphabet) :
    nfa.toDfa.run.readWord word = (nfa.toDfa.runFrom i, .ok ()) ↔
      nfa.stateSets.toList[i]? = some (word.foldl nfa.step nfa.startSet) := by
  obtain ⟨k, read, place⟩ := nfa.readWord_toDfa inside
  rw [current_readWord_run] at place
  rw [read]
  constructor
  · intro same
    have hcurrent := congrArg (fun outcome => outcome.1.current) same
    rw [← Except.ok.inj hcurrent]
    exact place
  · intro place'
    rw [(Roster.getElem?_eq_some_iff.1 place).2, (Roster.getElem?_eq_some_iff.1 place').2]

/-- The least word over the alphabet, shorter words first and those of one length by their first
difference, that leads the numbered automaton from its start to the number. -/
structure LeastAccess (nfa : Nfa S) (i : Nat) (word : List Char) : Prop where
  inside : ∀ c ∈ word, c ∈ nfa.rulebook.alphabet
  reaches : nfa.toDfa.run.readWord word = (nfa.toDfa.runFrom i, .ok ())
  least : ∀ other, (∀ c ∈ other, c ∈ nfa.rulebook.alphabet) →
    nfa.toDfa.run.readWord other = (nfa.toDfa.runFrom i, .ok ()) →
    other = word ∨ List.Shortlex (· < ·) word other

theorem LeastAccess.unique (h : nfa.LeastAccess i word) (h' : nfa.LeastAccess i later) :
    word = later := by
  rcases h.least later h'.inside h'.reaches with same | before
  · exact same.symm
  rcases h'.least word h.inside h.reaches with same | after
  · exact same
  · rw [shortlex_iff_rank_lt] at before after
    exact absurd before after.not_gt

/-- The sets are found along words that ascend, and each of these is the least that leads there. -/
theorem exists_accessed (nfa : Nfa S) : ∃ words,
    Search.Accessed nfa.step nfa.rulebook.alphabet.toList nfa.startSet words []
      ⟨nfa.stateSets, []⟩ := by
  have hsymbols : nfa.rulebook.alphabet.toList.Pairwise (· < ·) :=
    nfa.rulebook.alphabet.ascending.imp compare_lt_iff_lt.1
  exact (Search.Accessed.first _ _ _).exhaust hsymbols (nfa.confined_successors _).halts

theorem leastAccess_of_accessed {words : List (List Char)}
    (accessed : Search.Accessed nfa.step nfa.rulebook.alphabet.toList nfa.startSet words []
      ⟨nfa.stateSets, []⟩) (place : words[i]? = some word) : nfa.LeastAccess i word := by
  have mem := List.mem_of_getElem? place
  have inside := accessed.inside word (List.mem_append_left _ mem)
  have hset : nfa.stateSets.toList[i]? = some (word.foldl nfa.step nfa.startSet) := by
    rw [accessed.seen, List.getElem?_map, place, Option.map_some]
  refine ⟨inside, (readWord_toDfa_iff inside).2 hset, fun other hother reaches => ?_⟩
  rw [readWord_toDfa_iff hother, hset, Option.some.injEq] at reaches
  rcases (accessed.least word mem other hother reaches.symm).eq_or_lt with same | before
  · exact .inl (rank_injective same.symm)
  · exact .inr (shortlex_iff_rank_lt.2 before)

theorem leastAccess_zero (nfa : Nfa S) : nfa.LeastAccess 0 [] where
  inside _ mem := absurd mem List.not_mem_nil
  reaches := rfl
  least other _ _ := (List.shortlex_nil_or_eq_nil other).symm

/-- Each number of the subset construction has a least word that leads to it, the first number the
empty one, and the numbers go in the order of these words. The words are all those over the symbols
of the rules, and a number stands for the states that a word leads to. -/
theorem toDfa_numbers_shortlex (nfa : Nfa S) :
    (∀ c, c ∈ nfa.rulebook.alphabet ↔ ∃ rule ∈ nfa.rulebook.rules, rule.symbol = some c) ∧
    (∀ word, (∀ c ∈ word, c ∈ nfa.rulebook.alphabet) → ∃ i states,
      nfa.toDfa.run.readWord word = (nfa.toDfa.runFrom i, .ok ()) ∧
      nfa.stateSets.toList[i]? = some states ∧
      ∀ q, q ∈ states ↔ Path nfa.rulebook.rules nfa.start word q) ∧
    (∀ i < nfa.stateSets.toList.length, ∃! word, nfa.LeastAccess i word) ∧
    nfa.LeastAccess 0 [] ∧
    ∀ i j word later, nfa.LeastAccess i word → nfa.LeastAccess j later → i < j →
      List.Shortlex (· < ·) word later := by
  obtain ⟨words, accessed⟩ := nfa.exists_accessed
  have hlength : nfa.stateSets.toList.length = words.length := by
    rw [accessed.seen, List.length_map]
  have hleast {i : Nat} (hi : i < nfa.stateSets.toList.length) : ∃ word,
      words[i]? = some word ∧ nfa.LeastAccess i word := by
    have place := List.getElem?_eq_getElem (hlength ▸ hi)
    exact ⟨_, place, leastAccess_of_accessed accessed place⟩
  have hplace {i : Nat} {word : List Char} (h : nfa.LeastAccess i word) :
      words[i]? = some word := by
    have hset := (readWord_toDfa_iff h.inside).1 h.reaches
    obtain ⟨other, place, h'⟩ := hleast (List.getElem?_eq_some_iff.1 hset).1
    rw [place, h.unique h']
  refine ⟨fun c => Rulebook.mem_alphabet, fun word inside => ?_, fun i hi => ?_,
    nfa.leastAccess_zero, fun i j word later h h' hlt => ?_⟩
  · obtain ⟨i, read, place⟩ := nfa.readWord_toDfa inside
    exact ⟨i, _, read, place, fun q => mem_current_readWord_run⟩
  · obtain ⟨word, -, h⟩ := hleast hi
    exact ⟨word, h, fun other h' => h'.unique h⟩
  · have hascending := accessed.ascending
    rw [List.append_nil] at hascending
    obtain ⟨hi, rfl⟩ := List.getElem?_eq_some_iff.1 (hplace h)
    obtain ⟨hj, rfl⟩ := List.getElem?_eq_some_iff.1 (hplace h')
    exact shortlex_iff_rank_lt.2 (List.pairwise_iff_getElem.1 hascending i j hi hj hlt)

end Nfa
end Automata
