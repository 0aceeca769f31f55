import Automata.Ordered
import Std.Data.TreeSet

/-! A finite set is its strictly ascending list, so it has one form only: sets with the same
elements are equal, and a set is listed in the order in which it is shown. Every operation is
pinned down by its membership lemma. -/
namespace Automata

/-- A finite set of an ordered type, as its strictly ascending list of elements. -/
structure SortedSet (α : Type) [Ordered α] where
  toList : List α
  ascending : toList.Pairwise fun a b => compare a b = .lt
  deriving DecidableEq

namespace SortedSet
variable {α : Type} [Ordered α]

instance : Membership α (SortedSet α) where
  mem s a := a ∈ s.toList

theorem mem_def {s : SortedSet α} {a : α} : a ∈ s ↔ a ∈ s.toList := Iff.rfl

instance (a : α) (s : SortedSet α) : Decidable (a ∈ s) :=
  inferInstanceAs (Decidable (a ∈ s.toList))

def empty : SortedSet α := ⟨[], .nil⟩

instance : EmptyCollection (SortedSet α) := ⟨empty⟩
instance : Inhabited (SortedSet α) := ⟨empty⟩

/-- Puts an element before the first greater one, and keeps a list that has it already. -/
def insertList (a : α) : List α → List α
  | [] => [a]
  | b :: rest =>
    match compare a b with
    | .lt => a :: b :: rest
    | .eq => b :: rest
    | .gt => b :: insertList a rest

theorem mem_insertList {a b : α} {l : List α} : b ∈ insertList a l ↔ b = a ∨ b ∈ l := by
  induction l with
  | nil => simp [insertList]
  | cons c rest ih =>
    simp only [insertList]
    split
    · simp
    · next h =>
      obtain rfl := Ordered.compare_eq_iff.1 h
      simp
    · simp only [List.mem_cons, ih]
      exact or_left_comm

theorem pairwise_insertList (a : α) {l : List α} (h : l.Pairwise fun a b => compare a b = .lt) :
    (insertList a l).Pairwise fun a b => compare a b = .lt := by
  induction l with
  | nil => simp [insertList]
  | cons b rest ih =>
    obtain ⟨below, tail⟩ := List.pairwise_cons.1 h
    simp only [insertList]
    split
    · next hab =>
      refine List.pairwise_cons.2 ⟨fun c hc => ?_, h⟩
      rcases List.mem_cons.1 hc with rfl | hc
      · exact hab
      · exact Ordered.lt_trans hab (below c hc)
    · exact h
    · next hab =>
      refine List.pairwise_cons.2 ⟨fun c hc => ?_, ih tail⟩
      rcases mem_insertList.1 hc with rfl | hc
      · exact Ordered.gt_iff_lt.1 hab
      · exact below c hc

def insert (a : α) (s : SortedSet α) : SortedSet α :=
  ⟨insertList a s.toList, pairwise_insertList a s.ascending⟩

/-- The set of the elements of a list, sorted by way of a search tree. -/
def ofList (l : List α) : SortedSet α :=
  ⟨(Std.TreeSet.ofList l).toList, Std.TreeSet.ordered_toList⟩

def singleton (a : α) : SortedSet α := ⟨[a], List.pairwise_singleton _ _⟩

def filter (p : α → Bool) (s : SortedSet α) : SortedSet α :=
  ⟨s.toList.filter p, s.ascending.filter p⟩

def any (s : SortedSet α) (p : α → Bool) : Bool := s.toList.any p

/-- Whether the two sets have an element in common. -/
def meets (s t : SortedSet α) : Bool := s.any fun a => a ∈ t

@[simp] theorem not_mem_empty (a : α) : a ∉ (∅ : SortedSet α) := List.not_mem_nil

@[simp] theorem mem_insert {a b : α} {s : SortedSet α} : b ∈ s.insert a ↔ b = a ∨ b ∈ s :=
  mem_insertList

@[simp] theorem mem_ofList {a : α} {l : List α} : a ∈ ofList l ↔ a ∈ l := by
  rw [mem_def, ofList, Std.TreeSet.mem_toList, Std.TreeSet.mem_ofList, List.contains_iff_mem]

@[simp] theorem mem_singleton {a b : α} : b ∈ singleton a ↔ b = a := List.mem_singleton

@[simp] theorem mem_filter {p : α → Bool} {a : α} {s : SortedSet α} :
    a ∈ s.filter p ↔ a ∈ s ∧ p a = true :=
  List.mem_filter

@[simp] theorem any_eq_true {p : α → Bool} {s : SortedSet α} :
    s.any p = true ↔ ∃ a ∈ s, p a = true :=
  List.any_eq_true

theorem meets_eq_true {s t : SortedSet α} : s.meets t = true ↔ ∃ a ∈ s, a ∈ t := by
  simp [meets]

/-- A strictly ascending list is determined by its elements. -/
theorem list_ext {l m : List α} (hl : l.Pairwise fun a b => compare a b = .lt)
    (hm : m.Pairwise fun a b => compare a b = .lt) (same : ∀ a, a ∈ l ↔ a ∈ m) : l = m := by
  induction l generalizing m with
  | nil =>
    cases m with
    | nil => rfl
    | cons b rest => exact absurd ((same b).2 List.mem_cons_self) List.not_mem_nil
  | cons a rest ih =>
    cases m with
    | nil => exact absurd ((same a).1 List.mem_cons_self) List.not_mem_nil
    | cons b rest' =>
      obtain ⟨hal, tailL⟩ := List.pairwise_cons.1 hl
      obtain ⟨hbm, tailM⟩ := List.pairwise_cons.1 hm
      have head : a = b := by
        rcases List.mem_cons.1 ((same a).1 List.mem_cons_self) with h | h
        · exact h
        rcases List.mem_cons.1 ((same b).2 List.mem_cons_self) with h' | h'
        · exact h'.symm
        exact absurd (Ordered.lt_trans (hbm a h) (hal b h')) (Ordered.lt_irrefl b)
      subst head
      refine congrArg (a :: ·) (ih tailL tailM fun c => ?_)
      constructor
      · intro hc
        rcases List.mem_cons.1 ((same c).1 (List.mem_cons_of_mem a hc)) with rfl | h
        · exact absurd (hal c hc) (Ordered.lt_irrefl c)
        · exact h
      · intro hc
        rcases List.mem_cons.1 ((same c).2 (List.mem_cons_of_mem a hc)) with rfl | h
        · exact absurd (hbm c hc) (Ordered.lt_irrefl c)
        · exact h

theorem ext {s t : SortedSet α} (same : ∀ a, a ∈ s ↔ a ∈ t) : s = t := by
  cases s with
  | mk l hl =>
    cases t with
    | mk m hm =>
      obtain rfl := list_ext hl hm same
      rfl

theorem ne_empty_iff {s : SortedSet α} : s ≠ ∅ ↔ ∃ a, a ∈ s := by
  constructor
  · intro hne
    cases hlist : s.toList with
    | nil =>
      have hempty : s = ∅ := ext fun a => by
        rw [mem_def, hlist]
        rfl
      exact absurd hempty hne
    | cons a rest => exact ⟨a, mem_def.2 (hlist ▸ List.mem_cons_self)⟩
  · rintro ⟨a, mem⟩ rfl
    exact absurd mem (not_mem_empty a)

/-- Sets compare as their ascending lists do. -/
instance : Ordered (SortedSet α) :=
  Ordered.ofKey toList fun _ _ same => ext fun _ => by rw [mem_def, same, mem_def]

/-- All sets with elements from the list. -/
def subsetsOf : List α → List (SortedSet α)
  | [] => [∅]
  | a :: rest => subsetsOf rest ++ (subsetsOf rest).map (insert a)

theorem mem_subsetsOf {l : List α} {s : SortedSet α} (h : ∀ a ∈ s, a ∈ l) : s ∈ subsetsOf l := by
  induction l generalizing s with
  | nil =>
    refine List.mem_singleton.2 (ext fun a => ⟨fun ha => ?_, fun ha => absurd ha (not_mem_empty a)⟩)
    exact absurd (h a ha) List.not_mem_nil
  | cons b rest ih =>
    refine List.mem_append.2 ?_
    by_cases hb : b ∈ s
    · right
      refine List.mem_map.2 ⟨s.filter (· ≠ b), ih fun a ha => ?_, ext fun a => ?_⟩
      · obtain ⟨has, hab⟩ := mem_filter.1 ha
        exact (List.mem_cons.1 (h a has)).resolve_left (by simpa using hab)
      · simp only [mem_insert, mem_filter, decide_eq_true_eq]
        constructor
        · rintro (rfl | ⟨ha, -⟩) <;> assumption
        · intro ha
          by_cases hab : a = b
          · exact .inl hab
          · exact .inr ⟨ha, by simpa using hab⟩
    · left
      refine ih fun a ha => (List.mem_cons.1 (h a ha)).resolve_left fun hab => hb (hab ▸ ha)

end SortedSet
end Automata
