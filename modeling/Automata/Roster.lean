import Automata.Ordered
import Std.Data.TreeMap

/-! A roster keeps distinct elements in the order in which they joined. Beside the list it keeps the
place of each element in a search tree, so that neither a membership test nor a place needs a walk
along the list. The tree holds nothing of its own: it is determined by the list, and every law below
speaks of the list alone. -/
namespace Automata

/-- The places of the elements of a list that has its latest element in front. -/
def Roster.placesOf {α : Type} [Ordered α] : List α → Std.TreeMap α Nat
  | [] => ∅
  | x :: earlier => (placesOf earlier).insert x (placesOf earlier).size

/-- Distinct elements in the order in which they joined. -/
structure Roster (α : Type) [Ordered α] where
  latestFirst : List α
  distinct : latestFirst.Nodup
  places : Std.TreeMap α Nat
  placed : places = Roster.placesOf latestFirst

namespace Roster
variable {α : Type} [Ordered α]

theorem mem_placesOf {l : List α} {x : α} : x ∈ placesOf l ↔ x ∈ l := by
  induction l with
  | nil => simp [placesOf]
  | cons y rest ih =>
    rw [placesOf, Std.TreeMap.mem_insert, Ordered.compare_eq_iff, ih, List.mem_cons, eq_comm]

theorem size_placesOf {l : List α} (distinct : l.Nodup) : (placesOf l).size = l.length := by
  induction l with
  | nil => simp [placesOf]
  | cons x rest ih =>
    obtain ⟨new, distinct⟩ := List.nodup_cons.1 distinct
    have absent : ¬(placesOf rest).contains x = true := mt mem_placesOf.1 new
    rw [placesOf, Std.TreeMap.size_insert, if_neg absent, ih distinct, List.length_cons]

theorem getD_placesOf {l : List α} (distinct : l.Nodup) (x : α) (fallback : Nat) :
    (placesOf l).getD x fallback = if x ∈ l then l.reverse.idxOf x else fallback := by
  induction l with
  | nil => simp [placesOf]
  | cons y rest ih =>
    obtain ⟨new, distinct⟩ := List.nodup_cons.1 distinct
    rw [placesOf, Std.TreeMap.getD_insert, ih distinct, size_placesOf distinct, List.reverse_cons,
      List.idxOf_append]
    by_cases same : y = x
    · subst same
      simp [new]
    · by_cases mem : x ∈ rest <;> simp [same, Ne.symm same, mem]

/-- The elements, first come first. -/
def toList (roster : Roster α) : List α := roster.latestFirst.reverse

instance : Membership α (Roster α) where
  mem roster x := x ∈ roster.latestFirst

theorem mem_def {roster : Roster α} {x : α} : x ∈ roster ↔ x ∈ roster.latestFirst := Iff.rfl

@[simp] theorem mem_toList {roster : Roster α} {x : α} : x ∈ roster.toList ↔ x ∈ roster :=
  List.mem_reverse

theorem mem_places {roster : Roster α} {x : α} : x ∈ roster.places ↔ x ∈ roster := by
  rw [roster.placed, mem_placesOf, mem_def]

instance (x : α) (roster : Roster α) : Decidable (x ∈ roster) :=
  decidable_of_iff (x ∈ roster.places) mem_places

def empty : Roster α := ⟨[], .nil, ∅, rfl⟩

instance : EmptyCollection (Roster α) := ⟨empty⟩

/-- Adds a new element at the end. -/
def push (roster : Roster α) (x : α) (new : x ∉ roster) : Roster α where
  latestFirst := x :: roster.latestFirst
  distinct := List.nodup_cons.2 ⟨new, roster.distinct⟩
  places := roster.places.insert x roster.places.size
  placed := by rw [placesOf, roster.placed]

/-- The place of an element, counted from the first; the number of elements if it is not there. -/
def idxOf (roster : Roster α) (x : α) : Nat := roster.places.getD x roster.places.size

@[simp] theorem toList_empty : (∅ : Roster α).toList = [] := rfl

@[simp] theorem not_mem_empty (x : α) : x ∉ (∅ : Roster α) := List.not_mem_nil

@[simp] theorem toList_push {roster : Roster α} {x : α} (new : x ∉ roster) :
    (roster.push x new).toList = roster.toList ++ [x] :=
  List.reverse_cons

@[simp] theorem mem_push {roster : Roster α} {x y : α} (new : x ∉ roster) :
    y ∈ roster.push x new ↔ y = x ∨ y ∈ roster :=
  List.mem_cons

theorem nodup_toList (roster : Roster α) : roster.toList.Nodup :=
  List.pairwise_reverse.2 (roster.distinct.imp Ne.symm)

theorem idxOf_eq (roster : Roster α) (x : α) : roster.idxOf x = roster.toList.idxOf x := by
  rw [idxOf, roster.placed, size_placesOf roster.distinct, getD_placesOf roster.distinct, toList]
  split
  · rfl
  · next absent => rw [List.idxOf_eq_length (mt List.mem_reverse.1 absent), List.length_reverse]

/-- Rosters of the same elements in the same order are equal. -/
theorem ext {r s : Roster α} (same : r.toList = s.toList) : r = s := by
  obtain ⟨l, distinct, places, rfl⟩ := r
  obtain ⟨m, distinct', places', rfl⟩ := s
  obtain rfl : l = m := List.reverse_inj.1 same
  rfl

end Roster
end Automata
