import Automata.Graph.Basic
import Mathlib.Data.List.Nodup

/-! The edges of a graph are kept in groups but drawn one after another. No group is empty and no
two have the same ends, whatever the edits were, so the flat list tells the groups apart again: the
first edge names the ends of the first group, and the edges with these ends are the group. -/
namespace Automata

section Groups
variable {κ ν : Type}

/-- Every value of every group with the key of its group. -/
def ungroup (groups : List (κ × List ν)) : List (κ × ν) :=
  groups.flatMap fun group => group.2.map (group.1, ·)

/-- Each key has one group, with something in it. -/
structure Grouped (groups : List (κ × List ν)) : Prop where
  distinct : (groups.map Prod.fst).Nodup
  inhabited : ∀ group ∈ groups, group.2 ≠ []

theorem Grouped.tail {group : κ × List ν} {groups : List (κ × List ν)}
    (grouped : Grouped (group :: groups)) : Grouped groups where
  distinct := (List.nodup_cons.1 grouped.distinct).2
  inhabited := (List.forall_mem_cons.1 grouped.inhabited).2

theorem Grouped.nil : Grouped ([] : List (κ × List ν)) :=
  ⟨List.nodup_nil, fun _ mem => nomatch mem⟩

/-- The first of the values is under the key of the first group. -/
theorem Grouped.head_ungroup {group : κ × List ν} {groups : List (κ × List ν)}
    (grouped : Grouped (group :: groups)) :
    ∃ value rest, ungroup (group :: groups) = (group.1, value) :: rest := by
  obtain ⟨key, values⟩ := group
  cases values with
  | nil => exact absurd rfl (grouped.inhabited _ List.mem_cons_self)
  | cons value values => exact ⟨value, _, rfl⟩

theorem fst_mem_of_mem_ungroup {groups : List (κ × List ν)} {entry : κ × ν}
    (mem : entry ∈ ungroup groups) : entry.1 ∈ groups.map Prod.fst := by
  obtain ⟨group, hgroup, hentry⟩ := List.mem_flatMap.1 mem
  obtain ⟨value, -, rfl⟩ := List.mem_map.1 hentry
  exact List.mem_map_of_mem hgroup

variable [DecidableEq κ]

/-- The values that stand under the key of the first group are those of the first group. -/
theorem filter_ungroup_cons {key : κ} {values : List ν} {groups : List (κ × List ν)}
    (distinct : (((key, values) :: groups).map Prod.fst).Nodup) :
    (ungroup ((key, values) :: groups)).filter (fun entry => entry.1 = key) =
      values.map (key, ·) := by
  have hothers : (ungroup groups).filter (fun entry => entry.1 = key) = [] := by
    refine List.filter_eq_nil_iff.2 fun entry mem same => ?_
    have hkey : key ∉ groups.map Prod.fst := (List.nodup_cons.1 distinct).1
    exact hkey (of_decide_eq_true same ▸ fst_mem_of_mem_ungroup mem)
  have hfirst : (values.map (key, ·)).filter (fun entry => entry.1 = key) = values.map (key, ·) :=
    List.filter_eq_self.2 fun entry mem => by
      obtain ⟨value, -, rfl⟩ := List.mem_map.1 mem
      simp
  rw [ungroup, List.flatMap_cons, List.filter_append, hfirst, ← ungroup, hothers, List.append_nil]

/-- Groups are determined by what is in them, in order. -/
theorem Grouped.eq_of_ungroup {groups groups' : List (κ × List ν)} (grouped : Grouped groups)
    (grouped' : Grouped groups') (same : ungroup groups = ungroup groups') : groups = groups' := by
  induction groups generalizing groups' with
  | nil =>
    cases groups' with
    | nil => rfl
    | cons group' groups' =>
      obtain ⟨value', rest', hhead'⟩ := grouped'.head_ungroup
      cases same.trans hhead'
  | cons group groups ih =>
    obtain ⟨value, rest, hhead⟩ := grouped.head_ungroup
    cases groups' with
    | nil => cases hhead.symm.trans same
    | cons group' groups' =>
      obtain ⟨value', rest', hhead'⟩ := grouped'.head_ungroup
      obtain ⟨key, values⟩ := group
      obtain ⟨key', values'⟩ := group'
      obtain rfl : key = key' :=
        (Prod.mk.inj (List.cons.inj (hhead.symm.trans (same.trans hhead'))).1).1
      have hmap : values.map (key, ·) = values'.map (key, ·) := by
        rw [← filter_ungroup_cons grouped.distinct, same, filter_ungroup_cons grouped'.distinct]
      obtain rfl : values = values' :=
        List.map_injective_iff.2 (fun _ _ h => (Prod.mk.inj h).2) hmap
      rw [ih grouped.tail grouped'.tail (List.append_cancel_left same)]

end Groups

namespace Graph

/-- What holds of the empty graph and survives every edit holds of every graph that is built. -/
theorem build_induction {motive : Graph → Prop} {kind : GraphKind}
    (empty : motive (Graph.empty kind))
    (step : ∀ graph edit, motive graph → motive (apply graph edit)) (edits : List Edit) :
    motive (build kind edits) := by
  have run : ∀ graph, motive graph → motive (edits.foldl apply graph) := by
    induction edits with
    | nil => exact fun graph holds => holds
    | cons edit edits ih => exact fun graph holds => ih _ (step graph edit holds)
  exact run _ empty

theorem grouped_apply {graph : Graph} (grouped : Grouped graph.edges.toList) (edit : Edit) :
    Grouped (apply graph edit).edges.toList := by
  cases edit with
  | rankDir value => exact grouped
  | node id settings => exact grouped
  | edge left right settings =>
    refine ⟨Entries.nodup_keys_alter grouped.distinct _ _, ?_⟩
    apply Entries.forall_alter (motive := fun group => group ≠ []) grouped.inhabited
    intro group?
    simp

theorem grouped_build (kind : GraphKind) (edits : List Edit) :
    Grouped (build kind edits).edges.toList :=
  build_induction (motive := fun graph => Grouped graph.edges.toList) .nil
    (fun _ edit grouped => grouped_apply grouped edit) edits

end Graph
end Automata
