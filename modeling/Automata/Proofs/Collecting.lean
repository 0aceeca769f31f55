import Automata.Graph.Entries
import Mathlib.Data.List.Induction
import Mathlib.Data.List.Nodup

/-! Items that come under keys, one after the other, are put away under their keys. The keys stand in
the order in which they first appear, and under each key is what its own items make of it, in the
order in which they came; the items of other keys do not show. The same grouping loses no item and
doubles none. -/
namespace Automata

section Appearance
variable {α β : Type} [DecidableEq α] [DecidableEq β]

/-- A new element appears last, any other one has appeared before. -/
theorem eraseDups_concat (l : List α) (a : α) :
    (l ++ [a]).eraseDups = if a ∈ l then l.eraseDups else l.eraseDups ++ [a] := by
  rw [List.eraseDups_append, List.cons_removeAll]
  by_cases mem : a ∈ l <;> simp [mem, List.removeAll, List.eraseDups_cons]

/-- Elements that have all appeared before add nothing. -/
theorem eraseDups_append_of_subset {l m : List α} (subset : m ⊆ l) :
    (l ++ m).eraseDups = l.eraseDups := by
  induction m using List.reverseRecOn with
  | nil => rw [List.append_nil]
  | append_singleton m a ih =>
    obtain ⟨hm, ha⟩ := List.append_subset.1 subset
    have mem : a ∈ l ++ m := List.mem_append_left m (ha List.mem_cons_self)
    rw [← List.append_assoc, eraseDups_concat, if_pos mem, ih hm]

theorem eraseDups_eq_self {l : List α} (distinct : l.Nodup) : l.eraseDups = l := by
  induction l using List.reverseRecOn with
  | nil => rfl
  | append_singleton l a ih =>
    obtain ⟨hl, -, new⟩ := List.nodup_append.1 distinct
    have absent : a ∉ l := fun mem => new a mem a List.mem_cons_self rfl
    rw [eraseDups_concat, if_neg absent, ih hl]

/-- Names that are told apart appear in the order of what they name. -/
theorem eraseDups_map {f : α → β} {l : List α} (inj : ∀ a ∈ l, ∀ b ∈ l, f a = f b → a = b) :
    (l.map f).eraseDups = l.eraseDups.map f := by
  induction l using List.reverseRecOn with
  | nil => rfl
  | append_singleton l a ih =>
    have hl (b : α) (mem : b ∈ l) : b ∈ l ++ [a] := List.mem_append_left [a] mem
    have ha : a ∈ l ++ [a] := List.mem_append_right l List.mem_cons_self
    have hmem : f a ∈ l.map f ↔ a ∈ l := by
      constructor
      · intro mem
        obtain ⟨b, hb, same⟩ := List.mem_map.1 mem
        exact inj b (hl b hb) a ha same ▸ hb
      · exact List.mem_map_of_mem
    rw [List.map_append, List.map_singleton, eraseDups_concat, eraseDups_concat,
      ih fun b hb c hc => inj b (hl b hb) c (hl c hc)]
    by_cases mem : a ∈ l <;> simp [hmem, mem]

/-- What comes earlier without its repetitions came earlier with them. -/
theorem pairwise_idxOf_eraseDups (l : List α) :
    l.eraseDups.Pairwise fun a b => l.idxOf a < l.idxOf b := by
  induction l using List.reverseRecOn with
  | nil => exact .nil
  | append_singleton l a ih =>
    have hkeep {b : α} (mem : b ∈ l) : (l ++ [a]).idxOf b = l.idxOf b := by
      rw [List.idxOf_append, if_pos mem]
    have hbefore : l.eraseDups.Pairwise fun b c => (l ++ [a]).idxOf b < (l ++ [a]).idxOf c := by
      refine ih.imp_of_mem fun hb hc hlt => ?_
      rwa [hkeep (List.mem_eraseDups.1 hb), hkeep (List.mem_eraseDups.1 hc)]
    rw [eraseDups_concat]
    split
    next => exact hbefore
    next new =>
      refine List.pairwise_append.2 ⟨hbefore, List.pairwise_singleton _ a, fun b hb c hc => ?_⟩
      obtain rfl := List.mem_singleton.1 hc
      have mem := List.mem_eraseDups.1 hb
      rw [hkeep mem, List.idxOf_append, if_neg new]
      have hlt := List.idxOf_lt_length_of_mem mem
      omega

theorem nodup_eraseDups (l : List α) : l.eraseDups.Nodup := by
  refine (pairwise_idxOf_eraseDups l).imp fun {a b} hlt same => ?_
  rw [same] at hlt
  exact Nat.lt_irrefl _ hlt

end Appearance

section Items
variable {κ ι ν : Type} [DecidableEq κ]

/-- The keys of the items, in the order in which they first appear. -/
def keysOf (items : List (κ × ι)) : List κ := (items.map Prod.fst).eraseDups

theorem mem_keysOf {items : List (κ × ι)} {key : κ} : key ∈ keysOf items ↔ key ∈ items.map Prod.fst :=
  List.mem_eraseDups

/-- A key keeps its place when more items come. -/
theorem getElem?_keysOf_append {items : List (κ × ι)} {i : Nat} {key : κ}
    (place : (keysOf items)[i]? = some key) (more : List (κ × ι)) :
    (keysOf (items ++ more))[i]? = some key := by
  obtain ⟨hi, rfl⟩ := List.getElem?_eq_some_iff.1 place
  rw [keysOf, List.map_append, List.eraseDups_append]
  exact List.prefix_iff_getElem?.1 (List.prefix_append _ _) i hi

theorem keysOf_concat (items : List (κ × ι)) (item : κ × ι) :
    keysOf (items ++ [item]) =
      if item.1 ∈ keysOf items then keysOf items else keysOf items ++ [item.1] := by
  simp only [mem_keysOf]
  rw [keysOf, List.map_append, List.map_singleton, eraseDups_concat]
  rfl

/-- The items that come under the key, in order. -/
def itemsOf (key : κ) (items : List (κ × ι)) : List ι :=
  (items.filter fun item => item.1 = key).map Prod.snd

theorem mem_itemsOf {key : κ} {items : List (κ × ι)} {x : ι} :
    x ∈ itemsOf key items ↔ (key, x) ∈ items := by
  simp [itemsOf]

theorem itemsOf_append (key : κ) (items more : List (κ × ι)) :
    itemsOf key (items ++ more) = itemsOf key items ++ itemsOf key more := by
  rw [itemsOf, List.filter_append, List.map_append]
  rfl

theorem itemsOf_concat (key : κ) (items : List (κ × ι)) (item : κ × ι) :
    itemsOf key (items ++ [item]) =
      itemsOf key items ++ if item.1 = key then [item.2] else [] := by
  rw [itemsOf_append]
  by_cases same : item.1 = key <;> simp [itemsOf, same]

theorem itemsOf_eq_nil {key : κ} {items : List (κ × ι)} (absent : key ∉ keysOf items) :
    itemsOf key items = [] := by
  refine List.eq_nil_iff_forall_not_mem.2 fun x mem => absent (mem_keysOf.2 ?_)
  exact List.mem_map_of_mem (mem_itemsOf.1 mem)

/-- Under distinct keys with one item each stands that item. -/
theorem itemsOf_map_mk {keys : List κ} (distinct : keys.Nodup) (item : κ → ι) {key : κ}
    (mem : key ∈ keys) : itemsOf key (keys.map fun key => (key, item key)) = [item key] := by
  have hone : keys.filter (fun other => other = key) = [key] := by
    rw [List.filter_eq, List.count_eq_one_of_mem distinct mem]
    rfl
  rw [itemsOf, List.filter_map, List.map_map]
  exact congrArg (List.map item) hone

section Rename
variable {κ' ι' : Type} [DecidableEq κ'] {rename : κ → κ'} {change : ι → ι'}
  {items : List (κ × ι)}

theorem keysOf_map
    (apart : ∀ a ∈ keysOf items, ∀ b ∈ keysOf items, rename a = rename b → a = b) :
    keysOf (items.map (Prod.map rename change)) = (keysOf items).map rename := by
  simp only [mem_keysOf] at apart
  rw [keysOf, keysOf, ← eraseDups_map apart, List.map_map, List.map_map]
  rfl

theorem itemsOf_map {key : κ} (apart : ∀ a ∈ keysOf items, rename a = rename key → a = key) :
    itemsOf (rename key) (items.map (Prod.map rename change)) = (itemsOf key items).map change := by
  have hkeys : ∀ item ∈ items, (rename item.1 = rename key ↔ item.1 = key) := fun item mem =>
    ⟨apart _ (mem_keysOf.2 (List.mem_map_of_mem mem)), congrArg rename⟩
  rw [itemsOf, List.filter_map, itemsOf, List.map_map, List.map_map]
  congr 1
  exact List.filter_congr fun item mem => decide_eq_decide.2 (hkeys item mem)

end Rename

theorem map_itemsOf (key : κ) (items : List (κ × ι)) :
    (itemsOf key items).map (key, ·) = items.filter fun item => item.1 = key := by
  rw [itemsOf, List.map_map]
  conv_rhs => rw [← List.map_id (items.filter _)]
  refine List.map_congr_left fun item mem => ?_
  have same : item.1 = key := of_decide_eq_true (List.mem_filter.1 mem).2
  exact Prod.ext same.symm rfl

/-- Grouped by their keys, the items are still all there, once each. -/
theorem perm_grouped (items : List (κ × ι)) :
    ((keysOf items).flatMap fun key => (itemsOf key items).map (key, ·)).Perm items := by
  simp only [map_itemsOf]
  induction hlength : items.length using Nat.strongRecOn generalizing items with
  | ind n ih =>
    cases items with
    | nil => exact .nil
    | cons item rest =>
      -- the group of the first key, and the items that are left for the other groups
      let others := rest.filter fun other => !other.1 == item.1
      have hlt : others.length < n := by
        rw [← hlength]
        exact Nat.lt_succ_of_le (List.length_filter_le _ rest)
      have hkeys : keysOf (item :: rest) = item.1 :: keysOf others := by
        rw [keysOf, List.map_cons, List.eraseDups_cons, List.filter_map]
        rfl
      have hgroups (key : κ) (mem : key ∈ keysOf others) :
          (item :: rest).filter (fun other => other.1 = key) =
            others.filter fun other => other.1 = key := by
        obtain ⟨other, hother, rfl⟩ := List.mem_map.1 (mem_keysOf.1 mem)
        have hne : other.1 ≠ item.1 := by simpa using (List.mem_filter.1 hother).2
        rw [List.filter_cons_of_neg (by simpa using hne.symm), List.filter_filter]
        refine List.filter_congr fun entry _ => ?_
        by_cases same : entry.1 = other.1 <;> simp [same, hne]
      have hsplit : ((item :: rest).filter (fun other => other.1 = item.1) ++ others).Perm
          (item :: rest) := by
        have hothers : others = (item :: rest).filter fun other => !decide (other.1 = item.1) := by
          rw [List.filter_cons_of_neg (by simp)]
          rfl
        rw [hothers]
        exact List.filter_append_perm _ _
      rw [hkeys, List.flatMap_cons, List.flatMap_congr hgroups]
      exact ((ih _ hlt others rfl).append_left _).trans hsplit

namespace Entries

/-- Puts an item away under its key, starting from the given value if the key is new. -/
def collect (init : ν) (add : ν → ι → ν) (entries : Entries κ ν) (item : κ × ι) : Entries κ ν :=
  entries.alter item.1 fun value? => add (value?.getD init) item.2

variable (init : ν) (add : ν → ι → ν) (items : List (κ × ι))

theorem keys_foldl_collect :
    (items.foldl (collect init add) empty).keys = keysOf items := by
  induction items using List.reverseRecOn with
  | nil => rfl
  | append_singleton items item ih =>
    rw [List.foldl_concat, collect, keys_alter, ih, keysOf_concat]

theorem get?_foldl_collect (key : κ) :
    (items.foldl (collect init add) empty).get? key =
      if key ∈ keysOf items then some ((itemsOf key items).foldl add init) else none := by
  induction items using List.reverseRecOn generalizing key with
  | nil => rfl
  | append_singleton items item ih =>
    have hvalue : ((items.foldl (collect init add) empty).get? item.1).getD init =
        (itemsOf item.1 items).foldl add init := by
      rw [ih]
      split
      next => rfl
      next absent => rw [itemsOf_eq_nil absent]; rfl
    rw [List.foldl_concat, collect, get?_alter, hvalue, ih, itemsOf_concat, List.foldl_append]
    have hmem : key ∈ keysOf (items ++ [item]) ↔ key = item.1 ∨ key ∈ keysOf items := by
      simp [mem_keysOf, or_comm]
    by_cases same : item.1 = key
    · rw [if_pos same, if_pos same, if_pos (hmem.2 (.inl same.symm)), same]
      rfl
    · rw [if_neg same, if_neg same]
      exact if_congr (hmem.trans (or_iff_right (Ne.symm same))).symm rfl rfl

/-- Entries are determined by the order of their keys and by what stands under each. -/
theorem toList_eq_map {entries : Entries κ ν} (distinct : entries.keys.Nodup) {value : κ → ν}
    (under : ∀ key ∈ entries.keys, entries.get? key = some (value key)) :
    entries.toList = entries.keys.map fun key => (key, value key) := by
  obtain ⟨list⟩ := entries
  simp only [keys, get?] at distinct under ⊢
  induction list with
  | nil => rfl
  | cons entry rest ih =>
    obtain ⟨key, v⟩ := entry
    obtain ⟨new, hrest⟩ := List.nodup_cons.1 distinct
    have hfirst : v = value key := by simpa using under key List.mem_cons_self
    have hothers := ih hrest fun other mem => by
      have hne : key ≠ other := fun same => new (same ▸ mem)
      simpa [hne] using under other (List.mem_cons_of_mem key mem)
    rw [List.map_cons, List.map_cons, ← hothers, hfirst]

/-- What is left of items that were put away one after the other. -/
theorem toList_foldl_collect :
    (items.foldl (collect init add) empty).toList =
      (keysOf items).map fun key => (key, (itemsOf key items).foldl add init) := by
  have hkeys := keys_foldl_collect init add items
  rw [← hkeys]
  apply toList_eq_map
  · rw [hkeys]
    exact nodup_eraseDups _
  · intro key mem
    rw [hkeys] at mem
    rw [get?_foldl_collect, if_pos mem]

end Entries
end Items
end Automata
