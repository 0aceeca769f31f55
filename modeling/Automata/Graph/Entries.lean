/-! Entries are listed in the order in which their keys first came. A key that comes again changes
its value where it stands. -/
namespace Automata

/-- Values under keys, in the order of the first mention of each key. -/
structure Entries (κ ν : Type) where
  toList : List (κ × ν)
  deriving DecidableEq

namespace Entries
variable {κ ν : Type}

def empty : Entries κ ν := ⟨[]⟩

def keys (entries : Entries κ ν) : List κ := entries.toList.map Prod.fst

variable [DecidableEq κ]

/-- Changes the value that stands under the key, or puts a new one at the end. -/
def alterList (key : κ) (change : Option ν → ν) : List (κ × ν) → List (κ × ν)
  | [] => [(key, change none)]
  | (k, v) :: rest =>
    if k = key then (k, change (some v)) :: rest else (k, v) :: alterList key change rest

def alter (entries : Entries κ ν) (key : κ) (change : Option ν → ν) : Entries κ ν :=
  ⟨alterList key change entries.toList⟩

def get? (entries : Entries κ ν) (key : κ) : Option ν :=
  (entries.toList.find? fun entry => entry.1 = key).map Prod.snd

theorem keys_alter (entries : Entries κ ν) (key : κ) (change : Option ν → ν) :
    (entries.alter key change).keys =
      if key ∈ entries.keys then entries.keys else entries.keys ++ [key] := by
  obtain ⟨list⟩ := entries
  simp only [alter, keys]
  induction list with
  | nil => rfl
  | cons entry rest ih =>
    obtain ⟨k, v⟩ := entry
    by_cases same : k = key
    · simp [alterList, same]
    · have other : key ≠ k := Ne.symm same
      simp only [alterList, same, if_false, List.map_cons, ih, List.mem_cons, other, false_or]
      by_cases mem : key ∈ rest.map Prod.fst <;> simp [mem]

theorem get?_alter (entries : Entries κ ν) (key other : κ) (change : Option ν → ν) :
    (entries.alter key change).get? other =
      if key = other then some (change (entries.get? key)) else entries.get? other := by
  obtain ⟨list⟩ := entries
  simp only [alter, get?]
  induction list with
  | nil => by_cases same : key = other <;> simp [alterList, same]
  | cons entry rest ih =>
    obtain ⟨k, v⟩ := entry
    by_cases hk : k = key
    · subst hk
      by_cases ho : k = other <;> simp [alterList, ho]
    · by_cases ho : k = other
      · subst ho
        simp [alterList, hk, Ne.symm hk]
      · simp only [alterList, hk, if_false, List.find?_cons, ho, decide_false]
        exact ih

theorem nodup_keys_alter {entries : Entries κ ν} (distinct : entries.keys.Nodup) (key : κ)
    (change : Option ν → ν) : (entries.alter key change).keys.Nodup := by
  rw [keys_alter]
  split
  next => exact distinct
  next new =>
    simp only [List.nodup_append, List.mem_singleton, forall_eq]
    exact ⟨distinct, by simp, fun other mem same => new (same ▸ mem)⟩

/-- What holds of every value before, and of every value that the change gives, holds after. -/
theorem forall_alter {motive : ν → Prop} {entries : Entries κ ν}
    (before : ∀ entry ∈ entries.toList, motive entry.2) {key : κ} {change : Option ν → ν}
    (changed : ∀ v?, motive (change v?)) :
    ∀ entry ∈ (entries.alter key change).toList, motive entry.2 := by
  obtain ⟨list⟩ := entries
  simp only [alter] at before ⊢
  induction list with
  | nil => simpa [alterList] using changed none
  | cons entry rest ih =>
    obtain ⟨first, others⟩ := List.forall_mem_cons.1 before
    obtain ⟨k, v⟩ := entry
    simp only [alterList]
    split
    next => exact List.forall_mem_cons.2 ⟨changed (some v), others⟩
    next => exact List.forall_mem_cons.2 ⟨first, ih others⟩

end Entries
end Automata
