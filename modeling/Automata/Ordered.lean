/-! Machine states, symbols and rules live in sorted sets, and both the sets and the order of
what is listed from them are part of every answer. So a type of states brings one lawful total
comparison, and its decidable equality as data: generic code then asks for a single class, and
at a concrete type both unfold to that type's usual instances. -/
namespace Automata

/-- A type with a lawful total comparison and decidable equality. -/
class Ordered (α : Type) extends Ord α, Std.TransOrd α, Std.LawfulEqOrd α where
  decEq : DecidableEq α

namespace Ordered

instance {α : Type} [Ordered α] : DecidableEq α := Ordered.decEq

instance : Ordered Nat where
  toOrd := instOrdNat
  toTransCmp := Nat.instTransOrd
  toLawfulEqCmp := Nat.instLawfulEqOrd
  decEq := instDecidableEqNat

instance : Ordered Int where
  toOrd := instOrdInt
  toTransCmp := Int.instTransOrd
  toLawfulEqCmp := Int.instLawfulEqOrd
  decEq := Int.instDecidableEq

instance : Ordered UInt64 where
  toOrd := UInt64.instOrd
  toTransCmp := UInt64.instTransOrd
  toLawfulEqCmp := UInt64.instLawfulEqOrd
  decEq := instDecidableEqUInt64

instance : Ordered Char where
  toOrd := instOrdChar
  toTransCmp := Char.instTransOrd
  toLawfulEqCmp := Char.instLawfulEqOrd
  decEq := instDecidableEqChar

/-- Strings compare by code point, first difference first. -/
instance : Ordered String where
  toOrd := String.instOrd
  toTransCmp := String.instTransOrd
  toLawfulEqCmp := String.instLawfulEqOrd
  decEq := instDecidableEqString

/-- An absent value precedes every present one. -/
instance {α : Type} [Ordered α] : Ordered (Option α) where
  toOrd := instOrdOption
  toTransCmp := Option.instTransOrd
  toLawfulEqCmp := Option.instLawfulEqOrd
  decEq := Option.instDecidableEq

/-- Lists compare by the first element in which they differ, and a list precedes its extensions. -/
instance {α : Type} [Ordered α] : Ordered (List α) where
  toOrd := List.instOrd
  toTransCmp := List.instTransOrd
  toLawfulEqCmp := List.instLawfulEqOrd
  decEq := instDecidableEqList

/-- A type read through an injective key into an ordered type is ordered by that key. -/
@[reducible] def ofKey {α κ : Type} [Ordered κ] [DecidableEq α] (key : α → κ)
    (inj : ∀ a b, key a = key b → a = b) : Ordered α where
  compare a b := compare (key a) (key b)
  eq_swap := Std.OrientedCmp.eq_swap
  isLE_trans := Std.TransCmp.isLE_trans
  compare_self := Std.ReflCmp.compare_self
  eq_of_compare h := inj _ _ (Std.LawfulEqCmp.eq_of_compare h)
  decEq := inferInstance

/-- Pairs compare by their first component, then by their second. -/
instance {α β : Type} [Ordered α] [Ordered β] : Ordered (α × β) where
  compare := compareLex (compareOn Prod.fst) (compareOn Prod.snd)
  toTransCmp := inferInstance
  eq_of_compare {a b} h := by
    simp only [compareLex, compareOn, Ordering.then_eq_eq] at h
    exact Prod.ext (Std.LawfulEqCmp.eq_of_compare h.1) (Std.LawfulEqCmp.eq_of_compare h.2)
  compare_self := Std.ReflCmp.compare_self
  decEq := instDecidableEqProd

variable {α : Type} [Ordered α]

theorem compare_eq_iff {a b : α} : compare a b = .eq ↔ a = b :=
  Std.compare_eq_iff_eq

theorem lt_irrefl (a : α) : compare a a ≠ .lt := by
  simp

theorem lt_trans {a b c : α} (hab : compare a b = .lt) (hbc : compare b c = .lt) :
    compare a c = .lt :=
  Std.TransCmp.lt_trans hab hbc

theorem gt_iff_lt {a b : α} : compare a b = .gt ↔ compare b a = .lt :=
  Std.OrientedCmp.gt_iff_lt

end Ordered
end Automata
