import Automata.Proofs.Layout
import Mathlib.Algebra.Ring.Nat

/-! An allocator that is called again and again, also after calls that failed, gives out consecutive
numbers up to the last but one and from then on fails without a change. What carries this is the
order within a call: whether the next number fits the word is settled before anything is stored, so
a call that fails has stored nothing. -/
namespace Automata
namespace Fresh

/-- A call on an allocator in place. What the call has stored stays stored if it fails later on, and
whoever catches the failure may go on from there. -/
abbrev InPlace (α : Type) : Type := ExceptT MintError (StateM Fresh) α

/-- The number after this one, unless it does not fit the word. -/
def succ? (n : UInt64) : Option UInt64 := if n.toNat + 1 < 2 ^ 64 then some (n + 1) else none

/-- Gives out a number after it has stored the one to follow, if there is one. -/
def give (number : UInt64) : Option UInt64 → InPlace State
  | none => throw .exhausted
  | some next => do
    set (Fresh.mk next)
    return ⟨number⟩

/-- Gives out the stored number. -/
def take : InPlace State := do
  let fresh ← get
  give fresh.next (succ? fresh.next)

/-- What a call answers, and the allocator that it leaves. -/
def call (fresh : Fresh) : Except MintError State × Fresh := take.run.run fresh

/-- A mint, with the allocator as it was if it is refused. -/
def mintOrStay (fresh : Fresh) : Except MintError State × Fresh :=
  match fresh.mint with
  | .ok (q, later) => (.ok q, later)
  | .error e => (.error e, fresh)

/-- So many calls in a row, none of which minds whether those before it failed. -/
def calls : Nat → Fresh → List (Except MintError State × Fresh)
  | 0, _ => []
  | m + 1, fresh => call fresh :: calls m (call fresh).2

/-- The numbers that were given out, first come first. -/
def givenOut (answers : List (Except MintError State × Fresh)) : List UInt64 :=
  answers.filterMap fun answer => answer.1.toOption.map State.id

theorem succ?_eq (n : UInt64) : succ? n = if n = limit then none else some (n + 1) := by
  have hfits : n.toNat + 1 < 2 ^ 64 ↔ ¬n = limit := by
    rw [← UInt64.toNat_inj, show limit.toNat = 2 ^ 64 - 1 from rfl]
    have := n.toNat_lt
    omega
  rw [succ?]
  simp only [hfits, ite_not]

/-- The stored number is replaced only if the one after it fits. -/
theorem call_eq (fresh : Fresh) : call fresh =
    match succ? fresh.next with
    | none => (.error .exhausted, fresh)
    | some next => (.ok ⟨fresh.next⟩, ⟨next⟩) := by
  have hrun : call fresh = (give fresh.next (succ? fresh.next)).run.run fresh := rfl
  rw [hrun]
  cases succ? fresh.next with
  | none => rfl
  | some next => rfl

theorem call_eq_mintOrStay (fresh : Fresh) : call fresh = fresh.mintOrStay := by
  rw [call_eq, succ?_eq, mintOrStay, mint]
  by_cases hlimit : fresh.next = limit
  · rw [if_pos hlimit, if_pos hlimit]
  · rw [if_neg hlimit, if_neg hlimit]

theorem call_atNumber {k : Nat} (hk : k < limit.toNat) :
    call (atNumber k) = (.ok (State.numbered k), atNumber (k + 1)) := by
  rw [call_eq_mintOrStay, mintOrStay, mint_atNumber hk]

theorem call_limit : call (atNumber limit.toNat) = (.error .exhausted, atNumber limit.toNat) := by
  rw [call_eq_mintOrStay, mintOrStay, mint_limit]

/-- The calls that are served come first, and those that are refused change nothing. -/
theorem calls_atNumber (m k : Nat) (hk : k ≤ limit.toNat) : calls m (atNumber k) =
    (List.range' k (min m (limit.toNat - k))).map
        (fun i => (.ok (State.numbered i), atNumber (i + 1))) ++
      List.replicate (m - (limit.toNat - k)) (.error .exhausted, atNumber limit.toNat) := by
  induction m generalizing k with
  | zero => simp [calls]
  | succ m ih =>
    rcases Nat.lt_or_eq_of_le hk with hk | rfl
    · have hserved : min (m + 1) (limit.toNat - k) = min m (limit.toNat - (k + 1)) + 1 := by omega
      have hrefused : m + 1 - (limit.toNat - k) = m - (limit.toNat - (k + 1)) := by omega
      rw [calls, call_atNumber hk, ih (k + 1) hk, hserved, hrefused, List.range'_succ]
      rfl
    · have hall : calls m (atNumber limit.toNat) =
          List.replicate m (.error .exhausted, atNumber limit.toNat) := by
        simpa using ih limit.toNat (Nat.le_refl _)
      rw [calls, call_limit, hall, Nat.sub_self, Nat.min_zero]
      rfl

theorem givenOut_calls_atNumber (m k : Nat) (hk : k ≤ limit.toNat) :
    givenOut (calls m (atNumber k)) =
      (List.range' k (min m (limit.toNat - k))).map UInt64.ofNat := by
  have hserved (ks : List Nat) : givenOut (ks.map fun i =>
      ((.ok (State.numbered i) : Except MintError State), atNumber (i + 1))) =
        ks.map UInt64.ofNat := by
    rw [givenOut, List.filterMap_map, ← List.filterMap_eq_map]
    rfl
  have hrefused (r : Nat) : givenOut (List.replicate r
      ((.error .exhausted : Except MintError State), atNumber limit.toNat)) = [] := by
    rw [givenOut, List.filterMap_replicate_of_none rfl]
  rw [calls_atNumber m k hk, givenOut, List.filterMap_append, ← givenOut, ← givenOut, hserved,
    hrefused, List.append_nil]

/-- What `m` calls in a row answer and leave, from an allocator whose next number is `n`. -/
structure InOrder (n : UInt64) (m : Nat) (answers : List (Except MintError State × Fresh)) :
    Prop where
  length : answers.length = m
  /-- As long as one is left, each call gives out the next number, and the count is one more. -/
  minted : ∀ i < min m (2 ^ 64 - 1 - n.toNat), ∃ q later, answers[i]? = some (.ok q, later) ∧
    q.id.toNat = n.toNat + i ∧ later.count.toNat = q.id.toNat + 1
  /-- Every further call fails and leaves the allocator where it rests. -/
  refused : ∀ i, min m (2 ^ 64 - 1 - n.toNat) ≤ i → i < m →
    ∃ e later, answers[i]? = some (.error e, later) ∧ e.message = "State IDs exhausted" ∧
      later.count.toNat = 2 ^ 64 - 1
  ascending : (givenOut answers).Pairwise (· < ·)
  /-- The last number of the word is never given out. -/
  reserved : ∀ id ∈ givenOut answers, id.toNat ≠ 2 ^ 64 - 1

theorem inOrder_calls (n : UInt64) (m : Nat) : InOrder n m (calls m ⟨n⟩) := by
  have hlimit : limit.toNat = 2 ^ 64 - 1 := rfl
  have hn : n.toNat ≤ limit.toNat := by
    have := n.toNat_lt
    omega
  have hnumber (k : Nat) (hk : k ≤ limit.toNat) : (UInt64.ofNat k).toNat = k :=
    State.toNat_id_numbered k hk
  have hstart : (⟨n⟩ : Fresh) = atNumber n.toNat := by rw [atNumber, UInt64.ofNat_toNat]
  have hcalls := calls_atNumber m n.toNat hn
  have hgiven := givenOut_calls_atNumber m n.toNat hn
  rw [← hstart, hlimit] at hcalls hgiven
  constructor
  case length =>
    rw [hcalls, List.length_append, List.length_map, List.length_range', List.length_replicate]
    omega
  case minted =>
    intro i hi
    refine ⟨State.numbered (n.toNat + i), atNumber (n.toNat + i + 1), ?_, ?_, ?_⟩
    · rw [hcalls, List.getElem?_append_left (by simpa using hi), List.getElem?_map,
        List.getElem?_range' hi, Nat.one_mul]
      rfl
    · exact hnumber (n.toNat + i) (by omega)
    · rw [State.toNat_id_numbered (n.toNat + i) (by omega)]
      exact hnumber (n.toNat + i + 1) (by omega)
  case refused =>
    intro i hlo hhi
    refine ⟨.exhausted, atNumber limit.toNat, ?_, rfl, rfl⟩
    rw [hcalls, List.getElem?_append_right (by simpa using hlo), List.getElem?_replicate_of_lt]
    · rfl
    · rw [List.length_map, List.length_range']
      omega
  case ascending =>
    rw [hgiven, List.pairwise_map]
    refine List.Pairwise.imp_of_mem (fun {i j} hi hj hij => ?_) (List.pairwise_lt_range' 1)
    rw [List.mem_range'_1] at hi hj
    rw [UInt64.lt_iff_toNat_lt, hnumber i (by omega), hnumber j (by omega)]
    exact hij
  case reserved =>
    intro id mem
    rw [hgiven] at mem
    obtain ⟨i, hi, rfl⟩ := List.mem_map.1 mem
    rw [List.mem_range'_1] at hi
    rw [hnumber i (by omega)]
    omega

/-- An allocator never repeats a number and never wraps, however often it is called: in place, a
mint that is refused changes nothing, and the calls before the first such are served in order. -/
theorem calls_never_repeat :
    (∀ fresh : Fresh, call fresh = fresh.mintOrStay) ∧
    ∀ (n : UInt64) (m : Nat), InOrder n m (calls m ⟨n⟩) :=
  ⟨call_eq_mintOrStay, inOrder_calls⟩

end Fresh
end Automata
