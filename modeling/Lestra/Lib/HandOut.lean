import Lestra.Lib.Count

/-!
# Items handed out once

Numbered items are put into places, each of which holds at most one, and taken out
again. In a `Balanced` ledger every item there has been is in exactly one place or was
taken out exactly once.
-/

namespace HandOut

/-- The number of the next item, the places, and the items taken out. -/
structure Ledger (ι : Type*) where
  next : ℕ
  waiting : ι → Option ℕ
  handed : List ℕ

namespace Ledger

variable {ι : Type*} [DecidableEq ι] (L : Ledger ι) (a : ι)

/-- A new item in place `a`. -/
def put : Ledger ι :=
  { L with next := L.next + 1, waiting := Function.update L.waiting a (some L.next) }

/-- What is in place `a` is taken out. -/
def take : Ledger ι :=
  { L with waiting := Function.update L.waiting a none, handed := L.handed ++ (L.waiting a).toList }

variable [Fintype ι]

/-- The number of places that hold `item`. -/
def places (item : ℕ) : ℕ := (Finset.univ.filter fun b => L.waiting b == some item).card

structure Balanced : Prop where
  once : ∀ item < L.next, L.handed.count item + L.places item = 1
  handed_lt : ∀ item ∈ L.handed, item < L.next
  waiting_lt : ∀ b item, L.waiting b = some item → item < L.next

end Ledger

variable {ι : Type*} [DecidableEq ι] {L : Ledger ι} {a : ι}

open Ledger

theorem waiting_put_self : (L.put a).waiting a = some L.next := Function.update_self ..

theorem waiting_put_ne {b : ι} (h : b ≠ a) : (L.put a).waiting b = L.waiting b :=
  Function.update_of_ne h ..

theorem waiting_take_self : (L.take a).waiting a = none := Function.update_self ..

theorem waiting_take_ne {b : ι} (h : b ≠ a) : (L.take a).waiting b = L.waiting b :=
  Function.update_of_ne h ..

variable [Fintype ι]

theorem places_put (hempty : L.waiting a = none) (item : ℕ) :
    (L.put a).places item = L.places item + if item = L.next then 1 else 0 := by
  have hcard := Count.card_update (fun w => w == some item) L.waiting a (some L.next)
  rw [hempty] at hcard
  by_cases hitem : item = L.next
  · rw [if_pos hitem]
    simpa [places, put, hitem] using hcard
  · have hne : (some L.next == some item) = false := by simpa using Ne.symm hitem
    rw [if_neg hitem]
    simpa [places, put, hne] using hcard

theorem places_take (item : ℕ) :
    (L.take a).places item + (if L.waiting a = some item then 1 else 0) = L.places item := by
  have hcard := Count.card_update (fun w => w == some item) L.waiting a none
  by_cases hitem : L.waiting a = some item
  · rw [if_pos hitem]
    simpa [places, take, hitem] using hcard
  · have hne : (L.waiting a == some item) = false := by simpa using hitem
    rw [if_neg hitem]
    simpa [places, take, hne] using hcard

theorem Ledger.Balanced.put (h : L.Balanced) (hempty : L.waiting a = none) :
    (L.put a).Balanced := by
  have hnew : L.handed.count L.next = 0 := List.count_eq_zero.mpr fun hmem =>
    Nat.lt_irrefl _ (h.handed_lt _ hmem)
  have hnone : L.places L.next = 0 := by
    refine Finset.card_eq_zero.mpr (Finset.filter_eq_empty_iff.mpr fun b _ hb => ?_)
    exact Nat.lt_irrefl _ (h.waiting_lt b _ (beq_iff_eq.mp hb))
  refine ⟨fun item hlt => ?_, fun item hmem => Nat.lt_succ_of_lt (h.handed_lt item hmem),
    fun b item hb => ?_⟩
  · rw [places_put hempty]
    by_cases hitem : item = L.next
    · subst hitem
      rw [if_pos rfl, hnone]
      exact (congrArg (· + (0 + 1)) hnew : L.handed.count L.next + (0 + 1) = 0 + (0 + 1))
    · have hold := h.once item (by have := hlt; simp only [Ledger.put] at this; omega)
      rw [if_neg hitem]
      exact hold
  · by_cases hba : b = a
    · rw [hba, waiting_put_self] at hb
      rw [← Option.some.inj hb]
      exact Nat.lt_succ_self _
    · rw [waiting_put_ne hba] at hb
      exact Nat.lt_succ_of_lt (h.waiting_lt b item hb)

theorem Ledger.Balanced.take (h : L.Balanced) : (L.take a).Balanced := by
  refine ⟨fun item hlt => ?_, fun item hmem => ?_, fun b item hb => ?_⟩
  · have hold := h.once item hlt
    have hplaces := places_take (L := L) (a := a) item
    have hcount : (L.take a).handed.count item
        = L.handed.count item + if L.waiting a = some item then 1 else 0 := by
      rw [Ledger.take, List.count_append]
      congr 1
      cases hw : L.waiting a with
      | none => simp
      | some x => by_cases hx : x = item <;> simp [hx]
    omega
  · rcases List.mem_append.mp hmem with hold | hnew
    · exact h.handed_lt item hold
    · exact h.waiting_lt a item (Option.mem_toList.mp hnew)
  · by_cases hba : b = a
    · rw [hba, waiting_take_self] at hb
      exact absurd hb (Option.some_ne_none _).symm
    · rw [waiting_take_ne hba] at hb
      exact h.waiting_lt b item hb

end HandOut
