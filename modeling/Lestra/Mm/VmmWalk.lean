import Lestra.Mm.PmmSpec
import Lestra.Mm.Vmm

/-!
# Virtual memory manager — the page walk

A page table is a radix tree whose entries point to tables three levels down
from the PML4 unless they are absent or map a huge page. `walk` is the list of
entries the hardware, and `vmm_get_phys`, reads for an address.
-/

namespace Lestra

open Word64 Radix

-- ---------------------------------------------------------------------------
-- Entry bits
-- ---------------------------------------------------------------------------

theorem and_twoPow_bne_zero (e : BitVec 64) {k : Nat} (hk : k < 64) :
    (e &&& BitVec.twoPow 64 k != 0#64) = e.getLsbD k := by
  rw [BitVec.and_twoPow]
  cases h : e.getLsbD k
  · simp
  · have hne : BitVec.twoPow 64 k ≠ 0#64 := by
      intro h0
      have := congrArg (fun x => x.getLsbD k) h0
      simp [hk] at this
    simp [hne]

theorem isPresent_eq (e : BitVec 64) : isPresent e = e.getLsbD 0 :=
  and_twoPow_bne_zero e (k := 0) (by decide)

theorem isWritable_eq (e : BitVec 64) : isWritable e = e.getLsbD 1 :=
  and_twoPow_bne_zero e (k := 1) (by decide)

theorem isUser_eq (e : BitVec 64) : isUser e = e.getLsbD 2 :=
  and_twoPow_bne_zero e (k := 2) (by decide)

theorem isHuge_eq (e : BitVec 64) : isHuge e = e.getLsbD 7 :=
  and_twoPow_bne_zero e (k := 7) (by decide)

theorem getLsbD_lowMask {k : Nat} (hk : k ≤ 64) (b : Nat) :
    (BitVec.ofNat 64 (2 ^ k - 1)).getLsbD b = decide (b < k) := by
  rw [BitVec.getLsbD_ofNat, Nat.testBit_two_pow_sub_one, ← Bool.decide_and]
  exact decide_eq_decide.mpr (by omega)

theorem getLsbD_ptePhysMask (b : Nat) : ptePhysMask.getLsbD b = decide (12 ≤ b ∧ b < 52) := by
  rw [show ptePhysMask = BitVec.ofNat 64 (2 ^ 52 - 1) &&& ~~~BitVec.ofNat 64 (2 ^ 12 - 1) by decide,
    BitVec.getLsbD_and, BitVec.getLsbD_not, getLsbD_lowMask (by decide), getLsbD_lowMask (by decide),
    ← decide_not, ← Bool.decide_and, ← Bool.decide_and]
  exact decide_eq_decide.mpr (by omega)

@[simp] theorem isPresent_or (a b : BitVec 64) : isPresent (a ||| b) = (isPresent a || isPresent b) := by
  simp [isPresent_eq]

@[simp] theorem isUser_or (a b : BitVec 64) : isUser (a ||| b) = (isUser a || isUser b) := by
  simp [isUser_eq]

@[simp] theorem isHuge_or (a b : BitVec 64) : isHuge (a ||| b) = (isHuge a || isHuge b) := by
  simp [isHuge_eq]

@[simp] theorem isWritable_or (a b : BitVec 64) :
    isWritable (a ||| b) = (isWritable a || isWritable b) := by
  simp [isWritable_eq]

theorem physOf_or (a b : BitVec 64) (hb : b &&& ptePhysMask = 0#64) : physOf (a ||| b) = physOf a := by
  rw [physOf, physOf, BitVec.and_or_distrib_right, hb, BitVec.or_zero]

theorem frameOf_or (a b : BitVec 64) (hb : b &&& ptePhysMask = 0#64) :
    frameOf (a ||| b) = frameOf a := by
  rw [frameOf, frameOf, physOf_or a b hb]

/-- The address of a frame of the 52-bit physical space. -/
theorem ofNat_frame_and_mask {f : Nat} (hf : f < 2 ^ 40) :
    BitVec.ofNat 64 (f * 4096) &&& ptePhysMask = BitVec.ofNat 64 (f * 4096) := by
  apply BitVec.eq_of_getLsbD_eq
  intro i hi
  rw [BitVec.getLsbD_and, getLsbD_ptePhysMask, BitVec.getLsbD_ofNat]
  have hbit : (f * 4096).testBit i = true → 12 ≤ i ∧ i < 52 := by
    intro h
    rw [show f * 4096 = f * 2 ^ 12 from rfl, Nat.testBit_mul_two_pow] at h
    simp only [Bool.and_eq_true, decide_eq_true_eq] at h
    refine ⟨h.1, ?_⟩
    by_contra hge
    have : f.testBit (i - 12) = false :=
      Nat.testBit_lt_two_pow (Nat.lt_of_lt_of_le hf (Nat.pow_le_pow_right (by decide) (by omega)))
    rw [this] at h
    exact Bool.noConfusion h.2
  cases hb : (f * 4096).testBit i
  · simp
  · simp [hbit hb]

theorem frameOf_ofNat_or {f : Nat} (hf : f < 2 ^ 40) {b : BitVec 64} (hb : b &&& ptePhysMask = 0#64) :
    frameOf (BitVec.ofNat 64 (f * 4096) ||| b) = f := by
  rw [frameOf_or _ _ hb, frameOf, physOf, ofNat_frame_and_mask hf, BitVec.toNat_ofNat, pageSize_eq,
    Nat.mod_eq_of_lt (by omega)]
  omega

theorem isHuge_ofNat_frame (f : Nat) : isHuge (BitVec.ofNat 64 (f * 4096)) = false := by
  rw [isHuge_eq, BitVec.getLsbD_ofNat, show f * 4096 = f * 2 ^ 12 from rfl,
    Nat.testBit_mul_two_pow]
  simp

-- ---------------------------------------------------------------------------
-- The walk
-- ---------------------------------------------------------------------------

/-- The table an entry points to, `n` levels above the leaf tables: absent
entries and huge pages point to none, and the PML4 has no huge pages. -/
def tableChild (n : Nat) (e : BitVec 64) : Option Nat :=
  if n = 0 ∨ isPresent e = false then none
  else if n < 3 ∧ isHuge e = true then none
  else some (frameOf e)

theorem tableChild_zero (e : BitVec 64) : tableChild 0 e = none := by
  simp [tableChild]

theorem tableChild_absent {n : Nat} {e : BitVec 64} (h : isPresent e = false) :
    tableChild n e = none := by
  simp [tableChild, h]

theorem tableChild_present {n : Nat} {e : BitVec 64} (hn : n ≠ 0) (h : isPresent e = true)
    (hh : 3 ≤ n ∨ isHuge e = false) : tableChild n e = some (frameOf e) := by
  rw [tableChild, if_neg (by simp [hn, h]), if_neg]
  rintro ⟨h1, h2⟩
  rcases hh with h3 | h3
  · omega
  · rw [h2] at h3
    exact Bool.noConfusion h3

theorem tableChild_eq_some {n u : Nat} {e : BitVec 64} (h : tableChild n e = some u) :
    isPresent e = true ∧ (n < 3 → isHuge e = false) ∧ u = frameOf e := by
  unfold tableChild at h
  split at h
  · simp at h
  · next hn =>
    split at h
    · simp at h
    · next hh =>
      refine ⟨?_, fun hlt => ?_, (Option.some.inj h).symm⟩
      · cases hP : isPresent e with
        | true => rfl
        | false => exact absurd (Or.inr hP) hn
      · cases hH : isHuge e with
        | false => rfl
        | true => exact absurd ⟨hlt, hH⟩ hh

/-- Setting the user bit leaves the child of an entry alone. -/
theorem tableChild_or_user (n : Nat) (e : BitVec 64) : tableChild n (e ||| pageUser) = tableChild n e := by
  have h1 : isPresent (e ||| pageUser) = isPresent e := by
    rw [isPresent_or, show isPresent pageUser = false by decide, Bool.or_false]
  have h2 : isHuge (e ||| pageUser) = isHuge e := by
    rw [isHuge_or, show isHuge pageUser = false by decide, Bool.or_false]
  simp only [tableChild, h1, h2, frameOf_or e pageUser (by decide)]

/-- The four table indices of an address. -/
def vpath (virt : BitVec 64) : List (Fin 512) := [pml4Idx virt, pdptIdx virt, pdIdx virt, ptIdx virt]

/-- The entries read when `virt` is translated. -/
def walk (m : Machine) (pml4 : Nat) (virt : BitVec 64) : List (BitVec 64) :=
  trail tableChild m.mem 3 pml4 (vpath virt)

/-- The tables of an address space. -/
def IsTable (m : Machine) (pml4 t : Nat) : Prop := InTree tableChild m.mem 3 pml4 t

/-- A table without present entries is a tree of its own. -/
theorem tableAt_of_absent {mem : Nat → Fin 512 → BitVec 64} {r : Nat}
    (h : ∀ i, isPresent (mem r i) = false) (p : List (Fin 512)) :
    tableAt tableChild mem 3 r p = if p = [] then some r else none := by
  cases p with
  | nil => rfl
  | cons i p => rw [tableAt_cons, tableChild_absent (h i)]; rfl

theorem distinct_of_absent {mem : Nat → Fin 512 → BitVec 64} {r : Nat}
    (h : ∀ i, isPresent (mem r i) = false) : Distinct tableChild mem 3 r := by
  intro p q u hp hq
  rw [tableAt_of_absent h] at hp hq
  split at hp <;> split at hq <;> simp_all

theorem inTree_of_absent {mem : Nat → Fin 512 → BitVec 64} {r u : Nat}
    (h : ∀ i, isPresent (mem r i) = false) : InTree tableChild mem 3 r u ↔ u = r := by
  constructor
  · rintro ⟨p, hp⟩
    rw [tableAt_of_absent h] at hp
    split at hp
    · exact (Option.some.inj hp).symm
    · simp at hp
  · rintro rfl
    exact inTree_root

/-- The translation that a walk yields. -/
def walkPhys (es : List (BitVec 64)) (virt : BitVec 64) : BitVec 64 :=
  match es with
  | [_, e] => entryPhys .pdpt e virt
  | [_, _, e] => entryPhys .pd e virt
  | [_, _, _, e] => entryPhys .pt e virt
  | _ => 0#64

theorem vmmGetPhys_eq (m : Machine) (pml4 : Nat) (virt : BitVec 64) :
    vmmGetPhys m pml4 virt = walkPhys (walk m pml4 virt) virt := by
  unfold vmmGetPhys getPteLevel walk vpath
  cases h4 : isPresent (m.mem pml4 (pml4Idx virt)) with
  | false => simp [trail, tableChild_absent h4, walkPhys]
  | true =>
    simp only [trail, tableChild_present (n := 3) (by decide) h4 (Or.inl (by decide))]
    set pdpt := frameOf (m.mem pml4 (pml4Idx virt))
    cases h3 : isPresent (m.mem pdpt (pdptIdx virt)) with
    | false => simp [tableChild_absent h3, walkPhys, entryPhys, h3]
    | true =>
      cases hh3 : isHuge (m.mem pdpt (pdptIdx virt)) with
      | true => simp [tableChild, hh3, walkPhys]
      | false =>
        simp only [tableChild_present (n := 2) (by decide) h3 (Or.inr hh3)]
        set pd := frameOf (m.mem pdpt (pdptIdx virt))
        cases h2 : isPresent (m.mem pd (pdIdx virt)) with
        | false => simp [tableChild_absent h2, walkPhys, entryPhys, h2]
        | true =>
          cases hh2 : isHuge (m.mem pd (pdIdx virt)) with
          | true => simp [tableChild, hh2, walkPhys]
          | false =>
            simp [tableChild_present (n := 1) (by decide) h2 (Or.inr hh2), walkPhys]

end Lestra
