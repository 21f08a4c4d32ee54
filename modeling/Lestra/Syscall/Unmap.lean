import Lestra.Mm.VmmUser
import Lestra.Syscall.Memory

/-!
# Memory system calls — giving pages back

What `sys_munmap` and a shrinking `sys_brk` free. Both run the same loop over a
range of pages, which translates each page with `vmm_get_phys`, frees the frame
and clears the leaf entry. The translation also resolves kernel pages and huge
pages, which `vmm_unmap_page` leaves alone.
-/

namespace Lestra

open Word64 Radix

-- ---------------------------------------------------------------------------
-- Clearing a leaf entry
-- ---------------------------------------------------------------------------

/-- The walk ends at a 4 KB page. -/
def smallPage (es : List (BitVec 64)) : Bool :=
  match es with
  | [_, _, _, e] => isPresent e && !isHuge e
  | _ => false

theorem walk_congr {m : Machine} {r : Nat} {v w : BitVec 64} (h : pageNumber w = pageNumber v) :
    walk m r w = walk m r v := by
  rw [walk, walk, (vpath_eq_iff v w).mpr h]

theorem vmmUnmapPage_cases (m : Machine) (r : Nat) (va : BitVec 64) :
    (smallPage (walk m r va) = false ∧ vmmUnmapPage m r va = m) ∨
    (smallPage (walk m r va) = true ∧
      ∃ pt, tableAt tableChild m.mem 3 r [pml4Idx va, pdptIdx va, pdIdx va] = some pt ∧
        vmmUnmapPage m r va = m.setEntry pt (ptIdx va) 0#64) := by
  unfold vmmUnmapPage getPteLevel walk vpath
  cases h4 : isPresent (m.mem r (pml4Idx va)) with
  | false => simp [trail, tableChild_absent h4, smallPage]
  | true =>
    have hc4 := tableChild_present (n := 3) (by decide) h4 (Or.inl (by decide))
    simp only [trail, tableAt_cons, hc4, Option.bind_some]
    generalize frameOf (m.mem r (pml4Idx va)) = pdpt
    cases h3 : isPresent (m.mem pdpt (pdptIdx va)) with
    | false => simp [tableChild_absent h3, smallPage]
    | true =>
      cases hh3 : isHuge (m.mem pdpt (pdptIdx va)) with
      | true => simp [tableChild, hh3, h3, smallPage]
      | false =>
        have hc3 := tableChild_present (n := 2) (by decide) h3 (Or.inr hh3)
        simp only [hc3, Option.bind_some]
        generalize frameOf (m.mem pdpt (pdptIdx va)) = pd
        cases h2 : isPresent (m.mem pd (pdIdx va)) with
        | false => simp [tableChild_absent h2, smallPage]
        | true =>
          cases hh2 : isHuge (m.mem pd (pdIdx va)) with
          | true => simp [tableChild, hh2, h2, smallPage]
          | false =>
            have hc2 := tableChild_present (n := 1) (by decide) h2 (Or.inr hh2)
            simp only [hc2, Option.bind_some, tableAt_nil]
            generalize frameOf (m.mem pd (pdIdx va)) = pt
            cases h1 : isPresent (m.mem pt (ptIdx va)) with
            | false => simp [smallPage, h1]
            | true =>
              cases hh1 : isHuge (m.mem pt (ptIdx va)) <;> simp [smallPage, h1, hh1]

theorem vmmUnmapPage_pmm (m : Machine) (r : Nat) (va : BitVec 64) :
    (vmmUnmapPage m r va).pmm = m.pmm := by
  rcases vmmUnmapPage_cases m r va with ⟨-, h⟩ | ⟨-, pt, -, h⟩ <;> rw [h]
  rfl

section Clear

variable {m : Machine} {r : Nat}

theorem distinct_unmap (hD : Distinct tableChild m.mem 3 r) (va : BitVec 64) :
    Distinct tableChild (vmmUnmapPage m r va).mem 3 r := by
  rcases vmmUnmapPage_cases m r va with ⟨-, h⟩ | ⟨-, pt, hpt, h⟩
  · rw [h]
    exact hD
  · rw [h]
    exact hD.relabel hpt ((tableChild_zero _).trans (tableChild_zero _).symm)

theorem tableAt_unmap (hD : Distinct tableChild m.mem 3 r) (va : BitVec 64) (q : List (Fin 512)) :
    tableAt tableChild (vmmUnmapPage m r va).mem 3 r q = tableAt tableChild m.mem 3 r q := by
  rcases vmmUnmapPage_cases m r va with ⟨-, h⟩ | ⟨-, pt, hpt, h⟩
  · rw [h]
  · rw [h]
    exact hD.tableAt_relabel hpt ((tableChild_zero _).trans (tableChild_zero _).symm) q

/-- The walks of other pages do not see the cleared entry. -/
theorem walk_unmap (hD : Distinct tableChild m.mem 3 r) (va w : BitVec 64) :
    walk (vmmUnmapPage m r va) r w =
      if pageNumber w = pageNumber va ∧ smallPage (walk m r va) = true then
        (walk m r w).set 3 0#64
      else walk m r w := by
  rcases vmmUnmapPage_cases m r va with ⟨hs, h⟩ | ⟨hs, pt, hpt, h⟩
  · rw [h, if_neg]
    simp [hs]
  · rw [h]
    by_cases hw : pageNumber w = pageNumber va
    · rw [if_pos ⟨hw, hs⟩, walk_congr hw, walk_congr hw]
      exact hD.trail_relabel hpt ((tableChild_zero _).trans (tableChild_zero _).symm) []
    · rw [if_neg fun hc => hw hc.1]
      refine hD.trail_write_off hpt fun hpre => hw ?_
      exact ((vpath_eq_iff va w).mp (hpre.eq_of_length rfl).symm)

end Clear

-- ---------------------------------------------------------------------------
-- Translations of page addresses
-- ---------------------------------------------------------------------------

/-- The frame that an address translates to. -/
def frameAt (m : Machine) (r : Nat) (va : BitVec 64) : Nat := (vmmGetPhys m r va).toNat / pageSize

/-- The first address of a page. -/
def PageAligned (va : BitVec 64) : Prop := va &&& 0xFFF#64 = 0#64

instance : DecidablePred PageAligned := fun _ => inferInstanceAs (Decidable (_ = _))

theorem pageAligned_iff (va : BitVec 64) : PageAligned va ↔ va.toNat % 4096 = 0 := by
  have h : (va &&& 0xFFF#64).toNat = va.toNat % 4096 := by
    rw [BitVec.toNat_and, show (0xFFF#64).toNat = 2 ^ 12 - 1 from rfl, Nat.and_two_pow_sub_one_eq_mod]
  rw [PageAligned, ← BitVec.toNat_inj, h]
  rfl

theorem pageAligned_pageFloor (a : BitVec 64) : PageAligned (pageFloor a) := by
  rw [PageAligned, pageFloor, pageMask, BitVec.and_assoc, BitVec.not_and_self]
  simp

theorem pageAligned_of_mem_pagesFrom {start va : BitVec 64} {n : Nat} (hs : PageAligned start)
    (h : va ∈ pagesFrom start n) : PageAligned va := by
  simp only [pagesFrom, List.mem_map, List.mem_range] at h
  obtain ⟨i, -, rfl⟩ := h
  rw [pageAligned_iff] at hs ⊢
  rw [BitVec.toNat_add, BitVec.toNat_ofNat, pageSize_eq]
  omega

/-- Masks that keep the page offset and masks that drop it. -/
theorem translated_and_offset {e va c d : BitVec 64} (hva : PageAligned va) (hc : c &&& 0xFFF#64 = 0#64) :
    ((e &&& c) ||| (va &&& d)) &&& 0xFFF#64 = 0#64 := by
  rw [BitVec.and_or_distrib_right, BitVec.and_assoc, hc, BitVec.and_assoc, BitVec.and_comm d,
    ← BitVec.and_assoc, hva]
  simp

/-- A page address translates to a frame address. -/
theorem pageAligned_vmmGetPhys {m : Machine} {r : Nat} {va : BitVec 64} (hva : PageAligned va) :
    PageAligned (vmmGetPhys m r va) := by
  have hentry : ∀ level e, PageAligned (entryPhys level e va) := by
    intro level e
    unfold entryPhys
    split
    · split
      · dsimp only
        split
        · rw [BitVec.and_assoc]
          exact translated_and_offset hva (by decide)
        · rw [BitVec.and_assoc]
          exact translated_and_offset hva (by decide)
      · exact translated_and_offset hva (by decide)
    · exact BitVec.zero_and
  rw [vmmGetPhys_eq]
  unfold walkPhys
  split
  · exact hentry _ _
  · exact hentry _ _
  · exact hentry _ _
  · exact BitVec.zero_and

theorem frameAt_ne_zero {m : Machine} {r : Nat} {va : BitVec 64} (hva : PageAligned va)
    (h : vmmGetPhys m r va ≠ 0#64) : frameAt m r va ≠ 0 := by
  have hal := (pageAligned_iff _).mp (pageAligned_vmmGetPhys (m := m) (r := r) hva)
  intro h0
  rw [frameAt, pageSize_eq] at h0
  refine h (BitVec.eq_of_toNat_eq ?_)
  rw [BitVec.toNat_zero]
  omega

/-- On a 4 KB page the frame does not depend on the offset. -/
theorem smallPage_frame {es : List (BitVec 64)} (h : smallPage es = true) :
    ∃ e, es[3]? = some e ∧ ∀ va, (walkPhys es va).toNat / pageSize = frameOf e ∧
      (PageAligned va → walkPhys es va = e &&& ptePhysMask) := by
  match es, h with
  | [a, b, c, e], h =>
    simp only [smallPage, Bool.and_eq_true, Bool.not_eq_true'] at h
    refine ⟨e, rfl, fun va => ?_⟩
    have hphys : walkPhys [a, b, c, e] va = (e &&& ptePhysMask) ||| (va &&& 0xFFF#64) := by
      simp [walkPhys, entryPhys, h.1, h.2]
    rw [hphys]
    refine ⟨?_, fun hva => ?_⟩
    · have hoff : (va &&& 0xFFF#64).toNat >>> 12 = 0 := by
        rw [BitVec.toNat_and, show (0xFFF#64).toNat = 2 ^ 12 - 1 from rfl,
          Nat.and_two_pow_sub_one_eq_mod, Nat.shiftRight_eq_div_pow]
        omega
      rw [frameOf, physOf, pageSize_eq, show 4096 = 2 ^ 12 from rfl, ← Nat.shiftRight_eq_div_pow,
        ← Nat.shiftRight_eq_div_pow, BitVec.toNat_or, Nat.shiftRight_or_distrib, hoff, Nat.or_zero]
    · rw [show va &&& 0xFFF#64 = 0#64 from hva, BitVec.or_zero]

theorem walkPhys_cleared {es : List (BitVec 64)} (h : smallPage es = true) (va : BitVec 64) :
    walkPhys (es.set 3 0#64) va = 0#64 := by
  match es, h with
  | [a, b, c, e], h => simp [walkPhys, entryPhys, isPresent]

theorem not_userWalk_cleared {es : List (BitVec 64)} (h : smallPage es = true) :
    ¬ UserWalk (es.set 3 0#64) := by
  match es, h with
  | [a, b, c, e], h =>
    refine Broken.not_userWalk ⟨0#64, ?_, by decide⟩
    simp

-- ---------------------------------------------------------------------------
-- The loop
-- ---------------------------------------------------------------------------

/-- The loop over `vas` clears the leaf entry of the page of `w`. -/
def Cleared (m : Machine) (r : Nat) (vas : List (BitVec 64)) (w : BitVec 64) : Prop :=
  smallPage (walk m r w) = true ∧ ∃ va ∈ vas, pageNumber va = pageNumber w ∧ vmmGetPhys m r va ≠ 0#64

/-- The loop over `vas` hands frame `f` to `pmm_free_page`. -/
def Visited (m : Machine) (r : Nat) (vas : List (BitVec 64)) (f : Nat) : Prop :=
  ∃ va ∈ vas, vmmGetPhys m r va ≠ 0#64 ∧ frameAt m r va = f

/-- What the loop has done. -/
structure Released (m m' : Machine) (r : Nat) (vas : List (BitVec 64)) : Prop where
  distinct : Distinct tableChild m'.mem 3 r
  tables : ∀ q, tableAt tableChild m'.mem 3 r q = tableAt tableChild m.mem 3 r q
  geo : m'.pmm.geo = m.pmm.geo
  bits : ∀ f, bitmapTest m'.pmm f = true ↔
    bitmapTest m.pmm f = true ∧ ¬ (Visited m r vas f ∧ f < m.pmm.geo.highestPfn)
  cleared : ∀ w, Cleared m r vas w → walk m' r w = (walk m r w).set 3 0#64
  kept : ∀ w, ¬ Cleared m r vas w → walk m' r w = walk m r w

section Loop

variable {m : Machine} {r : Nat} {va : BitVec 64}

theorem releasePage_spec (hD : Distinct tableChild m.mem 3 r) :
    Released m (releasePage r m va) r [va] := by
  by_cases h0 : vmmGetPhys m r va = 0#64
  · have hm : releasePage r m va = m := by simp [releasePage, h0]
    have hV : ∀ f, ¬ Visited m r [va] f := by
      rintro f ⟨v, hv, hne, -⟩
      rw [List.mem_singleton.mp hv] at hne
      exact hne h0
    have hC : ∀ w, ¬ Cleared m r [va] w := by
      rintro w ⟨-, v, hv, -, hne⟩
      rw [List.mem_singleton.mp hv] at hne
      exact hne h0
    rw [hm]
    exact ⟨hD, fun _ => rfl, rfl, fun f => by simp [hV f], fun w h => absurd h (hC w), fun w _ => rfl⟩
  · have hm : releasePage r m va =
        vmmUnmapPage { m with pmm := pmmFreePage m.pmm (vmmGetPhys m r va).toNat } r va := by
      simp [releasePage, h0]
    have hR := pmmFreePage_spec m.pmm (vmmGetPhys m r va).toNat
    have hC : ∀ w, Cleared m r [va] w ↔
        pageNumber w = pageNumber va ∧ smallPage (walk m r va) = true := by
      intro w
      constructor
      · rintro ⟨hs, v, hv, hpn, -⟩
        rw [List.mem_singleton.mp hv] at hpn
        exact ⟨hpn.symm, by rw [← walk_congr hpn.symm]; exact hs⟩
      · rintro ⟨hpn, hs⟩
        exact ⟨by rw [walk_congr hpn]; exact hs, va, by simp, hpn.symm, h0⟩
    obtain ⟨q, hq⟩ : ∃ q, pmmFreePage m.pmm (vmmGetPhys m r va).toNat = q := ⟨_, rfl⟩
    rw [hq] at hm hR
    have hw := walk_unmap (m := ⟨q, m.mem⟩) (r := r) hD va
    rw [hm]
    refine ⟨distinct_unmap (m := ⟨q, m.mem⟩) hD va, tableAt_unmap (m := ⟨q, m.mem⟩) hD va, ?_,
      fun f => ?_, fun w h => ?_, fun w h => ?_⟩
    · rw [vmmUnmapPage_pmm]
      exact hR.geo
    · have hne : (vmmGetPhys m r va).toNat ≠ 0 := fun h => h0 (BitVec.eq_of_toNat_eq h)
      rw [vmmUnmapPage_pmm, hR.bits f]
      simp only [Visited, List.mem_singleton, exists_eq_left, frameAt, pageSize_eq, hne, h0, ne_eq,
        not_false_eq_true, and_true, true_and, eq_comm (a := f)]
    · rw [hw w]
      exact if_pos ((hC w).mp h)
    · rw [hw w]
      exact if_neg fun hc => h ((hC w).mpr hc)

/-- The whole loop is its first round and then the rest. -/
theorem Released.trans {m₁ m₂ : Machine} {vas : List (BitVec 64)}
    (hal : ∀ v ∈ va :: vas, PageAligned v) (h₁ : Released m m₁ r [va]) (h₂ : Released m₁ m₂ r vas) :
    Released m m₂ r (va :: vas) := by
  have hphys : ∀ v, (Cleared m r [va] v ∧ vmmGetPhys m₁ r v = 0#64) ∨
      (¬ Cleared m r [va] v ∧ vmmGetPhys m₁ r v = vmmGetPhys m r v) := by
    intro v
    by_cases hc : Cleared m r [va] v
    · left
      refine ⟨hc, ?_⟩
      rw [vmmGetPhys_eq, h₁.cleared v hc]
      exact walkPhys_cleared hc.1 v
    · right
      refine ⟨hc, ?_⟩
      rw [vmmGetPhys_eq, vmmGetPhys_eq, h₁.kept v hc]
  -- a page whose entry the first round cleared had the frame of the first round
  have hfirst : ∀ v, PageAligned v → Cleared m r [va] v →
      vmmGetPhys m r va ≠ 0#64 ∧ vmmGetPhys m r v = vmmGetPhys m r va := by
    rintro v hv ⟨hs, x, hx, hpn, hne⟩
    rw [List.mem_singleton.mp hx] at hpn hne
    refine ⟨hne, ?_⟩
    obtain ⟨e, -, he⟩ := smallPage_frame hs
    rw [vmmGetPhys_eq, vmmGetPhys_eq, walk_congr hpn, (he v).2 hv, (he va).2 (hal va (by simp))]
  have hvis : ∀ f, Visited m r (va :: vas) f ↔ Visited m r [va] f ∨ Visited m₁ r vas f := by
    intro f
    constructor
    · rintro ⟨v, hv, hne, hf⟩
      rcases List.mem_cons.mp hv with rfl | hv'
      · exact Or.inl ⟨v, by simp, hne, hf⟩
      · rcases hphys v with ⟨hc, -⟩ | ⟨-, heq⟩
        · obtain ⟨hne', heq⟩ := hfirst v (hal v hv) hc
          exact Or.inl ⟨va, by simp, hne', by rw [← hf, frameAt, frameAt, heq]⟩
        · exact Or.inr ⟨v, hv', by rw [heq]; exact hne, by rw [← hf, frameAt, frameAt, heq]⟩
    · rintro (⟨v, hv, hne, hf⟩ | ⟨v, hv, hne, hf⟩)
      · exact ⟨v, by rw [List.mem_singleton.mp hv]; simp, hne, hf⟩
      · rcases hphys v with ⟨-, h0⟩ | ⟨-, heq⟩
        · exact absurd h0 hne
        · exact ⟨v, List.mem_cons_of_mem va hv, by rw [← heq]; exact hne, by
            rw [← hf, frameAt, frameAt, heq]⟩
  have hclr : ∀ w, Cleared m r (va :: vas) w ↔ Cleared m r [va] w ∨ Cleared m₁ r vas w := by
    intro w
    constructor
    · rintro ⟨hs, v, hv, hpn, hne⟩
      by_cases hc : Cleared m r [va] w
      · exact Or.inl hc
      · right
        have hcv : ¬ Cleared m r [va] v := by
          rintro ⟨hsv, x, hx, hpx, hnx⟩
          exact hc ⟨hs, x, hx, hpx.trans hpn, hnx⟩
        rcases List.mem_cons.mp hv with rfl | hv'
        · exact absurd ⟨by rw [walk_congr hpn]; exact hs, v, by simp, rfl, hne⟩ hcv
        · refine ⟨by rw [h₁.kept w hc]; exact hs, v, hv', hpn, ?_⟩
          rw [vmmGetPhys_eq, h₁.kept v hcv, ← vmmGetPhys_eq]
          exact hne
    · rintro (⟨hs, v, hv, hpn, hne⟩ | ⟨hs, v, hv, hpn, hne⟩)
      · exact ⟨hs, v, by rw [List.mem_singleton.mp hv]; simp, hpn, hne⟩
      · rcases hphys v with ⟨-, h0⟩ | ⟨hcv, heq⟩
        · exact absurd h0 hne
        · have hcw : ¬ Cleared m r [va] w := by
            rintro ⟨hsw, x, hx, hpx, hnx⟩
            exact hcv ⟨by rw [walk_congr hpn]; exact hsw, x, hx, hpx.trans hpn.symm, hnx⟩
          exact ⟨by rw [← h₁.kept w hcw]; exact hs, v, List.mem_cons_of_mem va hv, hpn, by
            rw [← heq]; exact hne⟩
  refine ⟨h₂.distinct, fun q => (h₂.tables q).trans (h₁.tables q), h₂.geo.trans h₁.geo, fun f => ?_,
    fun w hw => ?_, fun w hw => ?_⟩
  · rw [h₂.bits f, h₁.bits f, hvis f, h₁.geo]
    tauto
  · rcases (hclr w).mp hw with hc | hc
    · by_cases hc₂ : Cleared m₁ r vas w
      · rw [h₂.cleared w hc₂, h₁.cleared w hc]
        simp
      · rw [h₂.kept w hc₂, h₁.cleared w hc]
    · by_cases hc₁ : Cleared m r [va] w
      · rw [h₂.cleared w hc, h₁.cleared w hc₁]
        simp
      · rw [h₂.cleared w hc, h₁.kept w hc₁]
  · rw [hclr w, not_or] at hw
    rw [h₂.kept w hw.2, h₁.kept w hw.1]

theorem releasePages_spec : ∀ {vas : List (BitVec 64)} {m : Machine},
    Distinct tableChild m.mem 3 r → (∀ v ∈ vas, PageAligned v) →
    Released m (releasePages r m vas) r vas
  | [], m, hD, _ =>
    ⟨hD, fun _ => rfl, rfl, fun f => by simp [releasePages, Visited],
      fun w h => by simp [Cleared] at h, fun _ _ => rfl⟩
  | va :: vas, m, hD, hal => by
    have h₁ : Released m (releasePage r m va) r [va] := releasePage_spec hD
    exact h₁.trans hal (releasePages_spec h₁.distinct fun v hv => hal v (List.mem_cons_of_mem va hv))

end Loop

-- ---------------------------------------------------------------------------
-- What is freed
-- ---------------------------------------------------------------------------

/-- Frame `f` is the target of a user-accessible 4 KB page of the range. -/
def OwnedInRange (m : Machine) (r : Nat) (vas : List (BitVec 64)) (f : Nat) : Prop :=
  ∃ v, UserPage m r v ∧ smallPage (walk m r v) = true ∧ frameAt m r v = f ∧
    ∃ va ∈ vas, pageNumber va = pageNumber v

/-- Every frame that a call released was owned by a page of the range, and no
user mapping of it is left. -/
def FreesOnlyOwned (m m' : Machine) (r : Nat) (vas : List (BitVec 64)) : Prop :=
  ∀ f, bitmapTest m.pmm f = true → bitmapTest m'.pmm f = false →
    OwnedInRange m r vas f ∧ ∀ w, UserPage m' r w → frameAt m' r w ≠ f

/-- Every page of the range that translates to an allocated frame shares it only
with user-accessible 4 KB pages of the range, and there is one. -/
def RangeOwnsFrames (m : Machine) (r : Nat) (vas : List (BitVec 64)) : Prop :=
  ∀ va ∈ vas, vmmGetPhys m r va ≠ 0#64 → bitmapTest m.pmm (frameAt m r va) = true →
    frameAt m r va < m.pmm.geo.highestPfn →
    OwnedInRange m r vas (frameAt m r va) ∧
      ∀ w, UserPage m r w → frameAt m r w = frameAt m r va →
        smallPage (walk m r w) = true ∧ ∃ v ∈ vas, pageNumber v = pageNumber w

section Freed

variable {m m' : Machine} {r : Nat} {vas : List (BitVec 64)}

/-- The frames released are those visited that were allocated. -/
theorem Released.freed_iff (h : Released m m' r vas) (f : Nat) :
    (bitmapTest m.pmm f = true ∧ bitmapTest m'.pmm f = false) ↔
      bitmapTest m.pmm f = true ∧ Visited m r vas f ∧ f < m.pmm.geo.highestPfn := by
  have hb := h.bits f
  rw [← Bool.not_eq_true, hb]
  tauto

/-- The user pages that are left are those whose entry was not cleared. -/
theorem Released.userPage_iff (h : Released m m' r vas) (w : BitVec 64) :
    UserPage m' r w ↔ UserPage m r w ∧ ¬ Cleared m r vas w := by
  unfold UserPage
  by_cases hc : Cleared m r vas w
  · rw [h.cleared w hc]
    exact iff_of_false (not_userWalk_cleared hc.1) fun hx => hx.2 hc
  · rw [h.kept w hc]
    exact (and_iff_left hc).symm

theorem Released.frameAt_eq (h : Released m m' r vas) {w : BitVec 64} (hw : ¬ Cleared m r vas w) :
    frameAt m' r w = frameAt m r w := by
  rw [frameAt, frameAt, vmmGetPhys_eq, vmmGetPhys_eq, h.kept w hw]

/-- A page of the range is cleared if it is a 4 KB page with a frame that was visited. -/
theorem cleared_of_small {f : Nat} (hal : ∀ v ∈ vas, PageAligned v) (hf : f ≠ 0) {v w : BitVec 64}
    (hs : smallPage (walk m r w) = true) (hw : frameAt m r w = f) (hv : v ∈ vas)
    (hpn : pageNumber v = pageNumber w) : Cleared m r vas w := by
  refine ⟨hs, v, hv, hpn, fun h0 => hf ?_⟩
  obtain ⟨e, -, he⟩ := smallPage_frame hs
  rw [vmmGetPhys_eq, walk_congr hpn, (he v).2 (hal v hv)] at h0
  rw [← hw, frameAt, vmmGetPhys_eq, (he w).1, frameOf, physOf, h0]
  rfl

theorem Released.freesOnlyOwned_iff (h : Released m m' r vas) (hal : ∀ v ∈ vas, PageAligned v) :
    FreesOnlyOwned m m' r vas ↔ RangeOwnsFrames m r vas := by
  constructor
  · intro hF va hva hne hbit hlt
    have hfreed := (h.freed_iff (frameAt m r va)).mpr ⟨hbit, ⟨va, hva, hne, rfl⟩, hlt⟩
    obtain ⟨hown, hleft⟩ := hF _ hfreed.1 hfreed.2
    refine ⟨hown, fun w hU hw => ?_⟩
    have hc : Cleared m r vas w := by
      by_contra hc
      refine hleft w ((h.userPage_iff w).mpr ⟨hU, hc⟩) ?_
      rw [h.frameAt_eq hc, hw]
    obtain ⟨hs, v, hv, hpn, -⟩ := hc
    exact ⟨hs, v, hv, hpn⟩
  · intro hR f hbit hgone
    obtain ⟨-, ⟨va, hva, hne, rfl⟩, hlt⟩ := (h.freed_iff f).mp ⟨hbit, hgone⟩
    obtain ⟨hown, honly⟩ := hR va hva hne hbit hlt
    refine ⟨hown, fun w hU hw => ?_⟩
    obtain ⟨hU, hc⟩ := (h.userPage_iff w).mp hU
    rw [h.frameAt_eq hc] at hw
    obtain ⟨hs, v, hv, hpn⟩ := honly w hU hw
    exact hc (cleared_of_small hal (frameAt_ne_zero (hal va hva) hne) hs hw hv hpn)

end Freed

-- ---------------------------------------------------------------------------
-- The two calls
-- ---------------------------------------------------------------------------

/-- The pages that `sys_munmap` is asked to unmap; it rejects empty requests. -/
def munmapRange (addr length : BitVec 64) : List (BitVec 64) :=
  if addr = 0#64 ∨ length = 0#64 then [] else munmapPages addr length

/-- `sys_brk(addr)` takes the shrinking branch. -/
def BrkShrinks (rnd : BitVec 64) (p : Process) (addr : BitVec 64) : Prop :=
  addr ≠ 0#64 ∧ brkTarget (brkInit rnd p) addr < pageFloor (brkInit rnd p).brk

/-- The pages that a shrinking `sys_brk` gives up. -/
def brkRange (rnd : BitVec 64) (p : Process) (addr : BitVec 64) : List (BitVec 64) :=
  pagesBetween (brkTarget (brkInit rnd p) addr) (pageFloor (brkInit rnd p).brk)

theorem sysMunmap_eq {m : Machine} {p : Process} (hp : p.pml4 ≠ 0) (addr length : BitVec 64) :
    (sysMunmap m (some p) addr length).1 = releasePages p.pml4 m (munmapRange addr length) := by
  unfold sysMunmap munmapRange
  by_cases ha : addr = 0#64
  · simp [ha, releasePages]
  · by_cases hl : length = 0#64
    · simp [ha, hl, releasePages]
    · simp [ha, hl, hp]

theorem sysBrk_shrink {rnd : BitVec 64} {m : Machine} {p : Process} {addr : BitVec 64}
    (hp : p.pml4 ≠ 0) (h : BrkShrinks rnd p addr) :
    (sysBrk rnd m (some p) addr).1 = releasePages p.pml4 m (brkRange rnd p addr) := by
  have hpml4 : (brkInit rnd p).pml4 = p.pml4 := by
    unfold brkInit
    split <;> rfl
  have hlt : (brkTarget (brkInit rnd p) addr).toNat < (pageFloor (brkInit rnd p).brk).toNat := h.2
  have hng : ¬ brkTarget (brkInit rnd p) addr > pageFloor (brkInit rnd p).brk := by
    show ¬ (pageFloor (brkInit rnd p).brk).toNat < (brkTarget (brkInit rnd p) addr).toNat
    omega
  simp only [sysBrk, if_neg hp, if_neg h.1, if_neg hng, if_pos h.2, hpml4, brkRange]

theorem pageAligned_add {a b : BitVec 64} (ha : PageAligned a) (hb : PageAligned b) :
    PageAligned (a + b) := by
  rw [pageAligned_iff] at ha hb ⊢
  rw [BitVec.toNat_add]
  omega

theorem pageAligned_brkInit (rnd : BitVec 64) {p : Process} (hb : PageAligned p.brkBase) :
    PageAligned (brkInit rnd p).brkBase := by
  unfold brkInit
  split
  · refine pageAligned_add (by decide) ((pageAligned_iff _).mpr ?_)
    rw [BitVec.toNat_shiftLeft, Nat.shiftLeft_eq]
    omega
  · exact hb

theorem pageAligned_brkTarget {p : Process} (hb : PageAligned p.brkBase) (addr : BitVec 64) :
    PageAligned (brkTarget p addr) := by
  have hceil : PageAligned (pageCeil addr) := pageAligned_pageFloor (addr + 0xFFF#64)
  have hcap : PageAligned (pageFloor p.brk + brkMaxGrow) :=
    pageAligned_add (pageAligned_pageFloor p.brk) (by decide)
  have hif : ∀ (c : Prop) [Decidable c] (a b : BitVec 64), PageAligned a → PageAligned b →
      PageAligned (if c then a else b) := by
    intro c _ a b ha hb
    split
    · exact ha
    · exact hb
  exact hif _ _ _ hb (hif _ _ _ hcap hceil)

theorem pageAligned_pagesBetween {lo hi va : BitVec 64} (hlo : PageAligned lo)
    (h : va ∈ pagesBetween lo hi) : PageAligned va := by
  unfold pagesBetween at h
  split at h
  · exact pageAligned_of_mem_pagesFrom hlo h
  · simp at h

/--
**What unmapping frees.** For every process whose tables lie on distinct frames
and every argument of `sys_munmap` and of a shrinking `sys_brk`: the frames
released were targets of user-accessible 4 KB pages of the requested range, and
no user mapping to them is left, exactly when every page of the range that
translates to an allocated frame shares that frame only with user-accessible
4 KB pages of the range.
-/
theorem unmap_frees_owned_iff (m : Machine) (p : Process) (hp : p.pml4 ≠ 0)
    (hD : Distinct tableChild m.mem 3 p.pml4) (hb : PageAligned p.brkBase) :
    (∀ addr length,
      FreesOnlyOwned m (sysMunmap m (some p) addr length).1 p.pml4 (munmapRange addr length) ↔
        RangeOwnsFrames m p.pml4 (munmapRange addr length)) ∧
    ∀ rnd addr, BrkShrinks rnd p addr →
      (FreesOnlyOwned m (sysBrk rnd m (some p) addr).1 p.pml4 (brkRange rnd p addr) ↔
        RangeOwnsFrames m p.pml4 (brkRange rnd p addr)) := by
  refine ⟨fun addr length => ?_, fun rnd addr h => ?_⟩
  · have hal : ∀ v ∈ munmapRange addr length, PageAligned v := by
      intro v hv
      unfold munmapRange at hv
      split at hv
      · simp at hv
      · exact pageAligned_of_mem_pagesFrom (pageAligned_pageFloor addr) hv
    rw [sysMunmap_eq hp]
    exact (releasePages_spec hD hal).freesOnlyOwned_iff hal
  · have hal : ∀ v ∈ brkRange rnd p addr, PageAligned v := fun v hv =>
      pageAligned_pagesBetween (pageAligned_brkTarget (pageAligned_brkInit rnd hb) addr) hv
    rw [sysBrk_shrink hp h]
    exact (releasePages_spec hD hal).freesOnlyOwned_iff hal

/-- A process on the tables at frame 20. -/
def lowProcess : Process := { zeroProcess with pml4 := 20 }

theorem unmap_frees_owned_iff_low :
    FreesOnlyOwned lowMachine (sysMunmap lowMachine (some lowProcess) 0x1000#64 0x1000#64).1 20
        (munmapRange 0x1000#64 0x1000#64) ↔
      RangeOwnsFrames lowMachine 20 (munmapRange 0x1000#64 0x1000#64) :=
  (unmap_frees_owned_iff lowMachine lowProcess (by decide) lowMachine_ready.distinct (by decide)).1
    0x1000#64 0x1000#64

/-- The low 2 MB under one supervisor page, with frame 1 in use. -/
def busyMachine : Machine := { lowMachine with pmm := (pmmAllocPage lowMachine.pmm).1 }

/-- `munmap` of a page that only the kernel maps frees the kernel's frame. -/
theorem munmap_frees_kernel_frame :
    ¬ FreesOnlyOwned busyMachine (sysMunmap busyMachine (some lowProcess) 0x1000#64 0x1000#64).1 20
      (munmapRange 0x1000#64 0x1000#64) := by
  intro h
  obtain ⟨⟨v, hU, -⟩, -⟩ := h 1 (by decide) (by decide)
  -- no entry of the PML4 carries the user bit
  have hroot : isUser (busyMachine.mem 20 (pml4Idx v)) = true := by
    refine (hU _ ?_).2
    simp [walk, vpath, trail]
  have hentry : ∀ i, isUser (busyMachine.mem 20 i) = false := by
    intro i
    by_cases hi : i = 0
    · subst hi
      decide
    · simp [busyMachine, lowMachine, lowTables, hangTable, write, blankMem, hi, isUser]
  rw [hentry] at hroot
  exact Bool.noConfusion hroot

end Lestra
