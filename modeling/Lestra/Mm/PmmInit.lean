import Lestra.Mm.PmmSpec

/-!
# Physical memory manager — the state `pmm_init` leaves

The geometry `pmm_init` fixes, which frames are clear after it, and the balance
of `used_pages` around its last line: up to the reservation of frame 0 the
counter agrees with the bitmap, and the bare `bitmap_set(0)` puts it one behind
exactly when a usable region had cleared that bit (`drift_pmmInit`).
-/

namespace Lestra

open Word64

-- ---------------------------------------------------------------------------
-- Geometry
-- ---------------------------------------------------------------------------

theorem highestAddr_lt (mmap : List MmapEntry) : highestAddr mmap < 2 ^ 64 := by
  unfold highestAddr
  suffices h : ∀ (l : List MmapEntry) (acc : Nat), acc < 2 ^ 64 →
      l.foldl (fun highest e => if e.type = mmapUsable ∧ highest < add e.base e.length
        then add e.base e.length else highest) acc < 2 ^ 64 from h mmap 0 (by omega)
  intro l
  induction l with
  | nil => exact fun _ h => h
  | cons e l ih =>
    intro acc hacc
    refine ih _ ?_
    dsimp only
    split
    · exact add_lt _ _
    · exact hacc

theorem highestPfn_lt (L : Layout) (mmap : List MmapEntry) :
    (pmmGeometry L mmap).highestPfn < 2 ^ 52 := by
  have := highestAddr_lt mmap
  show highestAddr mmap / pageSize < 2 ^ 52
  rw [pageSize_eq]
  omega

/-- The address ranges the allocator protects, in one place: page-aligned, and
one after the other without wrapping. -/
structure PmmGeometry.Placed (g : PmmGeometry) : Prop where
  kernelStart : g.kernelStart % 4096 = 0
  kernelEnd : g.kernelEnd % 4096 = 0
  bitmapStart : g.bitmapStart = g.kernelEnd
  bitmapEnd : g.bitmapEnd % 4096 = 0 ∧ g.bitmapStart ≤ g.bitmapEnd
  refcountStart : g.refcountStart = g.bitmapEnd
  refcountEnd : g.refcountEnd % 4096 = 0 ∧ g.refcountStart ≤ g.refcountEnd

theorem alignUp_page_mod {x : Nat} : alignUp x pageSize % 4096 = 0 := by
  unfold alignUp alignDown
  rw [pageSize_eq]
  omega

theorem alignUp_page_le {x : Nat} (h : x < 2 ^ 60) : alignUp x pageSize ≤ x + 4095 := by
  rw [alignUp_of_lt (by rw [pageSize_eq]; omega), pageSize_eq]
  omega

theorem pmmGeometry_placed (L : Layout) (mmap : List MmapEntry) : (pmmGeometry L mmap).Placed := by
  have hpfn := highestPfn_lt L mmap
  have hK := L.aligned
  have hKe := L.end_le
  -- the sizes of the two arrays, and where they end
  obtain ⟨n, hn⟩ : ∃ n, (pmmGeometry L mmap).highestPfn = n := ⟨_, rfl⟩
  obtain ⟨B, hB⟩ : ∃ B, alignUp (n / 8) pageSize = B := ⟨_, rfl⟩
  obtain ⟨R, hR⟩ : ∃ R, alignUp (mul n 4) pageSize = R := ⟨_, rfl⟩
  have hBmod : B % 4096 = 0 := hB ▸ alignUp_page_mod
  have hRmod : R % 4096 = 0 := hR ▸ alignUp_page_mod
  have hBle : B ≤ n / 8 + 4095 := hB ▸ alignUp_page_le (by omega)
  have hRle : R ≤ n * 4 + 4095 := by
    rw [← hR, mul_of_lt (by omega)]
    exact alignUp_page_le (by omega)
  have hBe : (pmmGeometry L mmap).bitmapEnd = L.kernelEnd + B := by
    rw [← add_of_lt (show L.kernelEnd + B < 2 ^ 64 by omega), ← hB, ← hn]
    rfl
  have hRe : (pmmGeometry L mmap).refcountEnd = L.kernelEnd + B + R := by
    rw [← add_of_lt (show L.kernelEnd + B + R < 2 ^ 64 by omega), ← hBe, ← hR, ← hn]
    rfl
  have hRs : (pmmGeometry L mmap).refcountStart = (pmmGeometry L mmap).bitmapEnd := rfl
  have hBs : (pmmGeometry L mmap).bitmapStart = L.kernelEnd := rfl
  have hKs : kernelImageStart % 4096 = 0 := by decide
  exact ⟨hKs, hK, rfl, ⟨by omega, by omega⟩, hRs, ⟨by omega, by omega⟩⟩

theorem pmmGeometry_covers {L : Layout} {mmap : List MmapEntry}
    (h : (pmmGeometry L mmap).highestPfn ≤ 8 * (pmmGeometry L mmap).bitmapSize) :
    (pmmGeometry L mmap).Covers := by
  have hlt := highestPfn_lt L mmap
  have hmod : (pmmGeometry L mmap).bitmapSize % 4096 = 0 := alignUp_page_mod
  exact ⟨by omega, by omega⟩

-- ---------------------------------------------------------------------------
-- The bitmap after initialisation
-- ---------------------------------------------------------------------------

@[simp] theorem pmmBlank_geo (g : PmmGeometry) : (pmmBlank g).geo = g := rfl

theorem bitmapTest_pmmBlank {g : PmmGeometry} (hg : g.Covers) (f : Nat) :
    bitmapTest (pmmBlank g) f = true := by
  rcases Nat.lt_or_ge f g.highestPfn with hlt | hge
  · have hw := hg.words
    rw [bitmapTest_of_lt hlt]
    show (if f / 64 < g.bitmapSize / 8 then BitVec.allOnes 64 else 0#64).getLsbD (f % 64) = true
    rw [if_pos (by omega), BitVec.getLsbD_allOnes]
    exact decide_eq_true (Nat.mod_lt _ (by decide))
  · exact bitmapTest_of_le hge

theorem usedBits_of_all {p : Pmm} (h : ∀ f, bitmapTest p f = true) :
    usedBits p = p.geo.highestPfn := by
  unfold usedBits
  simp only [h]
  exact Nat.count_true _

/-- Some usable entry of the map makes `free_region` visit frame `f`. -/
def FreedAtInit (mmap : List MmapEntry) (f : Nat) : Prop :=
  ∃ e ∈ mmap, e.type = mmapUsable ∧ 0 < e.length ∧ InRegion e.base (add e.base e.length) f

theorem foldl_freeUsable_spec (mmap : List MmapEntry) : ∀ p : Pmm,
    Frees (FreedAtInit mmap) p (mmap.foldl freeUsable p) := by
  induction mmap with
  | nil => exact fun p => Frees.of_empty fun g h => by simp [FreedAtInit] at h
  | cons e mmap ih =>
    intro p
    have h' := ih (freeUsable p e)
    have h : Frees (fun f => e.type = mmapUsable ∧ 0 < e.length ∧
        InRegion e.base (add e.base e.length) f) p (freeUsable p e) := by
      unfold freeUsable
      split
      · next hu =>
        have hR := freeRegion_spec p e.base (add e.base e.length)
        exact ⟨hR.toBalanced, hR.refcount, fun g => by rw [hR.bits]; simp [hu]⟩
      · next hu => exact Frees.of_empty fun g hg => hu ⟨hg.1.1, hg.1.2.1⟩
    refine ⟨h.toBalanced.trans h'.toBalanced, ?_, fun g => ?_⟩
    · rw [List.foldl_cons, h'.refcount, h.refcount]
    · have hcons : FreedAtInit (e :: mmap) g ↔ (e.type = mmapUsable ∧ 0 < e.length ∧
          InRegion e.base (add e.base e.length) g) ∨ FreedAtInit mmap g := by
        simp [FreedAtInit]
      rw [List.foldl_cons, h'.bits, h.bits, h.geo, hcons, and_assoc]
      refine and_congr_right fun _ => ?_
      tauto

theorem pmmInitRegions_balanced (L : Layout) (mmap : List MmapEntry) :
    Balanced (pmmBlank (pmmGeometry L mmap)) (pmmInitRegions L mmap) :=
  (foldl_freeUsable_spec mmap _).toBalanced.trans (markRegion_spec _ _ _).toBalanced

@[simp] theorem pmmInit_geo (L : Layout) (mmap : List MmapEntry) :
    (pmmInit L mmap).geo = pmmGeometry L mmap := by
  rw [pmmInit, bitmapSet_geo, (pmmInitRegions_balanced L mmap).geo, pmmBlank_geo]

theorem bitmapTest_pmmInit_zero (L : Layout) (mmap : List MmapEntry) :
    bitmapTest (pmmInit L mmap) 0 = true := by
  rw [pmmInit, bitmapTest_bitmapSet]
  simp

/-- Before its last line `pmm_init` keeps the counter equal to the bitmap. -/
theorem drift_pmmInitRegions {L : Layout} {mmap : List MmapEntry}
    (hg : (pmmGeometry L mmap).Covers) : drift (pmmInitRegions L mmap) = 0 := by
  rw [(pmmInitRegions_balanced L mmap).drift, drift, usedBits_of_all (bitmapTest_pmmBlank hg)]
  show sub (pmmGeometry L mmap).highestPfn (pmmGeometry L mmap).highestPfn = 0
  have := hg.addr
  rw [sub_of_le (by omega) (Nat.le_refl _), Nat.sub_self]

/-- Frame 0 is clear just before its reservation exactly when a usable region
visited it: the kernel's own region starts at 1 MiB. -/
theorem bitmapTest_pmmInitRegions_zero {L : Layout} {mmap : List MmapEntry}
    (hg : (pmmGeometry L mmap).Covers) :
    bitmapTest (pmmInitRegions L mmap) 0 = false ↔
      FreedAtInit mmap 0 ∧ 0 < (pmmGeometry L mmap).highestPfn := by
  have hF := foldl_freeUsable_spec mmap (pmmBlank (pmmGeometry L mmap))
  have hM := markRegion_spec (mmap.foldl freeUsable (pmmBlank (pmmGeometry L mmap)))
    kernelImageStart (alignUp (pmmGeometry L mmap).refcountEnd pageSize)
  have hnot : ¬ InRegion kernelImageStart (alignUp (pmmGeometry L mmap).refcountEnd pageSize) 0 := by
    rintro ⟨-, hle, -⟩
    exact absurd hle (by decide)
  rw [← Bool.not_eq_true, show bitmapTest (pmmInitRegions L mmap) 0 = true ↔ _ from hM.bits 0,
    hF.bits]
  simp only [bitmapTest_pmmBlank hg, hnot, pmmBlank_geo, true_and, false_and, or_false, not_not]

/-- The reservation of frame 0 sets a bit without counting it: the counter ends
one behind exactly when a usable region had cleared that bit. -/
theorem drift_pmmInit {L : Layout} {mmap : List MmapEntry} (hg : (pmmGeometry L mmap).Covers) :
    (FreedAtInit mmap 0 ∧ 0 < (pmmGeometry L mmap).highestPfn → drift (pmmInit L mmap) = 1) ∧
    (¬ (FreedAtInit mmap 0 ∧ 0 < (pmmGeometry L mmap).highestPfn) →
      drift (pmmInit L mmap) = 0) := by
  have hpre := drift_pmmInitRegions hg
  constructor
  · intro h
    have hclear := (bitmapTest_pmmInitRegions_zero hg).mpr h
    have hbits := usedBits_insert (q := pmmInit L mmap) (bitmapSet_geo _ 0)
      (bitmapTest_bitmapSet _ 0) hclear
    rw [drift, hbits, pmmInit, bitmapSet_usedPages]
    unfold drift sub at hpre
    unfold sub
    omega
  · intro h
    have hset : bitmapTest (pmmInitRegions L mmap) 0 = true := by
      rw [← Bool.not_eq_false, bitmapTest_pmmInitRegions_zero hg]
      exact h
    rw [← hpre, drift, drift, pmmInit, bitmapSet_usedPages]
    congr 1
    refine usedBits_congr (bitmapSet_geo _ 0) fun g => ?_
    rw [bitmapTest_bitmapSet]
    by_cases hg0 : g = 0
    · rw [hg0, hset, Bool.true_or]
    · simp [hg0]

theorem usedPages_pmmInit_lt (L : Layout) (mmap : List MmapEntry) :
    (pmmInit L mmap).usedPages < 2 ^ 64 := by
  rw [pmmInit, bitmapSet_usedPages]
  refine (pmmInitRegions_balanced L mmap).range ?_
  have := highestPfn_lt L mmap
  show (pmmGeometry L mmap).highestPfn < 2 ^ 64
  omega

end Lestra
