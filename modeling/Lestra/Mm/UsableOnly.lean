import Lestra.Mm.PmmOwnership

/-!
# Physical memory manager — which frames `pmm_init` frees

`free_region` rounds outwards, so a frame is freed as soon as one byte of it is usable. The
frames left clear are characterised (`bitmapTest_pmmInit_eq_false`), and with them:

* `pmmInit_only_usable_iff` — every clear frame is usable as a whole exactly when that holds
  of the frames a usable entry covers in part.
-/

namespace Lestra

open Word64

-- ---------------------------------------------------------------------------
-- Usable memory
-- ---------------------------------------------------------------------------

def UsableByte (mmap : List MmapEntry) (a : Nat) : Prop :=
  ∃ e ∈ mmap, e.type = mmapUsable ∧ e.base ≤ a ∧ a < e.base + e.length

def UsableFrame (mmap : List MmapEntry) (f : Nat) : Prop :=
  ∀ a, 4096 * f ≤ a → a < 4096 * f + 4096 → UsableByte mmap a

/-- Every free frame lies in the usable entries. -/
def OnlyUsableFree (p : Pmm) (mmap : List MmapEntry) : Prop :=
  ∀ f, bitmapTest p f = false → UsableFrame mmap f

def EntriesApart (mmap : List MmapEntry) : Prop :=
  mmap.Pairwise fun e e' => e.base + e.length ≤ e'.base ∨ e'.base + e'.length ≤ e.base

instance (mmap : List MmapEntry) : Decidable (EntriesApart mmap) :=
  inferInstanceAs (Decidable (List.Pairwise _ _))

-- ---------------------------------------------------------------------------
-- The clear frames
-- ---------------------------------------------------------------------------

/-- The frames that hold the kernel image, the bitmap or the reference counts. -/
def KernelFrame (L : Layout) (mmap : List MmapEntry) (f : Nat) : Prop :=
  InRegion kernelImageStart (alignUp (pmmGeometry L mmap).refcountEnd pageSize) f

/-- The word of the frame is not in the bitmap but in the array of zeros behind it. -/
def BeyondBitmap (L : Layout) (mmap : List MmapEntry) (f : Nat) : Prop :=
  (pmmGeometry L mmap).bitmapSize / 8 ≤ pfnToIdx f

theorem bitmapTest_pmmBlank_eq_false {g : PmmGeometry} {f : Nat} :
    bitmapTest (pmmBlank g) f = false ↔ f < g.highestPfn ∧ g.bitmapSize / 8 ≤ pfnToIdx f := by
  rcases Nat.lt_or_ge f g.highestPfn with hlt | hge
  · have hbit : bitmapTest (pmmBlank g) f =
        (if f / 64 < g.bitmapSize / 8 then BitVec.allOnes 64 else 0#64).getLsbD (f % 64) :=
      bitmapTest_of_lt hlt
    rw [hbit, pfnToIdx]
    split
    · next hin =>
      rw [BitVec.getLsbD_allOnes, decide_eq_true (Nat.mod_lt _ (by decide))]
      exact ⟨fun h => absurd h (by decide), fun h => absurd h.2 (by omega)⟩
    · next hout => exact ⟨fun _ => ⟨hlt, by omega⟩, fun _ => BitVec.getLsbD_zero⟩
  · have hset : bitmapTest (pmmBlank g) f = true := bitmapTest_of_le hge
    rw [hset]
    exact ⟨fun h => absurd h (by decide), fun h => absurd h.1 (by omega)⟩

theorem bitmapTest_pmmInit_eq_false (L : Layout) (mmap : List MmapEntry) (f : Nat) :
    bitmapTest (pmmInit L mmap) f = false ↔ f < (pmmGeometry L mmap).highestPfn ∧ f ≠ 0 ∧
      ¬ KernelFrame L mmap f ∧ (FreedAtInit mmap f ∨ BeyondBitmap L mmap f) := by
  have hF := foldl_freeUsable_spec mmap (pmmBlank (pmmGeometry L mmap))
  have hM := markRegion_spec (mmap.foldl freeUsable (pmmBlank (pmmGeometry L mmap)))
    kernelImageStart (alignUp (pmmGeometry L mmap).refcountEnd pageSize)
  have hblank := bitmapTest_pmmBlank_eq_false (g := pmmGeometry L mmap) (f := f)
  have hregions : bitmapTest (pmmInitRegions L mmap) f = true ↔ _ := hM.bits f
  rw [hF.bits, hF.geo, pmmBlank_geo] at hregions
  have hinit : bitmapTest (pmmInit L mmap) f = true ↔
      bitmapTest (pmmInitRegions L mmap) f = true ∨ f = 0 := by
    rw [pmmInit, bitmapTest_bitmapSet, Bool.or_eq_true, decide_eq_true_eq]
  rw [← Bool.not_eq_true, hinit, hregions]
  rw [← Bool.not_eq_true] at hblank
  unfold KernelFrame BeyondBitmap
  by_cases hlt : f < (pmmGeometry L mmap).highestPfn
  · simp only [hlt, true_and, and_true] at hblank ⊢
    tauto
  · have hset : bitmapTest (pmmBlank (pmmGeometry L mmap)) f = true := bitmapTest_of_le (by
      rw [pmmBlank_geo]
      omega)
    simp only [hlt, hset, false_and, and_false, not_false_eq_true, and_true, true_or, not_true_eq_false]

-- ---------------------------------------------------------------------------
-- Frames that are covered in part
-- ---------------------------------------------------------------------------

/-- `free_region` visits the frame for a usable entry that does not cover it. -/
def FreedInPart (mmap : List MmapEntry) (f : Nat) : Prop :=
  ∃ e ∈ mmap, e.type = mmapUsable ∧ 0 < e.length ∧ InRegion e.base (add e.base e.length) f ∧
    (4096 * f < e.base ∨ add e.base e.length < 4096 * f + 4096)

theorem FreedInPart.freed {mmap : List MmapEntry} {f : Nat} (h : FreedInPart mmap f) :
    FreedAtInit mmap f := by
  obtain ⟨e, he, hu, hlen, hin, -⟩ := h
  exact ⟨e, he, hu, hlen, hin⟩

/-- A frame that is freed is covered by the entry or covered in part. -/
theorem FreedAtInit.usable_or_part {mmap : List MmapEntry} {f : Nat} (h : FreedAtInit mmap f) :
    UsableFrame mmap f ∨ FreedInPart mmap f := by
  obtain ⟨e, he, hu, hlen, hin⟩ := h
  by_cases hpart : 4096 * f < e.base ∨ add e.base e.length < 4096 * f + 4096
  · exact .inr ⟨e, he, hu, hlen, hin, hpart⟩
  · refine .inl fun a hlo hhi => ⟨e, he, hu, ?_, ?_⟩
    · omega
    · have hle : add e.base e.length ≤ e.base + e.length := Nat.mod_le _ _
      omega

/--
**Which frames are freed.** After `pmm_init` every free frame lies in the usable entries
exactly when this holds of the frames that an entry covers in part and of those whose word
is behind the bitmap, as far as they are below `highest_pfn` and not reserved.
-/
theorem pmmInit_only_usable_iff (L : Layout) (mmap : List MmapEntry) :
    OnlyUsableFree (pmmInit L mmap) mmap ↔
      ∀ f < (pmmGeometry L mmap).highestPfn, f ≠ 0 → ¬ KernelFrame L mmap f →
        FreedInPart mmap f ∨ BeyondBitmap L mmap f → UsableFrame mmap f := by
  constructor
  · intro h f hlt h0 hk hf
    exact h f ((bitmapTest_pmmInit_eq_false L mmap f).mpr
      ⟨hlt, h0, hk, hf.imp_left FreedInPart.freed⟩)
  · intro h f hclear
    obtain ⟨hlt, h0, hk, hf⟩ := (bitmapTest_pmmInit_eq_false L mmap f).mp hclear
    rcases hf with hfreed | hbeyond
    · rcases hfreed.usable_or_part with husable | hpart
      · exact husable
      · exact h f hlt h0 hk (.inl hpart)
    · exact h f hlt h0 hk (.inr hbeyond)

/-- A map as firmware gives it: usable up to 639 KiB, then a reserved kilobyte in the same
frame. -/
def biosMap : List MmapEntry := [⟨0, 0x9fc00, 1⟩, ⟨0x9fc00, 0x400, 2⟩, ⟨0x100000, 0x7f00000, 1⟩]

theorem bios_frame_is_freed :
    EntriesApart biosMap ∧ ¬ OnlyUsableFree (pmmInit smallLayout biosMap) biosMap := by
  refine ⟨by decide, fun h => ?_⟩
  have hclear : bitmapTest (pmmInit smallLayout biosMap) 0x9f = false := by
    rw [bitmapTest_pmmInit_eq_false]
    refine ⟨by decide, by decide, fun hk => absurd hk.2.1 (by decide), .inl ?_⟩
    exact ⟨⟨0, 0x9fc00, 1⟩, by decide, rfl, by decide, by decide, by decide, by decide⟩
  obtain ⟨e, he, hu, hlo, hhi⟩ := h 0x9f hclear 0x9fc00 (by omega) (by omega)
  simp only [biosMap, List.mem_cons, List.not_mem_nil, or_false] at he
  rcases he with rfl | rfl | rfl
  · exact absurd hhi (by decide)
  · exact absurd hu (by decide)
  · exact absurd hlo (by decide)

end Lestra
