import Lestra.Mm.PmmInit

/-!
# Physical memory manager — the size of the bitmap

`pmm_init` reserves `ALIGN_UP(highest_pfn / 8, 4096)` bytes. The division drops up to seven
frames, and the rounding makes up for that unless the quotient was a number of whole pages:

* `bitmapFits_iff` — the words of all frames lie in the reserved bytes exactly when the
  highest frame is a multiple of 32768 or at least 8 beyond one.
-/

namespace Lestra

open Word64

-- ---------------------------------------------------------------------------
-- The highest usable address
-- ---------------------------------------------------------------------------

/-- The end of the highest usable entry, 64 bits wide. -/
def usableTop (mmap : List MmapEntry) : Nat :=
  ((mmap.filter fun e => e.type = mmapUsable).map fun e => (e.base + e.length) % 2 ^ 64).foldr max 0

theorem highestAddr_eq (mmap : List MmapEntry) : highestAddr mmap = usableTop mmap := by
  have hfold : ∀ (l : List MmapEntry) (acc : Nat),
      l.foldl (fun highest e => if e.type = mmapUsable ∧ highest < add e.base e.length
        then add e.base e.length else highest) acc = max acc (usableTop l) := fun l => by
    induction l with
    | nil => exact fun acc => (Nat.max_zero acc).symm
    | cons e l ih =>
      intro acc
      rw [List.foldl_cons, ih]
      by_cases hu : e.type = mmapUsable
      · have htop : usableTop (e :: l) = max (add e.base e.length) (usableTop l) := by
          rw [usableTop, List.filter_cons_of_pos (by simpa using hu)]
          rfl
        rw [htop]
        split <;> omega
      · have htop : usableTop (e :: l) = usableTop l := by
          rw [usableTop, List.filter_cons_of_neg (by simpa using hu)]
          rfl
        rw [htop, if_neg fun h => hu h.1]
  exact (hfold mmap 0).trans (Nat.zero_max _)

-- ---------------------------------------------------------------------------
-- Capacity
-- ---------------------------------------------------------------------------

/-- The word of every frame lies in the bytes of the bitmap, so below the refcount array and
in reach of the loop of `pmm_alloc_page`. -/
structure BitmapFits (g : PmmGeometry) : Prop where
  inside : ∀ pfn < g.highestPfn, 8 * pfnToIdx pfn + 8 ≤ g.bitmapSize
  below : ∀ pfn < g.highestPfn, g.bitmapStart + 8 * pfnToIdx pfn + 8 ≤ g.refcountStart
  visited : ∀ pfn < g.highestPfn, pfnToIdx pfn < g.bitmapSize / 8

/-- A frame is left over when the division drops it and the rounding adds nothing. -/
theorem covered_iff (n : Nat) :
    n ≤ 32768 * ((n / 8 + 4095) / 4096) ↔ n % 32768 = 0 ∨ 8 ≤ n % 32768 := by
  omega

theorem bitmapSize_eq (L : Layout) (mmap : List MmapEntry) :
    (pmmGeometry L mmap).bitmapSize = ((pmmGeometry L mmap).highestPfn / 8 + 4095) / 4096 * 4096 := by
  have hlt := highestPfn_lt L mmap
  show alignUp ((pmmGeometry L mmap).highestPfn / 8) pageSize = _
  rw [alignUp_of_lt (by rw [pageSize_eq]; omega), pageSize_eq]

theorem refcountStart_eq (L : Layout) (mmap : List MmapEntry) :
    (pmmGeometry L mmap).refcountStart =
      (pmmGeometry L mmap).bitmapStart + (pmmGeometry L mmap).bitmapSize := by
  have hlt := highestPfn_lt L mmap
  have hend := L.end_le
  refine add_of_lt ?_
  have hsize := bitmapSize_eq L mmap
  have hB : alignUp ((pmmGeometry L mmap).highestPfn / 8) pageSize = (pmmGeometry L mmap).bitmapSize := rfl
  show L.kernelEnd + alignUp ((pmmGeometry L mmap).highestPfn / 8) pageSize < 2 ^ 64
  omega

/--
**The capacity of the bitmap.** Every frame below `highest_pfn` has its word in the reserved
bytes exactly when the number of frames is not one to seven more than a multiple of 32768.
-/
theorem bitmapFits_iff (L : Layout) (mmap : List MmapEntry) :
    BitmapFits (pmmGeometry L mmap) ↔
      usableTop mmap / 4096 % 32768 = 0 ∨ 8 ≤ usableTop mmap / 4096 % 32768 := by
  have hpfn : (pmmGeometry L mmap).highestPfn = usableTop mmap / 4096 := by
    rw [← highestAddr_eq]
    rfl
  have hsize := bitmapSize_eq L mmap
  have href := refcountStart_eq L mmap
  rw [← hpfn, ← covered_iff]
  constructor
  · intro h
    rcases Nat.eq_zero_or_pos (pmmGeometry L mmap).highestPfn with h0 | hpos
    · omega
    · have hlast := h.inside ((pmmGeometry L mmap).highestPfn - 1) (by omega)
      rw [pfnToIdx] at hlast
      omega
  · intro h
    have hword : ∀ pfn < (pmmGeometry L mmap).highestPfn,
        8 * pfnToIdx pfn + 8 ≤ (pmmGeometry L mmap).bitmapSize := fun pfn hlt => by
      rw [pfnToIdx]
      omega
    exact ⟨hword, fun pfn hlt => by have := hword pfn hlt; omega,
      fun pfn hlt => by have := hword pfn hlt; omega⟩

/-- 32769 frames: the last one has its word behind the only page of the bitmap. -/
theorem bitmap_misses_frame :
    ¬ BitmapFits (pmmGeometry ⟨0x200000, by decide, by decide, by decide⟩ [⟨0, 0x8001000, 1⟩]) := by
  intro h
  exact absurd (h.inside 32768 (by decide)) (by decide)

end Lestra
