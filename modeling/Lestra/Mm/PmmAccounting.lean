import Lestra.Mm.PmmOwnership

/-!
# Physical memory manager — the balance of `used_pages`

Every operation after `pmm_init` changes `used_pages` by exactly the number of
bits it flips (`pmmStep_balanced`), whatever its arguments, so the drift between
counter and bitmap is the one `pmm_init` left behind. `pmm_init` itself reserves
frame 0 without counting it: when a usable region of the map had cleared that
bit, the counter stays one behind for good.
-/

namespace Lestra

open Word64

theorem pmmStep_balanced {p : Pmm} (hg : p.geo.Covers) (op : PmmOp) : Balanced p (pmmStep p op) := by
  cases op with
  | allocPage => exact Balanced.pmmAllocPages hg 1
  | allocPages count => exact Balanced.pmmAllocPages hg count
  | freePage addr => exact (pmmFreePage_spec p addr).toBalanced
  | freePages addr count => exact Balanced.pmmFreePages p addr count
  | markUsed phys => exact (pmmMarkUsed_spec p phys).1
  | reserveRegion start fin => exact (markRegion_spec p start fin).toBalanced

theorem run_pmmStep_balanced : ∀ (ops : List PmmOp) (p : Pmm), p.geo.Covers →
    Balanced p (Run.run pmmStep p ops)
  | [], p, _ => Balanced.refl p
  | op :: ops, p, hg => by
    have h := pmmStep_balanced hg op
    exact h.trans (run_pmmStep_balanced ops (pmmStep p op) (h.geo ▸ hg))

/-- The counter is the number of set bits below `highest_pfn`, no larger than
the number of pages, and `pmm_get_free` is the size of the clear frames. -/
structure Accounted (p : Pmm) : Prop where
  used : p.usedPages = usedBits p
  noUnderflow : p.usedPages ≤ p.geo.totalPages
  free : pmmGetFree p =
    4096 * Nat.count (fun f => ¬ bitmapTest p f = true) p.geo.highestPfn

/-- With the counter in range, being accounted for means having no drift. -/
theorem accounted_iff_drift {p : Pmm} (hr : p.usedPages < 2 ^ 64)
    (hg : p.geo.highestPfn < 2 ^ 52) (ht : p.geo.totalPages = p.geo.highestPfn) :
    Accounted p ↔ drift p = 0 := by
  have hle := usedBits_le p
  constructor
  · intro h
    rw [drift, h.used, sub_of_le (by omega) (Nat.le_refl _), Nat.sub_self]
  · intro h
    have hused : p.usedPages = usedBits p := by
      unfold drift sub at h
      omega
    refine ⟨hused, by omega, ?_⟩
    have hclear := Count.count_add_count_not (P := fun f => bitmapTest p f = true)
      p.geo.highestPfn
    have hbits : usedBits p = Nat.count (fun f => bitmapTest p f = true) p.geo.highestPfn := rfl
    rw [pmmGetFree, hused, ht, sub_of_le (by omega) hle, pageSize_eq, mul_of_lt (by omega)]
    omega

/-- What a run inherits from `pmm_init`. -/
theorem accounted_run_iff {L : Layout} {mmap : List MmapEntry}
    (hG : (pmmGeometry L mmap).Covers) (ops : List PmmOp) :
    Accounted (Run.run pmmStep (pmmInit L mmap) ops) ↔ drift (pmmInit L mmap) = 0 := by
  have hB := run_pmmStep_balanced ops (pmmInit L mmap) (by rw [pmmInit_geo]; exact hG)
  have hgeo : (Run.run pmmStep (pmmInit L mmap) ops).geo = pmmGeometry L mmap :=
    hB.geo.trans (pmmInit_geo L mmap)
  rw [accounted_iff_drift (hB.range (usedPages_pmmInit_lt L mmap)) (hgeo ▸ highestPfn_lt L mmap)
    (by rw [hgeo]; rfl), hB.drift]

/--
**PMM accounting.** For every memory map whose bitmap has a bit for each managed
frame and every sequence of calls with arbitrary arguments, `used_pages` and
`pmm_get_free` agree with the bitmap in the state reached if and only if no
usable entry of the map made `pmm_init` clear frame 0.
-/
theorem pmm_accounted_iff (L : Layout) (mmap : List MmapEntry)
    (hBits : (pmmGeometry L mmap).highestPfn ≤ 8 * (pmmGeometry L mmap).bitmapSize)
    (ops : List PmmOp) :
    Accounted (Run.run pmmStep (pmmInit L mmap) ops) ↔
      ¬ (FreedAtInit mmap 0 ∧ 0 < (pmmGeometry L mmap).highestPfn) := by
  have hG := pmmGeometry_covers hBits
  rw [accounted_run_iff hG]
  obtain ⟨hone, hzero⟩ := drift_pmmInit hG
  constructor
  · intro h hfreed
    rw [hone hfreed] at h
    exact absurd h (by decide)
  · exact hzero

/-- Memory that starts at 1 MiB. -/
theorem pmm_accounted_above_1MiB :
    Accounted (Run.run pmmStep (pmmInit smallLayout [⟨0x100000, 0x7F00000, 1⟩])
        [.allocPage, .allocPages 3, .freePage 0x400000]) ↔
      ¬ (FreedAtInit [⟨0x100000, 0x7F00000, 1⟩] 0 ∧
        0 < (pmmGeometry smallLayout [⟨0x100000, 0x7F00000, 1⟩]).highestPfn) :=
  pmm_accounted_iff smallLayout [⟨0x100000, 0x7F00000, 1⟩] (by decide)
    [.allocPage, .allocPages 3, .freePage 0x400000]

/-- The map `kernel_main` falls back on when the boot loader gives none. -/
def defaultMmap : List MmapEntry :=
  [⟨0x00000000, 0x0009FC00, 1⟩, ⟨0x00100000, 0x0FF00000, 1⟩, ⟨0x10000000, 0x70000000, 1⟩,
    ⟨0x100000000, 0x00000000, 2⟩]

/-- On the kernel's own default map the counter is wrong as soon as `pmm_init`
returns: low memory starts with a usable entry at address 0. -/
theorem pmm_default_map_not_accounted :
    (pmmGeometry smallLayout defaultMmap).highestPfn ≤
        8 * (pmmGeometry smallLayout defaultMmap).bitmapSize ∧
      ¬ Accounted (Run.run pmmStep (pmmInit smallLayout defaultMmap) []) := by
  have hBits : (pmmGeometry smallLayout defaultMmap).highestPfn ≤
      8 * (pmmGeometry smallLayout defaultMmap).bitmapSize := by decide
  refine ⟨hBits, fun h => ?_⟩
  have hG := pmmGeometry_covers hBits
  rw [accounted_run_iff hG, (drift_pmmInit hG).1 ⟨?_, by decide⟩] at h
  · exact absurd h (by decide)
  · exact ⟨⟨0, 0x9FC00, 1⟩, by decide, by decide, by decide, by decide, by decide, by decide⟩

end Lestra
