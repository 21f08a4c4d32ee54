import Lestra.Lib.Word64
import Mathlib.Logic.Function.Basic

/-!
# Physical memory manager

The bitmap page allocator of `kernel/mm/pmm.c`: one bit per page frame, a
reference count per frame, and the counter `used_pages`. Addresses and counters
are natural numbers that wrap explicitly where the source's 64-bit arithmetic
can; the bitmap is kept as the 64-bit words the source scans.

The kernel image, the bitmap and the refcount array are placed one after the
other (`Layout` is the part of that placement the linker script fixes), and
their ranges never change after `pmm_init`: they live in `PmmGeometry`, apart
from the three mutable fields of `Pmm`.

A read or write of a bitmap word past `bitmap_size / 8` would in the source
land in the refcount array. That aliasing is not modelled; the results about
the allocator assume that the bitmap has a bit for every frame below
`highest_pfn`.
-/

namespace Lestra

open Word64

def pageSize : Nat := 4096

@[simp] theorem pageSize_eq : pageSize = 4096 := rfl

def mmapUsable : Nat := 1

/-- `struct mmap_entry` (the `acpi` field is read by nothing). -/
structure MmapEntry where
  base : Nat
  length : Nat
  type : Nat
deriving DecidableEq, Repr

/-- What `linker.ld` fixes about the kernel image: it starts at 1 MiB and ends
on a page boundary inside the low 4 GiB that the boot code addresses with
32-bit registers. -/
structure Layout where
  kernelEnd : Nat
  aligned : kernelEnd % 4096 = 0
  start_le : 0x100000 ≤ kernelEnd
  end_le : kernelEnd ≤ 2 ^ 32

/-- `__kernel_start`. -/
def kernelImageStart : Nat := 0x100000

/-- The file-scope variables that only `pmm_init` assigns. -/
structure PmmGeometry where
  bitmapSize : Nat
  totalPages : Nat
  highestPfn : Nat
  kernelStart : Nat
  kernelEnd : Nat
  bitmapStart : Nat
  bitmapEnd : Nat
  refcountStart : Nat
  refcountEnd : Nat

structure Pmm where
  geo : PmmGeometry
  bitmap : Nat → BitVec 64
  usedPages : Nat
  physRefcount : Nat → Nat

-- ---------------------------------------------------------------------------
-- Bitmap primitives
-- ---------------------------------------------------------------------------

def pmmIsProtected (g : PmmGeometry) (phys : Nat) : Bool :=
  if g.kernelStart ≤ phys ∧ phys < g.kernelEnd then true
  else if g.bitmapStart ≤ phys ∧ phys < g.bitmapEnd then true
  else if g.refcountStart ≤ phys ∧ phys < g.refcountEnd then true
  else false

def addrToPfn (addr : Nat) : Nat := addr / pageSize

def pfnToIdx (pfn : Nat) : Nat := pfn / 64

def pfnToBit (pfn : Nat) : Nat := pfn % 64

def bitmapTest (p : Pmm) (pfn : Nat) : Bool :=
  if p.geo.highestPfn ≤ pfn then true
  else ((p.bitmap (pfnToIdx pfn) >>> pfnToBit pfn) &&& 1#64) != 0#64

def bitmapSet (p : Pmm) (pfn : Nat) : Pmm :=
  if p.geo.highestPfn ≤ pfn then p
  else
    let word := p.bitmap (pfnToIdx pfn) ||| (1#64 <<< pfnToBit pfn)
    { p with bitmap := Function.update p.bitmap (pfnToIdx pfn) word }

def bitmapClear (p : Pmm) (pfn : Nat) : Pmm :=
  if p.geo.highestPfn ≤ pfn then p
  else
    let word := p.bitmap (pfnToIdx pfn) &&& ~~~(1#64 <<< pfnToBit pfn)
    { p with bitmap := Function.update p.bitmap (pfnToIdx pfn) word }

/-- `if (!bitmap_test(pfn)) { bitmap_set(pfn); used_pages++; }` -/
def claimFrame (p : Pmm) (pfn : Nat) : Pmm :=
  if bitmapTest p pfn then p
  else { bitmapSet p pfn with usedPages := add p.usedPages 1 }

/-- `if (bitmap_test(pfn)) { bitmap_clear(pfn); used_pages--; }` -/
def releaseFrame (p : Pmm) (pfn : Nat) : Pmm :=
  if bitmapTest p pfn then { bitmapClear p pfn with usedPages := sub p.usedPages 1 }
  else p

/-- `phys_refcount[pfn] = n` -/
def setRefcount (p : Pmm) (pfn n : Nat) : Pmm :=
  { p with physRefcount := Function.update p.physRefcount pfn n }

-- ---------------------------------------------------------------------------
-- Regions
-- ---------------------------------------------------------------------------

/-- Apply `f` to `count` consecutive frames from `pfn` on, in order: the body
of the `for (pfn = start; pfn < end; pfn++)` loops. -/
def forFrames (f : Pmm → Nat → Pmm) (p : Pmm) (pfn : Nat) : Nat → Pmm
  | 0 => p
  | count + 1 => forFrames f (f p pfn) (pfn + 1) count

/-- The frame range `mark_region` and `free_region` loop over: every page with
a byte of `[start, end)`, cut off at `highest_pfn`. -/
def forRegion (f : Pmm → Nat → Pmm) (p : Pmm) (start fin : Nat) : Pmm :=
  if fin ≤ start then p
  else
    let startPfn := addrToPfn (alignDown start pageSize)
    let endPfn := addrToPfn (alignUp fin pageSize)
    forFrames f p startPfn (min endPfn p.geo.highestPfn - startPfn)

def markRegion (p : Pmm) (start fin : Nat) : Pmm := forRegion claimFrame p start fin

def freeRegion (p : Pmm) (start fin : Nat) : Pmm := forRegion releaseFrame p start fin

-- ---------------------------------------------------------------------------
-- Initialisation
-- ---------------------------------------------------------------------------

/-- The first loop of `pmm_init`: the end of the highest usable entry. -/
def highestAddr (mmap : List MmapEntry) : Nat :=
  mmap.foldl (fun highest e =>
    if e.type = mmapUsable ∧ highest < add e.base e.length then add e.base e.length
    else highest) 0

/-- The variables `pmm_init` fixes. -/
def pmmGeometry (L : Layout) (mmap : List MmapEntry) : PmmGeometry :=
  let highestPfn := highestAddr mmap / pageSize
  let bitmapSize := alignUp (highestPfn / 8) pageSize
  let refcountSize := alignUp (mul highestPfn 4) pageSize
  { bitmapSize
    totalPages := highestPfn
    highestPfn
    kernelStart := kernelImageStart
    kernelEnd := L.kernelEnd
    bitmapStart := L.kernelEnd
    bitmapEnd := add L.kernelEnd bitmapSize
    refcountStart := add L.kernelEnd bitmapSize
    refcountEnd := add (add L.kernelEnd bitmapSize) refcountSize }

/-- All bits set and every page counted as used, refcounts zeroed. -/
def pmmBlank (g : PmmGeometry) : Pmm where
  geo := g
  bitmap := fun idx => if idx < g.bitmapSize / 8 then BitVec.allOnes 64 else 0#64
  usedPages := g.totalPages
  physRefcount := fun _ => 0

/-- One round of the loop that frees the usable regions. -/
def freeUsable (p : Pmm) (e : MmapEntry) : Pmm :=
  if e.type = mmapUsable ∧ 0 < e.length then freeRegion p e.base (add e.base e.length) else p

/-- The bitmap as it stands just before frame 0 is reserved. -/
def pmmInitRegions (L : Layout) (mmap : List MmapEntry) : Pmm :=
  let g := pmmGeometry L mmap
  let p := mmap.foldl freeUsable (pmmBlank g)
  markRegion p kernelImageStart (alignUp g.refcountEnd pageSize)

/-- `pmm_init`. Frame 0 is reserved with a bare `bitmap_set`. -/
def pmmInit (L : Layout) (mmap : List MmapEntry) : Pmm :=
  bitmapSet (pmmInitRegions L mmap) 0

-- ---------------------------------------------------------------------------
-- Allocation and release
-- ---------------------------------------------------------------------------

def pmmMarkUsed (p : Pmm) (phys : Nat) : Pmm :=
  let pfn := addrToPfn phys
  if p.geo.highestPfn ≤ pfn then p
  else setRefcount (claimFrame p pfn) pfn 1

/-- `bitmap_set(pfn); used_pages++; phys_refcount[pfn] = 1;` -/
def takeFrame (p : Pmm) (pfn : Nat) : Pmm :=
  setRefcount { bitmapSet p pfn with usedPages := add p.usedPages 1 } pfn 1

/-- The inner loop of `pmm_alloc_page` over the bits of word `idx`. The second
component is the function's return value when the loop returns, `none` when it
runs through all bits. -/
def allocScanBits (p : Pmm) (idx bit : Nat) : Nat → Pmm × Option Nat
  | 0 => (p, none)
  | left + 1 =>
    let pfn := idx * 64 + bit
    if p.geo.highestPfn ≤ pfn then (p, some 0)
    else if bitmapTest p pfn then allocScanBits p idx (bit + 1) left
    else
      let candidate := mul pfn pageSize
      -- never hand out metadata: mark it instead and go on
      if pmmIsProtected p.geo candidate then
        allocScanBits (claimFrame p pfn) idx (bit + 1) left
      else (takeFrame p pfn, some candidate)

/-- The outer loop of `pmm_alloc_page` over the bitmap words. -/
def allocScanWords (p : Pmm) (idx : Nat) : Nat → Pmm × Nat
  | 0 => (p, 0)
  | left + 1 =>
    if p.bitmap idx ≠ BitVec.allOnes 64 then
      match allocScanBits p idx 0 64 with
      | (p', some r) => (p', r)
      | (p', none) => allocScanWords p' (idx + 1) left
    else allocScanWords p (idx + 1) left

def pmmAllocPage (p : Pmm) : Pmm × Nat := allocScanWords p 0 (p.geo.bitmapSize / 8)

/-- The loop that claims a found run: `count` frames from `start` on. -/
def takeRun (p : Pmm) (start count : Nat) : Pmm :=
  let q := forFrames (fun p pfn => setRefcount (bitmapSet p pfn) pfn 1) p start count
  { q with usedPages := add q.usedPages count }

/-- The run search of `pmm_alloc_pages`, `left` frames before `highest_pfn`. -/
def allocScanRun (p : Pmm) (count pfn found startPfn : Nat) : Nat → Pmm × Nat
  | 0 => (p, 0)
  | left + 1 =>
    if bitmapTest p pfn then allocScanRun p count (pfn + 1) 0 startPfn left
    else
      let candidate := mul pfn pageSize
      if pmmIsProtected p.geo candidate then
        allocScanRun (claimFrame p pfn) count (pfn + 1) 0 startPfn left
      else
        let startPfn := if found = 0 then pfn else startPfn
        if count ≤ found + 1 then (takeRun p startPfn count, mul startPfn pageSize)
        else allocScanRun p count (pfn + 1) (found + 1) startPfn left

def pmmAllocPages (p : Pmm) (count : Nat) : Pmm × Nat :=
  if count = 0 then (p, 0)
  else if count = 1 then pmmAllocPage p
  else if p.geo.highestPfn < count then (p, 0)
  else allocScanRun p count 1 0 0 (p.geo.highestPfn - 1)

def pmmFreePage (p : Pmm) (addr : Nat) : Pmm :=
  if addr = 0 then p
  else
    let pfn := addrToPfn addr
    if pfn < p.geo.highestPfn ∧ bitmapTest p pfn then
      setRefcount { bitmapClear p pfn with usedPages := sub p.usedPages 1 } pfn 0
    else p

/-- The loop of `pmm_free_pages` from index `i` on. -/
def freePagesFrom (p : Pmm) (addr i : Nat) : Nat → Pmm
  | 0 => p
  | left + 1 => freePagesFrom (pmmFreePage p (add addr (mul i pageSize))) addr (i + 1) left

def pmmFreePages (p : Pmm) (addr count : Nat) : Pmm :=
  if addr = 0 ∨ count = 0 then p else freePagesFrom p addr 0 count

def pmmReserveRegion (p : Pmm) (start fin : Nat) : Pmm := markRegion p start fin

-- ---------------------------------------------------------------------------
-- Statistics and reference counts
-- ---------------------------------------------------------------------------

def pmmGetTotal (p : Pmm) : Nat := mul p.geo.totalPages pageSize

def pmmGetUsed (p : Pmm) : Nat := mul p.usedPages pageSize

def pmmGetFree (p : Pmm) : Nat := mul (sub p.geo.totalPages p.usedPages) pageSize

def pmmRefcountInc (p : Pmm) (addr : Nat) : Pmm :=
  let pfn := addrToPfn addr
  if addr ≠ 0 ∧ pfn < p.geo.highestPfn then setRefcount p pfn ((p.physRefcount pfn + 1) % 2 ^ 32)
  else p

/-- `pmm_refcount_dec`: the new state and the returned count. -/
def pmmRefcountDec (p : Pmm) (addr : Nat) : Pmm × Nat :=
  let pfn := addrToPfn addr
  if addr ≠ 0 ∧ pfn < p.geo.highestPfn ∧ 0 < p.physRefcount pfn then
    (setRefcount p pfn (p.physRefcount pfn - 1), p.physRefcount pfn - 1)
  else (p, 0)

def pmmRefcountGet (p : Pmm) (addr : Nat) : Nat :=
  let pfn := addrToPfn addr
  if addr ≠ 0 ∧ pfn < p.geo.highestPfn then p.physRefcount pfn else 0

end Lestra
