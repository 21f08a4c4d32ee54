import Lestra.Mm.Vmm
import Lestra.Sched.Process

/-!
# Memory system calls

`sys_brk` and `sys_munmap` of `kernel/syscall/syscall.c`, and the branch of the
page-fault handler that serves the heap. Addresses are 64-bit words and wrap as
they do in the source. `cur` is `task_current()`.
-/

namespace Lestra

open Word64

def errFault : Int := -14

def errInval : Int := -22

/-- `PAGE_MASK`, and `~((uintptr_t)PAGE_SIZE - 1)`. -/
def pageMask : BitVec 64 := ~~~0xFFF#64

/-- Round down to a page boundary. -/
def pageFloor (a : BitVec 64) : BitVec 64 := a &&& pageMask

/-- `(a + PAGE_SIZE - 1) & PAGE_MASK` -/
def pageCeil (a : BitVec 64) : BitVec 64 := (a + 0xFFF#64) &&& pageMask

/-- `start`, `start + PAGE_SIZE`, and so on: `n` pages. -/
def pagesFrom (start : BitVec 64) (n : Nat) : List (BitVec 64) :=
  (List.range n).map fun i => start + BitVec.ofNat 64 (i * pageSize)

/-- The pages that `for (va = lo; va < hi; va += PAGE_SIZE)` visits, for bounds
that are a whole number of pages apart. -/
def pagesBetween (lo hi : BitVec 64) : List (BitVec 64) :=
  if lo < hi then pagesFrom lo ((hi - lo).toNat / pageSize) else []

/-- The body of the loops that give pages back:
`if (phys) { pmm_free_page(phys); vmm_unmap_page(pml4, va); }`. -/
def releasePage (pml4 : Nat) (m : Machine) (va : BitVec 64) : Machine :=
  let phys := vmmGetPhys m pml4 va
  if phys = 0#64 then m
  else vmmUnmapPage { m with pmm := pmmFreePage m.pmm phys.toNat } pml4 va

def releasePages (pml4 : Nat) (m : Machine) (vas : List (BitVec 64)) : Machine :=
  vas.foldl (releasePage pml4) m

-- ---------------------------------------------------------------------------
-- munmap
-- ---------------------------------------------------------------------------

/-- The pages of `[addr, addr + length)`, rounded outwards. -/
def munmapPages (addr length : BitVec 64) : List (BitVec 64) :=
  let start := pageFloor addr
  let stop := pageCeil (addr + length)
  pagesFrom start ((stop - start).toNat / pageSize)

def sysMunmap (m : Machine) (cur : Option Process) (addr length : BitVec 64) : Machine × Int :=
  if addr = 0#64 then (m, errInval)
  else if length = 0#64 then (m, errInval)
  else
    match cur with
    | none => (m, errFault)
    | some p =>
      if p.pml4 = 0 then (m, errFault)
      else (releasePages p.pml4 m (munmapPages addr length), 0)

-- ---------------------------------------------------------------------------
-- brk
-- ---------------------------------------------------------------------------

def brkHeapBase : BitVec 64 := 0x40000000#64

def brkMaxGrow : BitVec 64 := 0x1000000#64

/-- `PAGE_PRESENT | PAGE_USER | PAGE_WRITABLE | PAGE_NX` -/
def heapPageFlags : BitVec 64 := pagePresent ||| pageUser ||| pageWritable ||| pageNx

/-- The first call places the heap at a random page of a 1 MB window; `rnd` is
`csprng_u64()`. -/
def brkInit (rnd : BitVec 64) (p : Process) : Process :=
  if p.brkBase = 0#64 then
    let slide := (rnd &&& 0xFF#64) <<< 12
    { p with brkBase := brkHeapBase + slide, brk := brkHeapBase + slide }
  else p

/-- `new_brk_aligned` after the cap on growth and the lower bound. -/
def brkTarget (p : Process) (newBrk : BitVec 64) : BitVec 64 :=
  let oldAligned := pageFloor p.brk
  let newAligned := pageCeil newBrk
  let newAligned := if newAligned > oldAligned + brkMaxGrow then oldAligned + brkMaxGrow
    else newAligned
  if newAligned < p.brkBase then p.brkBase else newAligned

/-- The growing loop. It stops at the first page it has no frame for and
returns that page. -/
def growPages (pml4 : Nat) : Machine → List (BitVec 64) → Machine × Option (BitVec 64)
  | m, [] => (m, none)
  | m, va :: vas =>
    if vmmGetPhys m pml4 va ≠ 0#64 then growPages pml4 m vas
    else
      let (m, phys) := m.allocPage
      if phys = 0 then (m, some va)
      else
        let m := m.zeroPage phys
        growPages pml4 (vmmMapPage m pml4 va (BitVec.ofNat 64 phys) heapPageFlags) vas

/-- `sys_brk`. The result is `cur->brk` as a signed number, or an error. -/
def sysBrk (rnd : BitVec 64) (m : Machine) (cur : Option Process) (addr : BitVec 64) :
    Machine × Option Process × Int :=
  match cur with
  | none => (m, none, errFault)
  | some p =>
    if p.pml4 = 0 then (m, some p, errFault)
    else
      let p := brkInit rnd p
      if addr = 0#64 then (m, some p, p.brk.toInt)
      else
        let newAligned := brkTarget p addr
        let oldAligned := pageFloor p.brk
        if newAligned > oldAligned then
          match growPages p.pml4 m (pagesBetween oldAligned newAligned) with
          | (m, some va) => (m, some { p with brk := va }, va.toInt)
          | (m, none) => (m, some { p with brk := addr }, addr.toInt)
        else if newAligned < oldAligned then
          (releasePages p.pml4 m (pagesBetween newAligned oldAligned),
            some { p with brk := addr }, addr.toInt)
        else (m, some { p with brk := addr }, addr.toInt)

-- ---------------------------------------------------------------------------
-- Page faults on the heap
-- ---------------------------------------------------------------------------

/-- `get_pte_in_pml4` of `kernel/mm/page_fault.c`: the leaf table and index, if
no table is missing and no huge page is in the way. -/
def getPteInPml4 (m : Machine) (pml4 : Nat) (virt : BitVec 64) : Option (Nat × Fin 512) :=
  if !isPresent (m.mem pml4 (pml4Idx virt)) then none
  else
    let pdpt := frameOf (m.mem pml4 (pml4Idx virt))
    if !isPresent (m.mem pdpt (pdptIdx virt)) then none
    else if isHuge (m.mem pdpt (pdptIdx virt)) then none
    else
      let pd := frameOf (m.mem pdpt (pdptIdx virt))
      if !isPresent (m.mem pd (pdIdx virt)) then none
      else if isHuge (m.mem pd (pdIdx virt)) then none
      else some (frameOf (m.mem pd (pdIdx virt)), ptIdx virt)

/-- The condition under which a user fault at `addr` is served by the heap
branch: `addr` is in `[brk_base, brk)` and its leaf entry is not present. -/
def heapFaultServed (m : Machine) (p : Process) (addr : BitVec 64) : Bool :=
  p.brkBase != 0#64 && p.brkBase ≤ addr && addr < p.brk &&
    match getPteInPml4 m p.pml4 addr with
    | none => true
    | some (pt, i) => !isPresent (m.mem pt i)

/-- The heap branch: `none` where the fault falls through to `SIGSEGV`. -/
def heapFault (m : Machine) (p : Process) (addr : BitVec 64) : Option Machine :=
  if heapFaultServed m p addr then
    let (m, phys) := m.allocPage
    if phys = 0 then none
    else
      let m := m.zeroPage phys
      some (vmmMapPage m p.pml4 (pageFloor addr) (BitVec.ofNat 64 phys) heapPageFlags)
  else none

end Lestra
