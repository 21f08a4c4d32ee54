import Lestra.Mm.Pmm

/-!
# Kernel heap

The linked-list allocator of `kernel/mm/heap.c`. Memory is kept in two parts:
`hdr` holds the `struct heap_block` at each block address and `mem` the bytes
that `memset` and `memcpy` touch, which are payload bytes only.

The free-list walk of `kmalloc` has no bound in the source. It is modelled with
one step for every 64-bit address; a walk that is still going then has come
back to a block it has seen, and `none` stands for the call that never returns.
-/

namespace Lestra

open Word64

/-- `struct heap_block`. -/
structure HeapBlock where
  size : Nat
  next : Nat
  free : Bool
deriving DecidableEq, Repr, Inhabited

/-- `sizeof(struct heap_block)`. -/
def heapBlockSize : Nat := 24

@[simp] theorem heapBlockSize_eq : heapBlockSize = 24 := rfl

/-- The file-scope variables of the allocator and the memory behind them. -/
structure Heap where
  freeList : Nat
  heapNext : Nat
  kernelHeapStart : Nat
  kernelHeapEnd : Nat
  hdr : Nat → HeapBlock
  mem : Nat → BitVec 8

def kernelHeapSize : Nat := 0x20000000

def kaslrHeapMin : Nat := 64 * 2 ^ 20

def kaslrHeapRange : Nat := 192 * 2 ^ 20

/-- The xorshift mix of the time-stamp counter. -/
def mixTsc (tsc : BitVec 64) : BitVec 64 :=
  let tsc := tsc ^^^ (tsc >>> 33)
  let tsc := tsc * 0xff51afd7ed558ccd#64
  tsc ^^^ (tsc >>> 33)

def heapSlide (tsc : BitVec 64) : Nat :=
  ((mixTsc tsc &&& BitVec.ofNat 64 (kaslrHeapRange - 1)) &&& ~~~(0x1fffff#64)).toNat

def heapInit (h : Heap) (p : Pmm) (tsc : BitVec 64) : Heap × Pmm :=
  let start := kaslrHeapMin + heapSlide tsc
  let fin := start + kernelHeapSize
  ({ h with freeList := 0, heapNext := start, kernelHeapStart := start, kernelHeapEnd := fin },
    pmmReserveRegion p start fin)

-- ---------------------------------------------------------------------------
-- Allocation
-- ---------------------------------------------------------------------------

def setHdr (h : Heap) (a : Nat) (b : HeapBlock) : Heap :=
  { h with hdr := Function.update h.hdr a b }

@[simp] theorem setHdr_self (h : Heap) (a : Nat) (b : HeapBlock) : (setHdr h a b).hdr a = b := by
  simp [setHdr]

theorem setHdr_of_ne {h : Heap} {a c : Nat} {b : HeapBlock} (hc : c ≠ a) :
    (setHdr h a b).hdr c = h.hdr c := by
  simp [setHdr, hc]

@[simp] theorem setHdr_freeList (h : Heap) (a : Nat) (b : HeapBlock) :
    (setHdr h a b).freeList = h.freeList := rfl

@[simp] theorem setHdr_heapNext (h : Heap) (a : Nat) (b : HeapBlock) :
    (setHdr h a b).heapNext = h.heapNext := rfl

@[simp] theorem setHdr_start (h : Heap) (a : Nat) (b : HeapBlock) :
    (setHdr h a b).kernelHeapStart = h.kernelHeapStart := rfl

@[simp] theorem setHdr_end (h : Heap) (a : Nat) (b : HeapBlock) :
    (setHdr h a b).kernelHeapEnd = h.kernelHeapEnd := rfl

/-- `sizeof(struct heap_block) + ALIGN_UP(size, 16)` -/
def kmallocTotal (size : Nat) : Nat := add heapBlockSize (alignUp size 16)

/-- The walk for the first free block of at least `total` bytes. The result is
`none` when the walk does not end, `some none` when it ends without a fit, and
otherwise the block with its predecessor on the list. -/
def findFree (h : Heap) (total : Nat) : Nat → Nat → Nat → Option (Option (Nat × Nat))
  | 0, _, _ => none
  | fuel + 1, prev, curr =>
    if curr = 0 then some none
    else if (h.hdr curr).free = true ∧ total ≤ (h.hdr curr).size then some (some (prev, curr))
    else findFree h total fuel curr (h.hdr curr).next

/-- `if (prev) prev->next = curr->next; else free_list = curr->next;` -/
def unlinkFree (h : Heap) (prev curr : Nat) : Heap :=
  if prev ≠ 0 then setHdr h prev { h.hdr prev with next := (h.hdr curr).next }
  else { h with freeList := (h.hdr curr).next }

/-- Cut the block at `curr` after `total` bytes and put the rest on the free
list, if the rest can hold a header and 16 bytes. -/
def splitBlock (h : Heap) (curr total : Nat) : Heap :=
  if add (add total heapBlockSize) 16 ≤ (h.hdr curr).size then
    let new := add curr total
    let h := setHdr h new
      { size := sub (h.hdr curr).size total, next := h.freeList, free := true }
    let h := { h with freeList := new }
    setHdr h curr { h.hdr curr with size := total }
  else h

/-- Hand out the free block at `curr`. -/
def takeFree (h : Heap) (prev curr total : Nat) : Heap :=
  let h := unlinkFree h prev curr
  let h := setHdr h curr { h.hdr curr with next := 0, free := false }
  splitBlock h curr total

/-- Bump allocation from the untouched end of the heap. -/
def bumpAlloc (h : Heap) (total : Nat) : Heap × Nat :=
  if h.kernelHeapEnd < add h.heapNext total then (h, 0)
  else
    let block := h.heapNext
    let h := setHdr h block { size := total, next := 0, free := false }
    ({ h with heapNext := add h.heapNext total }, add block heapBlockSize)

def kmalloc (h : Heap) (size : Nat) : Option (Heap × Nat) :=
  if size = 0 then some (h, 0)
  else
    let total := kmallocTotal size
    match findFree h total (2 ^ 64) 0 h.freeList with
    | none => none
    | some (some (prev, curr)) => some (takeFree h prev curr total, add curr heapBlockSize)
    | some none => some (bumpAlloc h total)

/-- `memset(ptr, 0, n)` -/
def memZero (h : Heap) (ptr n : Nat) : Heap :=
  { h with mem := fun a => if ptr ≤ a ∧ a < ptr + n then 0 else h.mem a }

/-- `memcpy(dst, src, n)` -/
def memCopy (h : Heap) (dst src n : Nat) : Heap :=
  { h with mem := fun a => if dst ≤ a ∧ a < dst + n then h.mem (a - dst + src) else h.mem a }

def kcalloc (h : Heap) (count size : Nat) : Option (Heap × Nat) :=
  if count ≠ 0 ∧ (2 ^ 64 - 1) / count < size then some (h, 0)
  else
    let total := mul count size
    match kmalloc h total with
    | none => none
    | some (h, ptr) => some (if ptr ≠ 0 then memZero h ptr total else h, ptr)

-- ---------------------------------------------------------------------------
-- Release and reallocation
-- ---------------------------------------------------------------------------

/-- The block whose payload starts at `ptr`. -/
def blockOf (ptr : Nat) : Nat := sub ptr heapBlockSize

/-- Merge a block with the one its `next` field names, when that one is free
and starts where this one ends. -/
def coalesce (h : Heap) (block : Nat) : Heap :=
  let next := (h.hdr block).next
  if next ≠ 0 ∧ (h.hdr next).free = true ∧ add block (h.hdr block).size = next then
    setHdr h block
      { h.hdr block with
        size := add (h.hdr block).size (h.hdr next).size
        next := (h.hdr next).next }
  else h

def kfree (h : Heap) (ptr : Nat) : Heap :=
  if ptr = 0 then h
  else
    let block := blockOf ptr
    if (h.hdr block).free = true then h
    else
      let h := setHdr h block { h.hdr block with free := true }
      let h := coalesce h block
      let h := setHdr h block { h.hdr block with next := h.freeList }
      { h with freeList := block }

def krealloc (h : Heap) (ptr size : Nat) : Option (Heap × Nat) :=
  if ptr = 0 then kmalloc h size
  else if size = 0 then some (kfree h ptr, 0)
  else
    let block := blockOf ptr
    if add heapBlockSize size ≤ (h.hdr block).size then some (h, ptr)
    else
      match kmalloc h size with
      | none => none
      | some (h, newPtr) =>
        if newPtr ≠ 0 then
          let h := memCopy h newPtr ptr (sub (h.hdr block).size heapBlockSize)
          some (kfree h ptr, newPtr)
        else some (h, newPtr)

def ksize (h : Heap) (ptr : Nat) : Nat :=
  if ptr = 0 then 0 else sub (h.hdr (blockOf ptr)).size heapBlockSize

end Lestra
