import Mathlib.Algebra.Group.Int.Defs
import Mathlib.Data.Int.Notation
import Lestra.Lib.ByteMem
import Lestra.Lib.Word64

/-!
# The C library's heap

`sbrk`, `malloc`, `calloc`, `free` and `realloc` of `libc/src/stdlib.c`. The headers lie in
the same memory as the data behind them. A pointer is the number of its address, and `none`
stands for a walk along the list that never ends: it is modelled with one step for every
64-bit address.
-/

namespace Lestra

open Word64 ByteMem

-- ---------------------------------------------------------------------------
-- Blocks
-- ---------------------------------------------------------------------------

/-- `sizeof(struct block)` -/
def blockHeader : ℕ := 24

@[simp] theorem blockHeader_eq : blockHeader = 24 := rfl

/-- `size` -/
def getSize (m : Mem) (b : ℕ) : ℕ := getLE m b 8

/-- `free`, an `int` -/
def getFree (m : Mem) (b : ℕ) : ℕ := getLE m (b + 8) 4

/-- `next` -/
def getNext (m : Mem) (b : ℕ) : ℕ := getLE m (b + 16) 8

def setSize (m : Mem) (b v : ℕ) : Mem := putLE m b 8 v

def setFree (m : Mem) (b v : ℕ) : Mem := putLE m (b + 8) 4 v

def setNext (m : Mem) (b v : ℕ) : Mem := putLE m (b + 16) 8 v

-- ---------------------------------------------------------------------------
-- The break
-- ---------------------------------------------------------------------------

/-- `ENOMEM` -/
def libcEnomem : ℕ := 12

/-- The static variables of the file, the memory, and on the kernel's side the break and the
arguments of the `SYS_BRK` calls so far. `fallbackHeap` is the address of the static array. -/
structure LibcHeap where
  freeList : ℕ
  heapBrk : ℕ
  fallbackHeap : ℕ
  errno : ℕ
  mem : Mem
  brk : ℕ
  asked : List ℕ

/-- `syscall(SYS_BRK, addr)`: the kernel answers by `sys`, and an answer equal to the address
asked for means that it has moved the break there. -/
def syscallBrk (h : LibcHeap) (sys : ℕ → ℤ) (addr : ℕ) : LibcHeap × ℤ :=
  ({ h with
      brk := if addr ≠ 0 ∧ sys addr = addr then addr else h.brk
      asked := h.asked ++ [addr] }, sys addr)

/-- The static array's end. -/
def fallbackEnd (h : LibcHeap) : ℕ := h.fallbackHeap + 2 ^ 20

/-- The branch of `sbrk` when the kernel gives no break; `none` is `(void*)-1`. -/
def sbrkFallback (h : LibcHeap) (increment : ℤ) : LibcHeap × Option ℕ :=
  let h := { h with heapBrk := h.fallbackHeap }
  if increment = 0 then (h, some h.heapBrk)
  else if fallbackEnd h < h.heapBrk + increment then ({ h with errno := libcEnomem }, none)
  else ({ h with heapBrk := (h.heapBrk + increment).toNat }, some h.heapBrk)

/-- `sbrk` once the break is cached. -/
def sbrkCached (h : LibcHeap) (sys : ℕ → ℤ) (increment : ℤ) : LibcHeap × Option ℕ :=
  if increment = 0 then (h, some h.heapBrk)
  else
    let oldBrk := h.heapBrk
    let requested := ((oldBrk + increment) % 2 ^ 64).toNat
    let (h, newBrk) := syscallBrk h sys requested
    if newBrk ≤ 0 ∨ newBrk < requested then ({ h with errno := libcEnomem }, none)
    else ({ h with heapBrk := newBrk.toNat }, some oldBrk)

def sbrk (h : LibcHeap) (sys : ℕ → ℤ) (increment : ℤ) : LibcHeap × Option ℕ :=
  if h.heapBrk = 0 then
    let (h, cur) := syscallBrk h sys 0
    if cur ≤ 0 then sbrkFallback h increment
    else sbrkCached { h with heapBrk := cur.toNat } sys increment
  else sbrkCached h sys increment

-- ---------------------------------------------------------------------------
-- Allocation
-- ---------------------------------------------------------------------------

/-- `sizeof(struct block) + ALIGN_UP(size, 16)` -/
def blockTotal (size : ℕ) : ℕ := add blockHeader (alignUp size 16)

/-- The first-fit search: the block before, and the block or null. -/
def findFit (m : Mem) (total : ℕ) : ℕ → ℕ → ℕ → Option (ℕ × ℕ)
  | 0, _, _ => none
  | fuel + 1, prev, curr =>
    if curr = 0 then some (prev, 0)
    else if getFree m curr ≠ 0 ∧ total ≤ getSize m curr then some (prev, curr)
    else findFit m total fuel curr (getNext m curr)

/-- The block is cut after `total` bytes. -/
def cutBlock (m : Mem) (curr total : ℕ) : Mem :=
  let split := curr + total
  let m := setSize m split (sub (getSize m curr) total)
  let m := setFree m split 1
  let m := setNext m split (getNext m curr)
  let m := setSize m curr total
  setNext m curr split

/-- The memory after the free block is handed out, split if there is room for another header
and 16 bytes. -/
def takeBlock (m : Mem) (curr total : ℕ) : Mem :=
  let m := if add (add total blockHeader) 16 ≤ getSize m curr then cutBlock m curr total else m
  setFree m curr 0

/-- A `size_t` as a `ptrdiff_t`. -/
def toPtrdiff (v : ℕ) : ℤ := Int.bmod v (2 ^ 64)

/-- No fit: a new block from `sbrk` behind the last one. -/
def growHeap (h : LibcHeap) (sys : ℕ → ℤ) (prev total : ℕ) : LibcHeap × ℕ :=
  match sbrk h sys (toPtrdiff total) with
  | (h, none) => ({ h with errno := libcEnomem }, 0)
  | (h, some newBlock) =>
    let m := setSize h.mem newBlock total
    let m := setFree m newBlock 0
    let m := setNext m newBlock 0
    if prev ≠ 0 then ({ h with mem := setNext m prev newBlock }, newBlock + blockHeader)
    else ({ h with mem := m, freeList := newBlock }, newBlock + blockHeader)

def malloc (h : LibcHeap) (sys : ℕ → ℤ) (size : ℕ) : Option (LibcHeap × ℕ) :=
  if size = 0 then some (h, 0)
  else
    let total := blockTotal size
    match findFit h.mem total (2 ^ 64) 0 h.freeList with
    | none => none
    | some (prev, curr) =>
      if curr ≠ 0 then some ({ h with mem := takeBlock h.mem curr total }, curr + blockHeader)
      else some (growHeap h sys prev total)

/-- `SIZE_MAX` -/
def sizeMax : ℕ := 2 ^ 64 - 1

def calloc (h : LibcHeap) (sys : ℕ → ℤ) (nmemb size : ℕ) : Option (LibcHeap × ℕ) :=
  if nmemb ≠ 0 ∧ sizeMax / nmemb < size then some ({ h with errno := libcEnomem }, 0)
  else
    let total := mul nmemb size
    match malloc h sys total with
    | none => none
    | some (h, ptr) =>
      if ptr ≠ 0 then some ({ h with mem := store h.mem ptr (List.replicate total 0) }, ptr)
      else some (h, ptr)

-- ---------------------------------------------------------------------------
-- Giving back
-- ---------------------------------------------------------------------------

/-- `b->size += c->size; b->next = c->next;` -/
def absorb (m : Mem) (b c : ℕ) : Mem :=
  let m := setSize m b (add (getSize m b) (getSize m c))
  setNext m b (getNext m c)

/-- `c` is a free block right behind `b`. -/
def freeBehind (m : Mem) (b c : ℕ) : Prop := getFree m c ≠ 0 ∧ c = b + getSize m b

instance (m : Mem) (b c : ℕ) : Decidable (freeBehind m b c) := inferInstanceAs (Decidable (_ ∧ _))

/-- The walk for the predecessor of `block`; 0 if it is the first. -/
def findPred (m : Mem) (block : ℕ) : ℕ → ℕ → ℕ → Option ℕ
  | 0, _, _ => none
  | fuel + 1, pred, c =>
    if c ≠ 0 ∧ c ≠ block then findPred m block fuel c (getNext m c) else some pred

/-- The block is marked, and merged with the free block behind it. -/
def freeForward (m : Mem) (block : ℕ) : Mem :=
  let m := setFree m block 1
  let succ := getNext m block
  if succ ≠ 0 ∧ freeBehind m block succ then absorb m block succ else m

def free (h : LibcHeap) (ptr : ℕ) : Option LibcHeap :=
  if ptr = 0 then some h
  else
    let block := ptr - blockHeader
    let m := freeForward h.mem block
    match findPred m block (2 ^ 64) 0 h.freeList with
    | none => none
    | some pred =>
      if pred ≠ 0 ∧ getFree m pred ≠ 0 ∧ block = pred + getSize m pred then
        some { h with mem := absorb m pred block }
      else some { h with mem := m }

def realloc (h : LibcHeap) (sys : ℕ → ℤ) (ptr size : ℕ) : Option (LibcHeap × ℕ) :=
  if ptr = 0 then malloc h sys size
  else if size = 0 then (free h ptr).map fun h => (h, 0)
  else
    let block := ptr - blockHeader
    let needed := blockTotal size
    if needed ≤ getSize h.mem block then some (h, ptr)
    else
      let succ := getNext h.mem block
      if succ ≠ 0 ∧ freeBehind h.mem block succ ∧
          needed ≤ add (getSize h.mem block) (getSize h.mem succ) then
        some ({ h with mem := absorb h.mem block succ }, ptr)
      else
        match malloc h sys size with
        | none => none
        | some (h, newPtr) =>
          if newPtr = 0 then some (h, 0)
          else
            let n := min (sub (getSize h.mem block) blockHeader) size
            let h := { h with mem := copy h.mem newPtr ptr n }
            (free h ptr).map fun h => (h, newPtr)

end Lestra
