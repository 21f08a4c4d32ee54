import Mathlib.Algebra.GroupWithZero.Nat
import Lestra.Lib.Radix
import Lestra.Mm.Pmm
import Mathlib.Data.List.FinRange

/-!
# Virtual memory manager

The four-level page tables of `kernel/mm/vmm.c`. The kernel runs identity
mapped, so page tables are read and written at their physical addresses:
`Machine.mem f` is the content of page frame `f` as 512 entries of 64 bits, and
a table is named by its frame. `invlpg`, `stac` and `clac` have no effect on
this state.
-/

namespace Lestra

open Word64

-- ---------------------------------------------------------------------------
-- Entries and indices
-- ---------------------------------------------------------------------------

def pagePresent : BitVec 64 := 0x001#64

def pageWritable : BitVec 64 := 0x002#64

def pageUser : BitVec 64 := 0x004#64

def pageHuge : BitVec 64 := 0x080#64

def pageNx : BitVec 64 := 0x8000000000000000#64

def ptePhysMask : BitVec 64 := 0x000FFFFFFFFFF000#64

def isPresent (e : BitVec 64) : Bool := e &&& pagePresent != 0#64

def isWritable (e : BitVec 64) : Bool := e &&& pageWritable != 0#64

def isUser (e : BitVec 64) : Bool := e &&& pageUser != 0#64

def isHuge (e : BitVec 64) : Bool := e &&& pageHuge != 0#64

/-- The physical address in an entry. -/
def physOf (e : BitVec 64) : Nat := (e &&& ptePhysMask).toNat

/-- The frame an entry points to. -/
def frameOf (e : BitVec 64) : Nat := physOf e / pageSize

instance neZero_tableSize : NeZero 512 := ⟨by decide⟩

/-- `(virt >> shift) & 0x1FF` -/
def tableIdx (virt : BitVec 64) (shift : Nat) : Fin 512 :=
  Fin.ofNat 512 ((virt >>> shift) &&& 0x1FF#64).toNat

def pml4Idx (virt : BitVec 64) : Fin 512 := tableIdx virt 39

def pdptIdx (virt : BitVec 64) : Fin 512 := tableIdx virt 30

def pdIdx (virt : BitVec 64) : Fin 512 := tableIdx virt 21

def ptIdx (virt : BitVec 64) : Fin 512 := tableIdx virt 12

-- ---------------------------------------------------------------------------
-- Physical memory
-- ---------------------------------------------------------------------------

structure Machine where
  pmm : Pmm
  mem : Nat → Fin 512 → BitVec 64

/-- `table[i] = e` -/
def Machine.setEntry (m : Machine) (t : Nat) (i : Fin 512) (e : BitVec 64) : Machine :=
  { m with mem := Radix.write m.mem t i e }

/-- Overwrite the whole frame at `phys`. -/
def Machine.fillPage (m : Machine) (phys : Nat) (page : Fin 512 → BitVec 64) : Machine :=
  { m with mem := Function.update m.mem (phys / pageSize) page }

/-- `memset((void*)phys, 0, PAGE_SIZE)` -/
def Machine.zeroPage (m : Machine) (phys : Nat) : Machine := m.fillPage phys fun _ => 0#64

/-- `pmm_alloc_page()` -/
def Machine.allocPage (m : Machine) : Machine × Nat :=
  let (p, phys) := pmmAllocPage m.pmm
  ({ m with pmm := p }, phys)

/-- `if (pmm_refcount_dec(phys) == 0) pmm_free_page(phys);` -/
def dropReference (p : Pmm) (phys : Nat) : Pmm :=
  let (p, count) := pmmRefcountDec p phys
  if count = 0 then pmmFreePage p phys else p

-- ---------------------------------------------------------------------------
-- Lookup
-- ---------------------------------------------------------------------------

/-- `pt_level_t`. -/
inductive PtLevel where
  | pt
  | pd
  | pdpt
deriving DecidableEq, Repr

/-- `get_pte_level`: the level, table and index of the entry that maps `virt`. -/
def getPteLevel (m : Machine) (pml4 : Nat) (virt : BitVec 64) : Option (PtLevel × Nat × Fin 512) :=
  if !isPresent (m.mem pml4 (pml4Idx virt)) then none
  else
    let pdpt := frameOf (m.mem pml4 (pml4Idx virt))
    if !isPresent (m.mem pdpt (pdptIdx virt)) then none
    else if isHuge (m.mem pdpt (pdptIdx virt)) then some (.pdpt, pdpt, pdptIdx virt)
    else
      let pd := frameOf (m.mem pdpt (pdptIdx virt))
      if !isPresent (m.mem pd (pdIdx virt)) then none
      else if isHuge (m.mem pd (pdIdx virt)) then some (.pd, pd, pdIdx virt)
      else
        let pt := frameOf (m.mem pd (pdIdx virt))
        some (.pt, pt, ptIdx virt)

def vmmUnmapPage (m : Machine) (pml4 : Nat) (virt : BitVec 64) : Machine :=
  match getPteLevel m pml4 virt with
  | none => m
  | some (_, t, i) =>
    if isPresent (m.mem t i) then
      if isHuge (m.mem t i) then m else m.setEntry t i 0#64
    else m

/-- The translation that `vmm_get_phys` reads off an entry found at `level`. -/
def entryPhys (level : PtLevel) (pte virt : BitVec 64) : BitVec 64 :=
  if isPresent pte then
    if isHuge pte then
      let entry := pte &&& 0x000FFFFFFFFFF000#64
      if level = .pdpt then (entry &&& ~~~(0x3FFFFFFF#64)) ||| (virt &&& 0x3FFFFFFF#64)
      else (entry &&& ~~~(0x1FFFFF#64)) ||| (virt &&& 0x1FFFFF#64)
    else (pte &&& ptePhysMask) ||| (virt &&& 0xFFF#64)
  else 0#64

def vmmGetPhys (m : Machine) (pml4 : Nat) (virt : BitVec 64) : BitVec 64 :=
  match getPteLevel m pml4 virt with
  | none => 0#64
  | some (level, t, i) => entryPhys level (m.mem t i) virt

-- ---------------------------------------------------------------------------
-- Mapping
-- ---------------------------------------------------------------------------

/-- Give entry `i` of table `t` a zeroed table to point to, unless it is
present. The flag is false if there is no frame for it. -/
def ensureTable (m : Machine) (t : Nat) (i : Fin 512) (flags : BitVec 64) : Machine × Bool :=
  if isPresent (m.mem t i) then (m, true)
  else
    let (m, phys) := m.allocPage
    if phys = 0 then (m, false)
    else
      let m := m.zeroPage phys
      (m.setEntry t i (BitVec.ofNat 64 phys ||| flags), true)

/-- `if (is_user) table[i] |= PAGE_USER;` -/
def orUser (m : Machine) (t : Nat) (i : Fin 512) (user : Bool) : Machine :=
  if user then m.setEntry t i (m.mem t i ||| pageUser) else m

/-- Entry `j` of the table that replaces the 2 MB page `old`: a kernel-only
4 KB page of it. -/
def hugePiece (old : BitVec 64) (j : Fin 512) : BitVec 64 :=
  let hugeBase := old &&& ptePhysMask
  let hugeFlags := old &&& ~~~ptePhysMask &&& ~~~pageHuge &&& ~~~pageUser
  (hugeBase + BitVec.ofNat 64 j.val * 0x1000#64) ||| hugeFlags

/-- Replace the 2 MB page in entry `i` of table `t` by a table of 4 KB pages. -/
def splitHugePage (m : Machine) (t : Nat) (i : Fin 512) : Machine × Bool :=
  let old := m.mem t i
  let (m, phys) := m.allocPage
  if phys = 0 then (m, false)
  else
    let m := m.fillPage phys (hugePiece old)
    (m.setEntry t i
      (BitVec.ofNat 64 phys ||| (old &&& ~~~pageHuge &&& ~~~ptePhysMask) ||| pagePresent), true)

/-- The PDPT and PML4 stages of a mapping: a table below entry `i` that the
walk may enter. -/
def openEntry (m : Machine) (t : Nat) (i : Fin 512) (flags : BitVec 64) (user : Bool) :
    Machine × Bool :=
  let (m, ok) := ensureTable m t i flags
  if ok then (orUser m t i user, true) else (m, false)

/-- The PD stage: a 2 MB page is split first. -/
def openPdEntry (m : Machine) (t : Nat) (i : Fin 512) (flags : BitVec 64) (user : Bool) :
    Machine × Bool :=
  if isHuge (m.mem t i) then
    let (m, ok) := splitHugePage m t i
    if ok then openEntry (orUser m t i user) t i flags user else (m, false)
  else openEntry m t i flags user

/-- The leaf stage of `vmm_map_page`: a user page that is replaced loses a reference. -/
def installPte (m : Machine) (pt : Nat) (i : Fin 512) (paddr flags : BitVec 64) : Machine :=
  let old := m.mem pt i
  if isPresent old = true ∧ old &&& ptePhysMask = paddr then
    m.setEntry pt i (paddr ||| flags ||| pagePresent)
  else
    let p := if isPresent old = true ∧ isUser old = true then dropReference m.pmm (physOf old)
      else m.pmm
    let m := { m with pmm := p }
    m.setEntry pt i (paddr ||| flags ||| pagePresent)

/-- The way down to the leaf table of `virt`, as `vmm_map_page` and
`user_map_page` both build it. The result is the frame of that table, or `none`
where they give up: no frame for a table, or a 1 GB page in the way. -/
def openPath (m : Machine) (pml4 : Nat) (virt tableFlags : BitVec 64) (user : Bool) :
    Machine × Option Nat :=
  let (m, ok) := openEntry m pml4 (pml4Idx virt) tableFlags user
  if !ok then (m, none)
  else
    let pdpt := frameOf (m.mem pml4 (pml4Idx virt))
    let (m, ok) := openEntry m pdpt (pdptIdx virt) tableFlags user
    if !ok then (m, none)
    else if isHuge (m.mem pdpt (pdptIdx virt)) then (m, none)
    else
      let pd := frameOf (m.mem pdpt (pdptIdx virt))
      let (m, ok) := openPdEntry m pd (pdIdx virt) tableFlags user
      if !ok then (m, none) else (m, some (frameOf (m.mem pd (pdIdx virt))))

/-- The flags `vmm_map_page` gives to new tables. -/
def vmmTableFlags (user : Bool) : BitVec 64 :=
  pagePresent ||| pageWritable ||| (if user then pageUser else 0#64)

def vmmMapPage (m : Machine) (pml4 : Nat) (virt paddr flags : BitVec 64) : Machine :=
  match openPath m pml4 virt (vmmTableFlags (isUser flags)) (isUser flags) with
  | (m, none) => m
  | (m, some pt) => installPte m pt (ptIdx virt) paddr flags

-- ---------------------------------------------------------------------------
-- Address spaces
-- ---------------------------------------------------------------------------

/-- Run `f` over the 512 indices of a table, in order. -/
def forEntries {σ : Type} (f : σ → Fin 512 → σ) (s : σ) : σ := (List.finRange 512).foldl f s

/-- The innermost loop of `free_pdpt_subtree`: drop the leaf pages of a table. -/
def freeLeaves (mem : Nat → Fin 512 → BitVec 64) (pt : Nat) (p : Pmm) : Pmm :=
  forEntries (fun p p1 =>
    if isPresent (mem pt p1) then dropReference p (physOf (mem pt p1)) else p) p

/-- The loop over a page directory: the pages and then the table of each entry. -/
def freePdEntries (mem : Nat → Fin 512 → BitVec 64) (pd : Nat) (p : Pmm) : Pmm :=
  forEntries (fun p p2 =>
    if !isPresent (mem pd p2) then p
    else if isHuge (mem pd p2) then p
    else pmmFreePage (freeLeaves mem (frameOf (mem pd p2)) p) (physOf (mem pd p2))) p

def freePdptSubtree (mem : Nat → Fin 512 → BitVec 64) (p : Pmm) (pdptPhys : Nat) : Pmm :=
  let pdpt := pdptPhys / pageSize
  let p := forEntries (fun p p3 =>
    if !isPresent (mem pdpt p3) then p
    else if isHuge (mem pdpt p3) then p
    else pmmFreePage (freePdEntries mem (frameOf (mem pdpt p3)) p) (physOf (mem pdpt p3))) p
  pmmFreePage p pdptPhys

/-- `vmm_destroy_address_space`: PML4 entries 4 to 511, then the PML4 itself. -/
def vmmDestroyAddressSpace (m : Machine) (pml4 : Nat) : Machine :=
  if pml4 = 0 then m
  else
    let p := ((List.finRange 512).drop 4).foldl (fun p p4 =>
      if !isPresent (m.mem pml4 p4) then p
      else freePdptSubtree m.mem p (physOf (m.mem pml4 p4))) m.pmm
    { m with pmm := pmmFreePage p (pml4 * pageSize) }

end Lestra
