import Lestra.Mm.Vmm

/-!
# User address spaces

The part of `kernel/exec/elf.c` that builds address spaces: a new PML4 whose
first four entries are private copies of the kernel's tables, down to the page
directories, and `user_map_page`, which the ELF loader maps its segments with.
Pointers to tables are frame numbers, 0 for `NULL`.
-/

namespace Lestra

open Word64

/-- `deep_copy_pd`: a private page directory with the user bits cleared. -/
def deepCopyPd (m : Machine) (bootPd : Nat) : Machine × Nat :=
  let (m, phys) := m.allocPage
  if phys = 0 then (m, 0)
  else (m.fillPage phys fun i => m.mem bootPd i &&& ~~~pageUser, phys / pageSize)

/-- The entry for a private table: the flags of the entry it is a copy of. -/
def privateEntry (table : Nat) (e : BitVec 64) : BitVec 64 :=
  BitVec.ofNat 64 (table * pageSize) ||| (e &&& ~~~pageUser &&& ~~~ptePhysMask) ||| pagePresent

/-- The body of the loop of `deep_copy_pdpt`. -/
def copyPdptEntry (bootPdpt pdpt : Nat) (m : Machine) (i : Fin 512) : Machine :=
  let e := m.mem bootPdpt i
  if !isPresent e then m.setEntry pdpt i 0#64
  else if isHuge e then m.setEntry pdpt i (e &&& ~~~pageUser)
  else
    let (m, newPd) := deepCopyPd m (frameOf e)
    if newPd = 0 then m.setEntry pdpt i 0#64
    else m.setEntry pdpt i (privateEntry newPd e)

def deepCopyPdpt (m : Machine) (bootPdpt : Nat) : Machine × Nat :=
  let (m, phys) := m.allocPage
  if phys = 0 then (m, 0)
  else
    let pdpt := phys / pageSize
    (forEntries (copyPdptEntry bootPdpt pdpt) m, pdpt)

/-- The body of the loop of `create_user_address_space`. -/
def copyPml4Entry (boot pml4 : Nat) (m : Machine) (i : Fin 512) : Machine :=
  let e := m.mem boot i
  if !isPresent e then m
  else
    let (m, newPdpt) := deepCopyPdpt m (frameOf e)
    if newPdpt = 0 then m
    else m.setEntry pml4 i (privateEntry newPdpt e)

/-- `create_user_address_space`, for `boot` the frame of `boot_pml4`: the frame
of the new PML4, or 0. -/
def createUserAddressSpace (m : Machine) (boot : Nat) : Machine × Nat :=
  let (m, phys) := m.allocPage
  if phys = 0 then (m, 0)
  else
    let pml4 := phys / pageSize
    let m := m.zeroPage phys
    (((List.finRange 512).take 4).foldl (copyPml4Entry boot pml4) m, pml4)

/-- `user_map_page`. Unlike `vmm_map_page` it hands its own flags, without NX,
to new tables, and it does not look at the leaf entry it overwrites. -/
def userMapPage (m : Machine) (pml4 : Nat) (vaddr phys flags : BitVec 64) : Machine :=
  match openPath m pml4 vaddr ((flags &&& ~~~pageNx) ||| pagePresent) (isUser flags) with
  | (m, none) => m
  | (m, some pt) => m.setEntry pt (ptIdx vaddr) (phys ||| flags ||| pagePresent)

end Lestra
