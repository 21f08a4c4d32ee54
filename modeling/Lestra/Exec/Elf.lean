import Lestra.Exec.AddressSpace
import Lestra.Lib.LittleEndian
import Lestra.Mm.PageFault

/-!
# The ELF loader

`elf_load` of `kernel/exec/elf.c`. The image is the memory from `elf_data` on, by
offset: what lies at `elf_size` and above does not belong to it, but the loader
does not look at `elf_size` again once the header fits. Offsets wrap as the
pointer sums of the source do.
-/

namespace Lestra

open Word64

/-- The memory from `elf_data` on. -/
abbrev ElfImage := BitVec 64 → UInt8

-- ---------------------------------------------------------------------------
-- Headers
-- ---------------------------------------------------------------------------

/-- A field of `n` bytes. -/
def ElfImage.field (elf : ElfImage) (off : BitVec 64) (n : Nat) : Nat :=
  LittleEndian.decode ((List.range n).map fun i => elf (off + BitVec.ofNat 64 i))

/-- `elf64_hdr_t` -/
structure Elf64Hdr where
  eIdent : List UInt8
  eType : Nat
  eMachine : Nat
  eEntry : BitVec 64
  ePhoff : BitVec 64
  ePhnum : Nat

/-- `elf64_phdr_t` -/
structure Elf64Phdr where
  pType : Nat
  pFlags : BitVec 32
  pOffset : BitVec 64
  pVaddr : BitVec 64
  pFilesz : BitVec 64
  pMemsz : BitVec 64

/-- `sizeof(elf64_hdr_t)` -/
def elfHdrSize : BitVec 64 := 64#64

/-- `sizeof(elf64_phdr_t)` -/
def elfPhdrSize : Nat := 56

def ptLoad : Nat := 1

/-- `PF_X` -/
def pfX : BitVec 32 := 1#32

/-- `PF_W` -/
def pfW : BitVec 32 := 2#32

def elfMagic : List UInt8 := [0x7F, 0x45, 0x4C, 0x46]

def ElfImage.hdr (elf : ElfImage) : Elf64Hdr where
  eIdent := (List.range 16).map fun i => elf (BitVec.ofNat 64 i)
  eType := elf.field 16#64 2
  eMachine := elf.field 18#64 2
  eEntry := BitVec.ofNat 64 (elf.field 24#64 8)
  ePhoff := BitVec.ofNat 64 (elf.field 32#64 8)
  ePhnum := elf.field 56#64 2

/-- `phdrs[i]` -/
def ElfImage.phdr (elf : ElfImage) (i : Nat) : Elf64Phdr :=
  let off := elf.hdr.ePhoff + BitVec.ofNat 64 (i * elfPhdrSize)
  { pType := elf.field off 4
    pFlags := BitVec.ofNat 32 (elf.field (off + 4#64) 4)
    pOffset := BitVec.ofNat 64 (elf.field (off + 8#64) 8)
    pVaddr := BitVec.ofNat 64 (elf.field (off + 16#64) 8)
    pFilesz := BitVec.ofNat 64 (elf.field (off + 32#64) 8)
    pMemsz := BitVec.ofNat 64 (elf.field (off + 40#64) 8) }

/-- The checks on the header. -/
def Elf64Hdr.accepted (hdr : Elf64Hdr) : Bool :=
  hdr.eIdent.take 4 = elfMagic ∧ hdr.eIdent[4]? = some 2 ∧ hdr.eMachine = 0x3E ∧
    (hdr.eType = 2 ∨ hdr.eType = 3)

-- ---------------------------------------------------------------------------
-- Pages
-- ---------------------------------------------------------------------------

/-- The entries of a frame that holds the given bytes. -/
def rowOf (b : Nat → UInt8) : Fin 512 → BitVec 64 := fun i =>
  BitVec.ofNat 64 (LittleEndian.decode ((List.range 8).map fun k => b (8 * i.val + k)))

/-- A frame is taken, filled and mapped. The flag is false if there is no frame. -/
def placePage (pml4 : Nat) (m : Machine) (va : BitVec 64) (row : Fin 512 → BitVec 64)
    (flags : BitVec 64) : Machine × Bool :=
  let (m, phys) := m.allocPage
  if phys = 0 then (m, false)
  else (userMapPage (m.fillPage phys row) pml4 va (BitVec.ofNat 64 phys) flags, true)

/-- The bytes that `user_map_data` copies to the page at `offset`, and zeros. -/
def dataRow (data : ElfImage) (dataLen offset : BitVec 64) : Fin 512 → BitVec 64 :=
  let toCopy := dataLen - offset
  let toCopy := if toCopy > 0x1000#64 then 0x1000#64 else toCopy
  rowOf fun j => if j < toCopy.toNat then data (offset + BitVec.ofNat 64 j) else 0

/-- The loop of `user_map_data`, at page `i` with `n` pages to go. -/
def userMapPages (pml4 : Nat) (vaddr : BitVec 64) (data : ElfImage) (dataLen flags : BitVec 64) :
    Machine → Nat → Nat → Machine
  | m, _, 0 => m
  | m, i, n + 1 =>
    let offset := BitVec.ofNat 64 (i * pageSize)
    match placePage pml4 m (vaddr + offset) (dataRow data dataLen offset) flags with
    | (m, false) => m
    | (m, true) => userMapPages pml4 vaddr data dataLen flags m (i + 1) n

/-- `user_map_data` -/
def userMapData (m : Machine) (pml4 : Nat) (vaddr : BitVec 64) (data : ElfImage)
    (dataLen : BitVec 64) (writable executable : Bool) : Machine :=
  let flags := pagePresent ||| pageUser
  let flags := if writable then flags ||| pageWritable else flags
  let flags := if !executable then flags ||| pageNx else flags
  let numPages := (dataLen + 0xFFF#64) / 0x1000#64
  userMapPages pml4 vaddr data dataLen flags m 0 numPages.toNat

/-- Zeroed pages from `start` on; a page without a frame is skipped. -/
def mapZeroed (pml4 : Nat) (start flags : BitVec 64) (n : Nat) (m : Machine) : Machine :=
  (List.range n).foldl (fun m i => (placePage pml4 m (start + BitVec.ofNat 64 (i * pageSize))
    (fun _ => 0#64) flags).1) m

/-- The pages of a segment behind its bytes in the file. -/
def mapBss (m : Machine) (pml4 : Nat) (ph : Elf64Phdr) (executable : Bool) : Machine :=
  if ph.pMemsz > ph.pFilesz then
    let bssStart := pageCeil (ph.pVaddr + ph.pFilesz)
    let bssEnd := ph.pVaddr + ph.pMemsz
    let bssPages := (bssEnd - bssStart + 0xFFF#64) / 0x1000#64
    let flags := pagePresent ||| pageUser ||| pageWritable
    let flags := if !executable then flags ||| pageNx else flags
    mapZeroed pml4 bssStart flags bssPages.toNat m
  else m

/-- The body of the loop over the program headers. -/
def loadSegment (elf : ElfImage) (pml4 : Nat) (m : Machine) (i : Nat) : Machine :=
  let ph := elf.phdr i
  if ph.pType ≠ ptLoad then m
  else
    let writable := ph.pFlags &&& pfW ≠ 0#32
    let executable := ph.pFlags &&& pfX ≠ 0#32
    let m := userMapData m pml4 ph.pVaddr (fun k => elf (ph.pOffset + k)) ph.pFilesz writable
      executable
    mapBss m pml4 ph executable

-- ---------------------------------------------------------------------------
-- Loading
-- ---------------------------------------------------------------------------

/-- Memory, and what the loader leaves for the jump to user mode. -/
structure ElfLoader where
  machine : Machine
  userPml4 : Nat
  userEntry : BitVec 64
  userStackPtr : BitVec 64

/-- `USER_STACK_SIZE_DEFAULT` -/
def userStackSize : BitVec 64 := 0x40000#64

/-- The stack starts at a random page of a 16 MB window; `rnd` is `csprng_u64()`. -/
def elfStackTop (rnd : BitVec 64) : BitVec 64 := userStackTop - ((rnd &&& 0xFFF#64) <<< 12)

/-- `PAGE_PRESENT | PAGE_USER | PAGE_WRITABLE | PAGE_NX` -/
def mapStack (m : Machine) (pml4 : Nat) (stackTop : BitVec 64) : Machine :=
  mapZeroed pml4 (stackTop - userStackSize) heapPageFlags (userStackSize.toNat / pageSize) m

/-- `elf_load`, for `boot` the frame of `boot_pml4`: the entry point, or 0. -/
def elfLoad (rnd : BitVec 64) (boot : Nat) (s : ElfLoader) (elfData : Option ElfImage)
    (elfSize : BitVec 64) : ElfLoader × BitVec 64 :=
  match elfData with
  | none => (s, 0#64)
  | some elf =>
    if elfSize < elfHdrSize then (s, 0#64)
    else if !elf.hdr.accepted then (s, 0#64)
    else
      let (m, pml4) := createUserAddressSpace s.machine boot
      if pml4 = 0 then ({ s with machine := m, userPml4 := 0 }, 0#64)
      else
        let m := (List.range elf.hdr.ePhnum).foldl (loadSegment elf pml4) m
        let stackTop := elfStackTop rnd
        let m := mapStack m pml4 stackTop
        ({ machine := m
           userPml4 := pml4
           userEntry := elf.hdr.eEntry
           userStackPtr := stackTop - 16#64 }, elf.hdr.eEntry)

end Lestra
