import Lestra.Lib.ByteBuf
import Lestra.Lib.ByteMem

/-!
# ext2: inodes and group descriptors on the disk

`ext2_read_inode`, `ext2_write_inode`, `ext2_read_bgd` and `disk_write_bgd`, down to
the sectors of the drive. Reads and writes of sectors succeed.

The writers read a sector, change the bytes at the place in it, and write it back.
The readers go through `disk_read`, which reads whole sectors from the start of the
one that holds the place: they see the first inode, or descriptor, of the sector.
What the sectors overrun behind a buffer that is smaller than them is left out.

* `ext2_disk_round_trip` — when what was written is what is read.
-/

namespace Lestra

open ByteMem

-- ---------------------------------------------------------------------------
-- The drive
-- ---------------------------------------------------------------------------

def sectorSize : Nat := 512

def ahciReadSectors (disk : Mem) (lba count : Nat) : List UInt8 :=
  load disk (lba * sectorSize) (count * sectorSize)

def ahciWriteSectors (disk : Mem) (lba : Nat) (buf : List UInt8) : Mem :=
  store disk (lba * sectorSize) buf

/-- `disk_read`: the bytes that land in the buffer, all of the sectors that are read. -/
def diskRead (disk : Mem) (offset count : Nat) : List UInt8 :=
  ahciReadSectors disk (offset / sectorSize) (min ((count + 511) / sectorSize) 8)

/-- A sector is read, `bytes` are put into it at the place of `offset`, and it is written. -/
def patchSector (disk : Mem) (offset : Nat) (bytes : List UInt8) : Mem :=
  ahciWriteSectors disk (offset / sectorSize)
    (ByteBuf.store (ahciReadSectors disk (offset / sectorSize) 1) (offset % sectorSize) bytes)

-- ---------------------------------------------------------------------------
-- The driver
-- ---------------------------------------------------------------------------

/-- What `ext2_mount` takes from the superblock. -/
structure Ext2Mount where
  blockSize : Nat
  inodesPerGroup : Nat
  inodeSize : Nat

/-- `sizeof(struct ext2_bgd)` and `sizeof(struct ext2_inode)`. -/
def bgdSize : Nat := 32

def inodeStructSize : Nat := 128

/-- `ext2_bgd_block` -/
def Ext2Mount.bgdBlock (fs : Ext2Mount) : Nat := if fs.blockSize = 1024 then 2 else 1

/-- Where descriptor `group` lies. -/
def Ext2Mount.bgdOffset (fs : Ext2Mount) (group : Nat) : Nat :=
  fs.bgdBlock * fs.blockSize + group * bgdSize

/-- `bgd->bg_inode_table` -/
def bgInodeTable (bgd : List UInt8) : Nat := LittleEndian.decode ((bgd.drop 8).take 4)

/-- `disk_write_bgd` -/
def diskWriteBgd (fs : Ext2Mount) (disk : Mem) (group : Nat) (bgd : List UInt8) : Mem :=
  patchSector disk (fs.bgdOffset group) bgd

/-- `ext2_read_bgd`: the descriptor is the beginning of what is read. -/
def ext2ReadBgd (fs : Ext2Mount) (disk : Mem) (group : Nat) : List UInt8 :=
  (diskRead disk (fs.bgdOffset group) bgdSize).take bgdSize

/-- The group of an inode, and its place there. -/
def Ext2Mount.inodeGroup (fs : Ext2Mount) (inodeNum : Nat) : Nat :=
  (inodeNum - 1) / fs.inodesPerGroup

def Ext2Mount.inodeIndex (fs : Ext2Mount) (inodeNum : Nat) : Nat :=
  (inodeNum - 1) % fs.inodesPerGroup

/-- Where the inode lies, for an inode table that begins at block `table`. -/
def Ext2Mount.inodeOffset (fs : Ext2Mount) (table inodeNum : Nat) : Nat :=
  table * fs.blockSize + fs.inodeIndex inodeNum * fs.inodeSize % 2 ^ 32

/-- `block_buf` with the first block of descriptors; what lies behind it is `stale`. -/
def bgdBlockBuf (fs : Ext2Mount) (disk stale : Mem) : Mem :=
  store stale 0 (diskRead disk (fs.bgdBlock * fs.blockSize) fs.blockSize)

/-- `ext2_read_inode` -/
def ext2ReadInode (fs : Ext2Mount) (disk stale : Mem) (inodeNum : Nat) : Option (List UInt8) :=
  if inodeNum = 0 then none
  else
    let bgd := load (bgdBlockBuf fs disk stale) (fs.inodeGroup inodeNum * bgdSize) bgdSize
    let inodeBuf := diskRead disk (fs.inodeOffset (bgInodeTable bgd) inodeNum) fs.inodeSize
    some (inodeBuf.take inodeStructSize)

/-- `ext2_write_inode` of the inode at the beginning of `ino`: as many bytes are copied
as an inode has on the disk. -/
def ext2WriteInode (fs : Ext2Mount) (disk : Mem) (inodeNum : Nat) (ino : Mem) : Mem :=
  if inodeNum = 0 then disk
  else
    let bgd := ext2ReadBgd fs disk (fs.inodeGroup inodeNum)
    patchSector disk (fs.inodeOffset (bgInodeTable bgd) inodeNum) (load ino 0 fs.inodeSize)

-- ---------------------------------------------------------------------------
-- The format
-- ---------------------------------------------------------------------------

/-- The inode table of a group, as its descriptor has it. -/
def Ext2Mount.inodeTable (fs : Ext2Mount) (disk : Mem) (group : Nat) : Nat :=
  getLE disk (fs.bgdOffset group + 8) 4

/-- A volume of `groups` groups: the inode tables lie apart from one another and from
the descriptors, whole sectors each. -/
structure Ext2Mount.Formatted (fs : Ext2Mount) (disk : Mem) (groups : Nat) : Prop where
  blockSize : fs.blockSize = 1024 ∨ fs.blockSize = 2048 ∨ fs.blockSize = 4096
  inodeSize : fs.inodeSize = 128 ∨ fs.inodeSize = 256
  inodes : 0 < fs.inodesPerGroup
  small : fs.inodesPerGroup * fs.inodeSize ≤ 2 ^ 32
  apart : ∀ g < groups, ∀ g' < groups, g ≠ g' →
    fs.inodeTable disk g * fs.blockSize + fs.inodesPerGroup * fs.inodeSize ≤
      fs.inodeTable disk g' * fs.blockSize ∨
    fs.inodeTable disk g' * fs.blockSize + fs.inodesPerGroup * fs.inodeSize ≤
      fs.inodeTable disk g * fs.blockSize
  behind : ∀ g < groups, fs.bgdOffset groups ≤ fs.inodeTable disk g * fs.blockSize

-- ---------------------------------------------------------------------------
-- Sectors
-- ---------------------------------------------------------------------------

/-- Where the sector of a place begins. -/
def sectorStart (offset : Nat) : Nat := offset / sectorSize * sectorSize

section

variable {fs : Ext2Mount} {disk stale ino : Mem} {offset count k r w n m g groups : Nat}
  {bytes : List UInt8}

theorem sectorStart_add (hr : r % sectorSize = 0) : sectorStart (r + k) = r + sectorStart k := by
  simp only [sectorStart, sectorSize] at *
  omega

theorem sectorStart_mod : sectorStart offset % sectorSize = 0 := Nat.mul_mod_left ..

/-- At most one sector is read, from its start. -/
theorem diskRead_sector (hpos : 0 < count) (hcount : count ≤ sectorSize) :
    diskRead disk offset count = load disk (sectorStart offset) sectorSize := by
  have hsectors : min ((count + 511) / sectorSize) 8 = 1 := by
    simp only [sectorSize] at *
    omega
  rw [diskRead, hsectors, ahciReadSectors, sectorStart, Nat.one_mul]

theorem length_store_sector (hlen : bytes.length + k ≤ sectorSize) (buf : List UInt8)
    (hbuf : buf.length = sectorSize) : (ByteBuf.store buf k bytes).length = sectorSize := by
  simp only [ByteBuf.store, List.length_append, List.length_take, List.length_replicate,
    List.length_drop, hbuf]
  omega

/-- The sector is written back with the new bytes in it, and nothing else changes. -/
theorem patchSector_eq (hfits : offset % sectorSize + bytes.length ≤ sectorSize) :
    patchSector disk offset bytes = store disk offset bytes := by
  have hbuf : (ahciReadSectors disk (offset / sectorSize) 1).length = sectorSize := by
    rw [ahciReadSectors, length_load, Nat.one_mul]
  have hlen : (ByteBuf.store (ahciReadSectors disk (offset / sectorSize) 1) (offset % sectorSize)
      bytes).length = sectorSize := length_store_sector (by omega) _ hbuf
  have hsplit : offset / sectorSize * sectorSize + offset % sectorSize = offset :=
    Nat.div_add_mod' ..
  funext x
  rw [patchSector, ahciWriteSectors, store, hlen]
  by_cases hin : offset / sectorSize * sectorSize ≤ x ∧ x < offset / sectorSize * sectorSize + sectorSize
  · rw [if_pos hin, ← ByteBuf.get, ByteBuf.get_store, store]
    by_cases hput : offset ≤ x ∧ x < offset + bytes.length
    · rw [if_pos (by omega), if_pos hput, ByteBuf.get]
      exact congrArg (fun i => bytes.getD i 0) (by omega)
    · rw [if_neg (by omega), if_neg hput, ByteBuf.get, ahciReadSectors, load, Nat.one_mul,
        List.getD_eq_getElem?_getD, List.getElem?_map, List.getElem?_range (by omega)]
      exact congrArg disk (by omega)
  · rw [if_neg hin, store, if_neg (by omega)]

/-- What is read from the start of a sector is what was written there, or untouched. -/
theorem load_store_sector (hr : r % sectorSize = 0) (hw : w % inodeStructSize = 0)
    (hfits : w % sectorSize + bytes.length ≤ sectorSize) (hlen : inodeStructSize ≤ bytes.length) :
    load (store disk w bytes) r inodeStructSize =
      if r = w then bytes.take inodeStructSize else load disk r inodeStructSize := by
  split
  · rename_i hrw
    subst hrw
    rw [← load_take hlen, load_store]
  · simp only [sectorSize, inodeStructSize] at *
    exact load_store_of_apart (by omega)

-- ---------------------------------------------------------------------------
-- Descriptors
-- ---------------------------------------------------------------------------

theorem load_drop (mem : Mem) (a j : Nat) : (load mem a (k + j)).drop k = load mem (a + k) j := by
  rw [load_append, List.drop_left' (length_load _ _ _)]

theorem bgInodeTable_load (mem : Mem) (a : Nat) :
    bgInodeTable (load mem a bgdSize) = getLE mem (a + 8) 4 := by
  rw [bgInodeTable, bgdSize, load_drop (k := 8) mem a 24, load_take (by decide), getLE]

theorem Ext2Mount.Formatted.blockSize_mod (h : fs.Formatted disk groups) :
    fs.blockSize % sectorSize = 0 := by
  have hblock := h.blockSize
  simp only [sectorSize]
  omega

theorem Ext2Mount.Formatted.bgdStart_mod (h : fs.Formatted disk groups) :
    fs.bgdBlock * fs.blockSize % sectorSize = 0 := by
  rw [Nat.mul_mod, h.blockSize_mod, Nat.mul_zero, Nat.zero_mod]

/-- The descriptor that begins the sector of another. -/
theorem sectorStart_bgdOffset (h : fs.Formatted disk groups) :
    sectorStart (fs.bgdOffset g) = fs.bgdOffset (g / 16 * 16) := by
  rw [Ext2Mount.bgdOffset, sectorStart_add h.bgdStart_mod, Ext2Mount.bgdOffset]
  simp only [sectorStart, sectorSize, bgdSize]
  omega

theorem ext2ReadBgd_eq (h : fs.Formatted disk groups) (disk' : Mem) :
    ext2ReadBgd fs disk' g = load disk' (fs.bgdOffset (g / 16 * 16)) bgdSize := by
  rw [ext2ReadBgd, diskRead_sector (by decide) (by decide), sectorStart_bgdOffset h,
    load_take (by decide)]

theorem diskWriteBgd_eq (h : fs.Formatted disk groups) (disk' : Mem) (hlen : bytes.length = bgdSize) :
    diskWriteBgd fs disk' g bytes = store disk' (fs.bgdOffset g) bytes := by
  refine patchSector_eq ?_
  have hstart := h.bgdStart_mod
  simp only [Ext2Mount.bgdOffset, sectorSize, bgdSize] at *
  omega

-- ---------------------------------------------------------------------------
-- Where the reader and the writer look
-- ---------------------------------------------------------------------------

/-- The bytes between the start of an inode table and an inode. -/
def Ext2Mount.inodePos (fs : Ext2Mount) (inodeNum : Nat) : Nat :=
  fs.inodeIndex inodeNum * fs.inodeSize

/-- The number of an inode of the volume. -/
def Ext2Mount.HasInode (fs : Ext2Mount) (groups inodeNum : Nat) : Prop :=
  inodeNum ≠ 0 ∧ inodeNum ≤ groups * fs.inodesPerGroup

/-- The inode table that the reader takes, from the block of descriptors that it has read. -/
def Ext2Mount.readerTable (fs : Ext2Mount) (disk stale : Mem) (group : Nat) : Nat :=
  if group * bgdSize < fs.blockSize then fs.inodeTable disk group
  else getLE stale (group * bgdSize + 8) 4

theorem Ext2Mount.Formatted.group_lt (h : fs.Formatted disk groups) (hn : fs.HasInode groups n) :
    fs.inodeGroup n < groups := by
  have hle := hn.2
  have hpos := hn.1
  rw [Ext2Mount.inodeGroup, Nat.div_lt_iff_lt_mul h.inodes]
  omega

theorem Ext2Mount.Formatted.index_lt (h : fs.Formatted disk groups) :
    fs.inodeIndex n < fs.inodesPerGroup := Nat.mod_lt _ h.inodes

/-- The inode lies inside its table. -/
theorem Ext2Mount.Formatted.pos_le (h : fs.Formatted disk groups) :
    fs.inodePos n + fs.inodeSize ≤ fs.inodesPerGroup * fs.inodeSize := by
  rw [Ext2Mount.inodePos, ← Nat.succ_mul]
  exact Nat.mul_le_mul_right _ h.index_lt

theorem Ext2Mount.Formatted.pos_mod (h : fs.Formatted disk groups) :
    fs.inodePos n % inodeStructSize = 0 ∧ fs.inodePos n % sectorSize + fs.inodeSize ≤ sectorSize := by
  rw [Ext2Mount.inodePos]
  simp only [inodeStructSize, sectorSize]
  rcases h.inodeSize with hsize | hsize <;> rw [hsize] <;> omega

theorem Ext2Mount.Formatted.inodeOffset_eq (h : fs.Formatted disk groups) (table : Nat) :
    fs.inodeOffset table n = table * fs.blockSize + fs.inodePos n := by
  have hpos := h.pos_le (n := n)
  have hsmall := h.small
  have hsize := h.inodeSize
  rw [Ext2Mount.inodeOffset, ← Ext2Mount.inodePos, Nat.mod_eq_of_lt (by omega)]

theorem Ext2Mount.Formatted.table_mod (h : fs.Formatted disk groups) (table : Nat) :
    table * fs.blockSize % sectorSize = 0 := by
  rw [Nat.mul_mod, h.blockSize_mod, Nat.mul_zero, Nat.zero_mod]

/-- The write of an inode: the descriptor that is looked at begins a sector. -/
theorem ext2WriteInode_eq (h : fs.Formatted disk groups) (hn : n ≠ 0) :
    ext2WriteInode fs disk n ino = store disk
      (fs.inodeTable disk (fs.inodeGroup n / 16 * 16) * fs.blockSize + fs.inodePos n)
      (load ino 0 fs.inodeSize) := by
  have hpos := h.pos_mod (n := n)
  have htable := h.table_mod (fs.inodeTable disk (fs.inodeGroup n / 16 * 16))
  rw [ext2WriteInode, if_neg hn, ext2ReadBgd_eq h]
  dsimp only
  rw [bgInodeTable_load, h.inodeOffset_eq]
  refine patchSector_eq ?_
  rw [length_load, Nat.add_mod, ← Ext2Mount.inodeTable, htable, Nat.zero_add, Nat.mod_mod]
  exact hpos.2

/-- A block that is copied into a buffer is read there as in its first place. -/
theorem load_store_load {mem mem' : Mem} {a src j : Nat} (hin : a + j ≤ k) :
    load (store mem 0 (load mem' src k)) a j = load mem' (src + a) j := by
  refine List.map_congr_left fun i hi => ?_
  have hi' := List.mem_range.mp hi
  rw [store, if_pos (by rw [length_load]; omega), Nat.sub_zero, load, List.getD_eq_getElem?_getD,
    List.getElem?_map, List.getElem?_range (by omega), Option.map_some, Option.getD_some,
    Nat.add_assoc]

theorem readerTable_eq (h : fs.Formatted disk groups) (disk' : Mem) :
    bgInodeTable (load (bgdBlockBuf fs disk' stale) (g * bgdSize) bgdSize) =
      fs.readerTable disk' stale g := by
  have hblock := h.blockSize
  have hread : bgdBlockBuf fs disk' stale =
      store stale 0 (load disk' (fs.bgdBlock * fs.blockSize) fs.blockSize) := by
    have hsectors : min ((fs.blockSize + 511) / sectorSize) 8 * sectorSize = fs.blockSize := by
      simp only [sectorSize]
      omega
    rw [bgdBlockBuf, diskRead, ahciReadSectors, hsectors, Nat.div_mul_cancel
      (Nat.dvd_of_mod_eq_zero h.bgdStart_mod)]
  rw [bgInodeTable_load, hread, Ext2Mount.readerTable]
  by_cases hin : g * bgdSize < fs.blockSize
  · rw [if_pos hin, getLE, load_store_load (by simp only [bgdSize] at *; omega), ← Nat.add_assoc]
    rfl
  · rw [if_neg hin]
    exact getLE_congr fun x hx _ => store_out (Or.inr (by rw [length_load]; omega))

/-- The read of an inode: a whole sector is read, and its first bytes are taken. -/
theorem ext2ReadInode_eq (h : fs.Formatted disk groups) (disk' : Mem) (hn : n ≠ 0) :
    ext2ReadInode fs disk' stale n = some (load disk'
      (fs.readerTable disk' stale (fs.inodeGroup n) * fs.blockSize + sectorStart (fs.inodePos n))
      inodeStructSize) := by
  have hpos : 0 < fs.inodeSize ∧ fs.inodeSize ≤ sectorSize ∧ inodeStructSize ≤ sectorSize := by
    have hsize := h.inodeSize
    simp only [inodeStructSize, sectorSize]
    omega
  rw [ext2ReadInode, if_neg hn]
  dsimp only
  rw [readerTable_eq h, diskRead_sector hpos.1 hpos.2.1, h.inodeOffset_eq,
    sectorStart_add (h.table_mod _), load_take hpos.2.2]

/-- Where the reader takes an inode from, and where the writer puts it. -/
def Ext2Mount.readerPlace (fs : Ext2Mount) (disk stale : Mem) (inodeNum : Nat) : Nat :=
  fs.readerTable disk stale (fs.inodeGroup inodeNum) * fs.blockSize +
    sectorStart (fs.inodePos inodeNum)

def Ext2Mount.writerPlace (fs : Ext2Mount) (disk : Mem) (inodeNum : Nat) : Nat :=
  fs.inodeTable disk (fs.inodeGroup inodeNum / 16 * 16) * fs.blockSize + fs.inodePos inodeNum

/-- A write of an inode leaves the descriptors alone. -/
theorem inodeTable_ext2WriteInode (h : fs.Formatted disk groups) (hn : fs.HasInode groups n)
    (hg : g < groups) : fs.inodeTable (ext2WriteInode fs disk n ino) g = fs.inodeTable disk g := by
  have hbehind := h.behind (fs.inodeGroup n / 16 * 16) (by have := h.group_lt hn; omega)
  rw [ext2WriteInode_eq h hn.1]
  refine getLE_congr fun x _ hx => store_out (Or.inl ?_)
  simp only [Ext2Mount.bgdOffset, bgdSize] at hbehind hx
  omega

/-- **One write, one read.** The reader finds the new inode where it looks at the place
that was written, and what it found before everywhere else. -/
theorem ext2ReadInode_write (h : fs.Formatted disk groups) (hn : fs.HasInode groups n)
    (hm : fs.HasInode groups m) :
    ext2ReadInode fs (ext2WriteInode fs disk n ino) stale m =
      if fs.readerPlace disk stale m = fs.writerPlace disk n then some (load ino 0 inodeStructSize)
      else ext2ReadInode fs disk stale m := by
  have htable : fs.readerTable (ext2WriteInode fs disk n ino) stale (fs.inodeGroup m) =
      fs.readerTable disk stale (fs.inodeGroup m) := by
    rw [Ext2Mount.readerTable, Ext2Mount.readerTable,
      inodeTable_ext2WriteInode h hn (h.group_lt hm)]
  have hreader : fs.readerPlace disk stale m % sectorSize = 0 := by
    rw [Ext2Mount.readerPlace, Nat.add_mod, h.table_mod, sectorStart_mod]
    rfl
  have hpos := h.pos_mod (n := n)
  have hwriter : fs.writerPlace disk n % inodeStructSize = 0 ∧
      fs.writerPlace disk n % sectorSize + fs.inodeSize ≤ sectorSize := by
    have htab := h.table_mod (fs.inodeTable disk (fs.inodeGroup n / 16 * 16))
    simp only [Ext2Mount.writerPlace, inodeStructSize, sectorSize] at *
    omega
  have hsize : inodeStructSize ≤ fs.inodeSize := by
    have hsize := h.inodeSize
    simp only [inodeStructSize]
    omega
  rw [ext2ReadInode_eq h _ hm.1, ext2ReadInode_eq h _ hm.1, htable, ← Ext2Mount.readerPlace,
    ext2WriteInode_eq h hn.1, ← Ext2Mount.writerPlace,
    load_store_sector hreader hwriter.1 (by rw [length_load]; exact hwriter.2)
      (by rw [length_load]; exact hsize), load_take hsize]
  split <;> rfl

-- ---------------------------------------------------------------------------
-- When an inode is read back
-- ---------------------------------------------------------------------------

/-- The reader finds the place where the writer puts the inode: the inode begins a sector,
and so does its group's descriptor, in the block of descriptors that is read. -/
def Ext2Mount.Found (fs : Ext2Mount) (inodeNum : Nat) : Prop :=
  fs.inodePos inodeNum % sectorSize = 0 ∧ fs.inodeGroup inodeNum % 16 = 0 ∧
    fs.inodeGroup inodeNum * bgdSize < fs.blockSize

/-- No other inode is read from the sector, whatever lies behind the block of descriptors. -/
def Ext2Mount.Alone (fs : Ext2Mount) (groups inodeNum : Nat) : Prop :=
  fs.inodeIndex inodeNum + 1 = fs.inodesPerGroup ∧ groups * bgdSize ≤ fs.blockSize

theorem Ext2Mount.Found.place (hfound : fs.Found n) (disk stale : Mem) :
    fs.readerPlace disk stale n = fs.writerPlace disk n := by
  have hpos : sectorStart (fs.inodePos n) = fs.inodePos n :=
    Nat.div_mul_cancel (Nat.dvd_of_mod_eq_zero hfound.1)
  have hgroup : fs.inodeGroup n / 16 * 16 = fs.inodeGroup n :=
    Nat.div_mul_cancel (Nat.dvd_of_mod_eq_zero hfound.2.1)
  rw [Ext2Mount.readerPlace, Ext2Mount.writerPlace, Ext2Mount.readerTable, if_pos hfound.2.2, hpos,
    hgroup]

/-- Two inodes with the same place are in the same group. -/
theorem Ext2Mount.Formatted.group_of_place {g' : Nat} (h : fs.Formatted disk groups) (hg : g < groups)
    (hg' : g' < groups) (hplace : fs.inodeTable disk g * fs.blockSize + sectorStart (fs.inodePos m) =
      fs.inodeTable disk g' * fs.blockSize + fs.inodePos n) : g = g' := by
  by_contra hne
  have hm := h.pos_le (n := m)
  have hn := h.pos_le (n := n)
  have hsize := h.inodeSize
  have hstart : sectorStart (fs.inodePos m) ≤ fs.inodePos m := Nat.div_mul_le_self ..
  have hapart := h.apart g hg g' hg' hne
  omega

theorem Ext2Mount.Formatted.found_of_place (h : fs.Formatted disk groups) (hn : fs.HasInode groups n)
    (hplace : ∀ stale, fs.readerPlace disk stale n = fs.writerPlace disk n) : fs.Found n := by
  have hgroup := h.group_lt hn
  have hblock := h.blockSize
  simp only [Ext2Mount.readerPlace, Ext2Mount.writerPlace] at hplace
  refine ⟨?_, ?_⟩
  · have hplace := hplace fun _ => 0
    have hreader := h.table_mod (fs.readerTable disk (fun _ => 0) (fs.inodeGroup n))
    have hwriter := h.table_mod (fs.inodeTable disk (fs.inodeGroup n / 16 * 16))
    have hstart : sectorStart (fs.inodePos n) % sectorSize = 0 := sectorStart_mod
    simp only [sectorSize] at *
    omega
  · by_cases hin : fs.inodeGroup n * bgdSize < fs.blockSize
    · refine ⟨?_, hin⟩
      have hplace := hplace fun _ => 0
      rw [Ext2Mount.readerTable, if_pos hin] at hplace
      have hsame := h.group_of_place hgroup (by omega) hplace
      omega
    · -- two contents of the memory behind the block name two tables
      have hread : ∀ b : UInt8, fs.readerTable disk (fun _ => b) (fs.inodeGroup n) =
          LittleEndian.decode [b, b, b, b] := by
        intro b
        rw [Ext2Mount.readerTable, if_neg hin]
        rfl
      have hzero := hplace fun _ => 0
      have hone := hplace fun _ => 1
      rw [hread, ← hone, hread, Nat.add_right_cancel_iff] at hzero
      have htable := Nat.eq_of_mul_eq_mul_right (by omega) hzero
      exact absurd htable (by decide)

/-- An inode is read as it was just written. -/
def Ext2Mount.ReadsBack (fs : Ext2Mount) (disk : Mem) (inodeNum : Nat) : Prop :=
  ∀ stale ino, ext2ReadInode fs (ext2WriteInode fs disk inodeNum ino) stale inodeNum =
    some (load ino 0 inodeStructSize)

/-- The write of an inode does not show in any other inode. -/
def Ext2Mount.LeavesOthers (fs : Ext2Mount) (disk : Mem) (groups inodeNum : Nat) : Prop :=
  ∀ m, fs.HasInode groups m → m ≠ inodeNum → ∀ stale ino,
    ext2ReadInode fs (ext2WriteInode fs disk inodeNum ino) stale m = ext2ReadInode fs disk stale m

/-- Two inodes that differ cannot both be what is read. -/
theorem exists_ne_inode (x : Option (List UInt8)) :
    ∃ ino : Mem, some (load ino 0 inodeStructSize) ≠ x := by
  by_contra hall
  simp only [not_exists, not_not] at hall
  exact absurd ((hall fun _ => 0).trans (hall fun _ => 1).symm) (by decide)

theorem readsBack_iff (h : fs.Formatted disk groups) (hn : fs.HasInode groups n) :
    fs.ReadsBack disk n ↔ fs.Found n := by
  constructor
  · intro hback
    refine h.found_of_place hn fun stale => ?_
    by_contra hplace
    obtain ⟨ino, hino⟩ := exists_ne_inode (ext2ReadInode fs disk stale n)
    refine hino ?_
    rw [← hback stale ino, ext2ReadInode_write h hn hn, if_neg hplace]
  · intro hfound stale ino
    rw [ext2ReadInode_write h hn hn, if_pos (hfound.place disk stale)]

/-- The numbers of the inodes of a group. -/
theorem inode_of_index (h : fs.Formatted disk groups) {index : Nat} (hg : g < groups)
    (hindex : index < fs.inodesPerGroup) : fs.HasInode groups (g * fs.inodesPerGroup + index + 1) ∧
      fs.inodeGroup (g * fs.inodesPerGroup + index + 1) = g ∧
      fs.inodeIndex (g * fs.inodesPerGroup + index + 1) = index := by
  have hle : (g + 1) * fs.inodesPerGroup ≤ groups * fs.inodesPerGroup :=
    Nat.mul_le_mul_right _ hg
  rw [Nat.succ_mul] at hle
  refine ⟨⟨Nat.succ_ne_zero _, by omega⟩, ?_, ?_⟩
  · rw [Ext2Mount.inodeGroup, Nat.add_sub_cancel, Nat.mul_comm, Nat.mul_add_div h.inodes,
      Nat.div_eq_of_lt hindex, Nat.add_zero]
  · rw [Ext2Mount.inodeIndex, Nat.add_sub_cancel, Nat.mul_comm, Nat.mul_add_mod,
      Nat.mod_eq_of_lt hindex]

/-- A number is determined by the group and the place in it. -/
theorem inode_eq (hm : m ≠ 0) (hn : n ≠ 0) (hgroup : fs.inodeGroup m = fs.inodeGroup n)
    (hindex : fs.inodeIndex m = fs.inodeIndex n) : m = n := by
  have heq : m - 1 = n - 1 := Nat.ext_div_mod hgroup hindex
  omega

theorem leavesOthers_of_alone (h : fs.Formatted disk groups) (hn : fs.HasInode groups n)
    (hfound : fs.Found n) (halone : fs.Alone groups n) : fs.LeavesOthers disk groups n := by
  intro m hm hmn stale ino
  rw [ext2ReadInode_write h hn hm, if_neg fun hplace => hmn ?_]
  have hgm := h.group_lt hm
  have hgn := h.group_lt hn
  rw [← hfound.place disk stale, Ext2Mount.readerPlace, Ext2Mount.readerPlace,
    Ext2Mount.readerTable, Ext2Mount.readerTable, if_pos hfound.2.2,
    if_pos (by have := halone.2; simp only [bgdSize] at *; omega),
    show sectorStart (fs.inodePos n) = fs.inodePos n from
      Nat.div_mul_cancel (Nat.dvd_of_mod_eq_zero hfound.1)] at hplace
  have hgroup := h.group_of_place hgm hgn hplace
  rw [hgroup, Nat.add_left_cancel_iff] at hplace
  refine inode_eq hm.1 hn.1 hgroup ?_
  -- no inode of the group comes behind the one that begins the sector
  have hle : fs.inodePos n ≤ fs.inodePos m := hplace ▸ Nat.div_mul_le_self ..
  have hindex : fs.inodeIndex n ≤ fs.inodeIndex m :=
    Nat.le_of_mul_le_mul_right hle (by have := h.inodeSize; omega)
  have hlast := halone.1
  have hlt := h.index_lt (n := m)
  omega

/-- The other inode that is read from the sector of the first. -/
theorem not_leavesOthers (h : fs.Formatted disk groups) (stale : Mem) (hn : fs.HasInode groups n)
    (hm : fs.HasInode groups m) (hmn : m ≠ n)
    (hplace : fs.readerPlace disk stale m = fs.writerPlace disk n) :
    ¬ fs.LeavesOthers disk groups n := by
  intro hleaves
  obtain ⟨ino, hino⟩ := exists_ne_inode (ext2ReadInode fs disk stale m)
  refine hino ?_
  rw [← hleaves m hm hmn stale ino, ext2ReadInode_write h hn hm, if_pos hplace]

theorem alone_of_leavesOthers (h : fs.Formatted disk groups) (hn : fs.HasInode groups n)
    (hfound : fs.Found n) (hleaves : fs.LeavesOthers disk groups n) : fs.Alone groups n := by
  have hstart : sectorStart (fs.inodePos n) = fs.inodePos n :=
    Nat.div_mul_cancel (Nat.dvd_of_mod_eq_zero hfound.1)
  have hsize := h.inodeSize
  refine ⟨?_, ?_⟩
  · -- the next inode of the group
    by_contra hlast
    have hlt := h.index_lt (n := n)
    obtain ⟨hm, hgroup, hindex⟩ := inode_of_index h (h.group_lt hn)
      (show fs.inodeIndex n + 1 < fs.inodesPerGroup by omega)
    have hpos : sectorStart (fs.inodePos (fs.inodeGroup n * fs.inodesPerGroup +
        (fs.inodeIndex n + 1) + 1)) = fs.inodePos n := by
      rw [Ext2Mount.inodePos, hindex, Nat.succ_mul, ← Ext2Mount.inodePos, sectorStart_add hfound.1]
      simp only [sectorStart, sectorSize]
      omega
    refine not_leavesOthers h (fun _ => 0) hn hm (fun hmn => ?_) ?_ hleaves
    · rw [hmn] at hindex
      omega
    · rw [← hfound.place disk fun _ => 0, Ext2Mount.readerPlace, hgroup, hpos,
        Ext2Mount.readerPlace, hstart]
  · -- the same inode of a group whose descriptor is not in the block
    by_contra hmany
    have hblock := h.blockSize
    have hg : fs.blockSize / bgdSize < groups := by
      simp only [bgdSize] at *
      omega
    have hbehind : ¬ fs.blockSize / bgdSize * bgdSize < fs.blockSize := by
      simp only [bgdSize]
      omega
    obtain ⟨hm, hgroup, hindex⟩ := inode_of_index h hg (h.index_lt (n := n))
    have htable : getLE (putLE (fun _ => 0) (fs.blockSize / bgdSize * bgdSize + 8) 4
        (fs.inodeTable disk (fs.inodeGroup n))) (fs.blockSize / bgdSize * bgdSize + 8) 4 =
          fs.inodeTable disk (fs.inodeGroup n) := getLE_putLE (getLE_lt ..)
    refine not_leavesOthers h (putLE (fun _ => 0) (fs.blockSize / bgdSize * bgdSize + 8) 4
      (fs.inodeTable disk (fs.inodeGroup n))) hn hm (fun hmn => ?_) ?_ hleaves
    · rw [hmn] at hgroup
      exact hbehind (hgroup ▸ hfound.2.2)
    · rw [← hfound.place disk fun _ => 0, Ext2Mount.readerPlace, Ext2Mount.readerPlace, hgroup,
        Ext2Mount.inodePos, hindex, ← Ext2Mount.inodePos, Ext2Mount.readerTable, if_neg hbehind,
        htable, Ext2Mount.readerTable, if_pos hfound.2.2]

/-- A descriptor is read as it was just written when it begins a sector. -/
theorem bgd_round_trip_iff (h : fs.Formatted disk groups) (g : Nat) :
    (∀ bgd : List UInt8, bgd.length = bgdSize →
      ext2ReadBgd fs (diskWriteBgd fs disk g bgd) g = bgd) ↔ g % 16 = 0 := by
  constructor
  · intro hback
    by_contra hg
    have hread : ∀ bgd : List UInt8, bgd.length = bgdSize →
        ext2ReadBgd fs (diskWriteBgd fs disk g bgd) g = ext2ReadBgd fs disk g := by
      intro bgd hlen
      rw [ext2ReadBgd_eq h, ext2ReadBgd_eq h, diskWriteBgd_eq h disk hlen]
      refine load_store_of_apart (Or.inl ?_)
      simp only [Ext2Mount.bgdOffset, bgdSize]
      omega
    have hzero := hback (List.replicate bgdSize 0) (List.length_replicate ..)
    have hone := hback (List.replicate bgdSize 1) (List.length_replicate ..)
    rw [hread _ (List.length_replicate ..)] at hzero hone
    exact absurd (hzero.symm.trans hone) (by decide)
  · intro hg bgd hlen
    rw [ext2ReadBgd_eq h, diskWriteBgd_eq h disk hlen, Nat.div_mul_cancel
      (Nat.dvd_of_mod_eq_zero hg), ← hlen, load_store]

end

/-- A volume of one group: eight inodes of 128 bytes, their table in block 5. -/
def oneGroup : Ext2Mount := ⟨1024, 8, 128⟩

def oneGroupDisk : Mem := fun i => if i = 2048 + 8 then 5 else 0

theorem oneGroup_formatted : oneGroup.Formatted oneGroupDisk 1 where
  blockSize := Or.inl rfl
  inodeSize := Or.inl rfl
  inodes := by decide
  small := by decide
  apart := by decide
  behind := by decide

end Lestra
