import Lestra.Lib.Bitmap
import Lestra.Lib.Count
import Lestra.Lib.Run
import Mathlib.Data.Nat.ModEq

/-!
# ext2: the allocators

`ext2_alloc_block`, `ext2_free_block`, `ext2_alloc_inode`, `ext2_free_inode`.
Blocks and inodes are handed out the same way: the first group that counts a
free one, the first clear bit of its bitmap. The reads and writes of group
descriptors and blocks succeed, and the descriptors are not seen through the
blocks that hold them; the bitmaps are blocks of the disk, so that a block that
is cleared may be one of them.

The format numbers blocks from `s_first_data_block` on: bit `k` of group `g`
is block `s_first_data_block + g * s_blocks_per_group + k`. The driver leaves
the first data block out.
-/

namespace Lestra

-- ---------------------------------------------------------------------------
-- The driver
-- ---------------------------------------------------------------------------

/-- `struct ext2_superblock`: the geometry and the counters. -/
structure Ext2Superblock where
  inodesCount : Nat
  blocksCount : Nat
  freeBlocksCount : Nat
  freeInodesCount : Nat
  firstDataBlock : Nat
  logBlockSize : Nat
  blocksPerGroup : Nat
  inodesPerGroup : Nat

/-- `struct ext2_bgd`. -/
structure Ext2Bgd where
  blockBitmap : Nat
  inodeBitmap : Nat
  freeBlocksCount : Nat
  freeInodesCount : Nat

/-- What the two pairs of functions allocate from. -/
inductive Ext2Map where
  | blocks
  | inodes
deriving DecidableEq

def Ext2Superblock.count (sb : Ext2Superblock) : Ext2Map → Nat
  | .blocks => sb.blocksCount
  | .inodes => sb.inodesCount

def Ext2Superblock.perGroup (sb : Ext2Superblock) : Ext2Map → Nat
  | .blocks => sb.blocksPerGroup
  | .inodes => sb.inodesPerGroup

def Ext2Superblock.free (sb : Ext2Superblock) : Ext2Map → Nat
  | .blocks => sb.freeBlocksCount
  | .inodes => sb.freeInodesCount

def Ext2Superblock.setFree (sb : Ext2Superblock) : Ext2Map → Nat → Ext2Superblock
  | .blocks, n => { sb with freeBlocksCount := n }
  | .inodes, n => { sb with freeInodesCount := n }

def Ext2Bgd.bitmap (bgd : Ext2Bgd) : Ext2Map → Nat
  | .blocks => bgd.blockBitmap
  | .inodes => bgd.inodeBitmap

def Ext2Bgd.free (bgd : Ext2Bgd) : Ext2Map → Nat
  | .blocks => bgd.freeBlocksCount
  | .inodes => bgd.freeInodesCount

def Ext2Bgd.setFree (bgd : Ext2Bgd) : Ext2Map → Nat → Ext2Bgd
  | .blocks, n => { bgd with freeBlocksCount := n }
  | .inodes, n => { bgd with freeInodesCount := n }

/-- The superblock in memory, the group descriptors, and the bytes of the blocks. -/
structure Ext2 where
  sb : Ext2Superblock
  bgd : Nat → Ext2Bgd
  disk : Nat → Nat → BitVec 8

def Ext2.blockSize (s : Ext2) : Nat := 1024 <<< s.sb.logBlockSize

def Ext2.writeBlock (s : Ext2) (blockNum : Nat) (buf : Nat → BitVec 8) : Ext2 :=
  { s with disk := Function.update s.disk blockNum buf }

/-- The bitmap goes back to its block, the counts to the descriptor and the superblock. -/
def Ext2.writeBitmap (s : Ext2) (m : Ext2Map) (g : Nat) (bmp : Nat → BitVec 8)
    (groupFree free : Nat) : Ext2 :=
  { s.writeBlock ((s.bgd g).bitmap m) bmp with
    bgd := Function.update s.bgd g ((s.bgd g).setFree m groupFree)
    sb := s.sb.setFree m free }

def ext2NumGroups (s : Ext2) (m : Ext2Map) : Nat :=
  (s.sb.count m + s.sb.perGroup m - 1) % 2 ^ 32 / s.sb.perGroup m

/-- The group, the byte and the bit that the loops stop at. -/
def ext2FindFree (s : Ext2) (m : Ext2Map) : Option (Nat × Nat × Nat) :=
  (List.range (ext2NumGroups s m)).findSome? fun g =>
    if (s.bgd g).free m = 0 then none
    else (Bitmap.firstClear (s.disk ((s.bgd g).bitmap m)) s.blockSize).map fun p => (g, p)

/-- The bit is set, and the counts of the group and of the superblock go down. -/
def ext2Take (s : Ext2) (m : Ext2Map) : Ext2 × Option Nat :=
  match ext2FindFree s m with
  | none => (s, none)
  | some (g, i, bit) =>
    (s.writeBitmap m g (Bitmap.set (s.disk ((s.bgd g).bitmap m)) (i * 8 + bit))
      (((s.bgd g).free m + (2 ^ 16 - 1)) % 2 ^ 16) ((s.sb.free m + (2 ^ 32 - 1)) % 2 ^ 32),
      some (g * s.sb.perGroup m + i * 8 + bit))

/-- The bit of number `n` is cleared, and the counts go up. -/
def ext2Release (s : Ext2) (m : Ext2Map) (n : Nat) : Ext2 :=
  let group := n / s.sb.perGroup m
  let index := n % s.sb.perGroup m
  if index / 8 ≥ s.blockSize then s
  else s.writeBitmap m group (Bitmap.clear (s.disk ((s.bgd group).bitmap m)) index)
    (((s.bgd group).free m + 1) % 2 ^ 16) ((s.sb.free m + 1) % 2 ^ 32)

def ext2AllocBlock (s : Ext2) : Ext2 × Nat :=
  match ext2Take s .blocks with
  | (s', none) => (s', 0)
  | (s', some n) => (s'.writeBlock (n % 2 ^ 32) fun _ => 0, n % 2 ^ 32)

def ext2FreeBlock (s : Ext2) (blockNum : Nat) : Ext2 :=
  if blockNum = 0 then s else ext2Release s .blocks blockNum

def ext2AllocInode (s : Ext2) : Ext2 × Nat :=
  match ext2Take s .inodes with
  | (s', none) => (s', 0)
  | (s', some n) => (s', (n + 1) % 2 ^ 32)

def ext2FreeInode (s : Ext2) (inodeNum : Nat) : Ext2 :=
  if inodeNum = 0 then s else ext2Release s .inodes (inodeNum - 1)

-- ---------------------------------------------------------------------------
-- The format
-- ---------------------------------------------------------------------------

/-- The number of the first block of the bitmaps, the number of the first inode. -/
def Ext2.first (s : Ext2) : Ext2Map → Nat
  | .blocks => s.sb.firstDataBlock
  | .inodes => 1

/-- How many blocks, and how many inodes, the bitmaps describe. -/
def Ext2.total (s : Ext2) : Ext2Map → Nat
  | .blocks => s.sb.blocksCount - s.sb.firstDataBlock
  | .inodes => s.sb.inodesCount

/-- The bit of block `first + k`, or of inode `first + k`. -/
def Ext2.marked (s : Ext2) (m : Ext2Map) (k : Nat) : Bool :=
  Bitmap.test (s.disk ((s.bgd (k / s.sb.perGroup m)).bitmap m)) (k % s.sb.perGroup m)

def Ext2.IsFree (s : Ext2) (m : Ext2Map) (k : Nat) : Prop := k < s.total m ∧ s.marked m k = false

instance (s : Ext2) (m : Ext2Map) : DecidablePred (s.IsFree m) := fun _ => instDecidableAnd

/-- The groups that have a block, or an inode. -/
def Ext2.HasGroup (s : Ext2) (m : Ext2Map) (g : Nat) : Prop := g * s.sb.perGroup m < s.total m

/-- The superblock is the first block; the bitmaps have a block each. -/
def Ext2.IsMeta (s : Ext2) (k : Nat) : Prop :=
  k = 0 ∨ ∃ m g, s.HasGroup m g ∧ (s.bgd g).bitmap m = s.sb.firstDataBlock + k

structure Ext2.Consistent (s : Ext2) : Prop where
  logBlockSize : s.sb.logBlockSize ≤ 2
  count_lt : ∀ m, s.sb.count m < 2 ^ 32
  perGroup_pos : ∀ m, 0 < s.sb.perGroup m
  perGroup_le : ∀ m, s.sb.perGroup m ≤ s.blockSize * 8
  first_lt : s.sb.firstDataBlock < s.sb.blocksPerGroup
  superblock : 0 < s.total .blocks ∧ s.marked .blocks 0 = true
  bitmap : ∀ m g, s.HasGroup m g → ∃ k < s.total .blocks,
    (s.bgd g).bitmap m = s.sb.firstDataBlock + k ∧ s.marked .blocks k = true
  distinct : ∀ m g m' g', s.HasGroup m g → s.HasGroup m' g' →
    (s.bgd g).bitmap m = (s.bgd g').bitmap m' → m = m' ∧ g = g'
  group_free : ∀ m g, s.HasGroup m g →
    (s.bgd g).free m = Nat.count (fun j => s.IsFree m (g * s.sb.perGroup m + j)) (s.sb.perGroup m)
  free : ∀ m, s.sb.free m = Nat.count (s.IsFree m) (s.total m)

/-- `s'` is `s` where the one thing number `k` was freed. -/
structure Ext2.Frees (s s' : Ext2) (m : Ext2Map) (k : Nat) : Prop where
  lt : k < s.total m
  before : s.marked m k = true
  after : s'.marked m k = false
  others : ∀ m' k', k' < s.total m' → (m' = m → k' ≠ k) → s'.marked m' k' = s.marked m' k'
  layout : ∀ m', s'.sb.count m' = s.sb.count m' ∧ s'.sb.perGroup m' = s.sb.perGroup m' ∧
    ∀ g, (s'.bgd g).bitmap m' = (s.bgd g).bitmap m'
  geometry : s'.sb.firstDataBlock = s.sb.firstDataBlock ∧ s'.sb.logBlockSize = s.sb.logBlockSize
  free : ∀ m', s'.sb.free m' = s.sb.free m' + if m' = m then 1 else 0
  group_free : ∀ m' g, s.HasGroup m' g → (s'.bgd g).free m' =
    (s.bgd g).free m' + if m' = m ∧ g = k / s.sb.perGroup m then 1 else 0

/-- Nothing is handed out, or one thing that was marked free, which is marked now. -/
def AllocLaw (s : Ext2) (m : Ext2Map) (r : Ext2 × Nat) : Prop :=
  (r.2 = 0 ∧ r.1 = s) ∨ ∃ k, r.2 = s.first m + k ∧ r.1.Frees s m k ∧ r.1.Consistent

/-- The thing number `n` is marked free again, and nothing else is. -/
def FreeLaw (s : Ext2) (m : Ext2Map) (n : Nat) (s' : Ext2) : Prop :=
  ∀ k, n = s.first m + k → s.Frees s' m k ∧ s'.Consistent

inductive Ext2Op where
  | allocBlock
  | freeBlock (blockNum : Nat)
  | allocInode
  | freeInode (inodeNum : Nat)

def ext2Step (s : Ext2) : Ext2Op → Ext2
  | .allocBlock => (ext2AllocBlock s).1
  | .freeBlock blockNum => ext2FreeBlock s blockNum
  | .allocInode => (ext2AllocInode s).1
  | .freeInode inodeNum => ext2FreeInode s inodeNum

/-- What is freed was handed out: it is marked, and is neither the superblock nor a bitmap. -/
def ext2Owned (s : Ext2) : Ext2Op → Prop
  | .freeBlock blockNum => ∃ k < s.total .blocks, blockNum = s.first .blocks + k ∧
      s.marked .blocks k = true ∧ ¬ s.IsMeta k
  | .freeInode inodeNum => ∃ k < s.total .inodes, inodeNum = s.first .inodes + k ∧
      s.marked .inodes k = true
  | _ => True

def Ext2Law (s : Ext2) : Ext2Op → Prop
  | .allocBlock => AllocLaw s .blocks (ext2AllocBlock s)
  | .freeBlock blockNum => FreeLaw s .blocks blockNum (ext2FreeBlock s blockNum)
  | .allocInode => AllocLaw s .inodes (ext2AllocInode s)
  | .freeInode inodeNum => FreeLaw s .inodes inodeNum (ext2FreeInode s inodeNum)

/-- No group that `ext2_alloc_block` looks at counts a free block and has a clear bit. -/
def Ext2.NothingToTake (s : Ext2) : Prop :=
  ∀ g < ext2NumGroups s .blocks, (s.bgd g).freeBlocksCount = 0 ∨
    ∀ j < s.blockSize * 8, Bitmap.test (s.disk (s.bgd g).blockBitmap) j = true

/-- The calls that number their things as the format does. -/
def ext2NumbersRight (s : Ext2) : Ext2Op → Prop
  | .allocBlock => s.sb.firstDataBlock = 0 ∨ s.NothingToTake
  | .freeBlock _ => s.sb.firstDataBlock = 0
  | _ => True

-- ---------------------------------------------------------------------------
-- One bit changes
-- ---------------------------------------------------------------------------

section

variable {s s' : Ext2} {m m' : Ext2Map} {g k : Nat}

@[simp] theorem setFree_free (sb : Ext2Superblock) (m m' : Ext2Map) (n : Nat) :
    (sb.setFree m n).free m' = if m' = m then n else sb.free m' := by
  cases m <;> cases m' <;> rfl

@[simp] theorem setFree_count (sb : Ext2Superblock) (m m' : Ext2Map) (n : Nat) :
    (sb.setFree m n).count m' = sb.count m' := by
  cases m <;> cases m' <;> rfl

@[simp] theorem setFree_perGroup (sb : Ext2Superblock) (m m' : Ext2Map) (n : Nat) :
    (sb.setFree m n).perGroup m' = sb.perGroup m' := by
  cases m <;> cases m' <;> rfl

@[simp] theorem setFree_firstDataBlock (sb : Ext2Superblock) (m : Ext2Map) (n : Nat) :
    (sb.setFree m n).firstDataBlock = sb.firstDataBlock := by
  cases m <;> rfl

@[simp] theorem setFree_logBlockSize (sb : Ext2Superblock) (m : Ext2Map) (n : Nat) :
    (sb.setFree m n).logBlockSize = sb.logBlockSize := by
  cases m <;> rfl

@[simp] theorem bgd_setFree_free (bgd : Ext2Bgd) (m m' : Ext2Map) (n : Nat) :
    (bgd.setFree m n).free m' = if m' = m then n else bgd.free m' := by
  cases m <;> cases m' <;> rfl

@[simp] theorem bgd_setFree_bitmap (bgd : Ext2Bgd) (m m' : Ext2Map) (n : Nat) :
    (bgd.setFree m n).bitmap m' = bgd.bitmap m' := by
  cases m <;> cases m' <;> rfl

/-- Freeing keeps the layout, in both directions. -/
theorem Ext2.Frees.total_eq (h : s.Frees s' m k) (m' : Ext2Map) : s'.total m' = s.total m' := by
  cases m' with
  | blocks => rw [Ext2.total, Ext2.total, h.geometry.1, show s'.sb.blocksCount = s.sb.blocksCount
      from (h.layout .blocks).1]
  | inodes => exact (h.layout .inodes).1

theorem Ext2.Frees.hasGroup_iff (h : s.Frees s' m k) : s'.HasGroup m' g ↔ s.HasGroup m' g := by
  rw [Ext2.HasGroup, Ext2.HasGroup, h.total_eq, (h.layout m').2.1]

theorem Ext2.Frees.isFree_iff (h : s.Frees s' m k) (k' : Nat) :
    s'.IsFree m' k' ↔ s.IsFree m' k' ∨ (m' = m ∧ k' = k) := by
  rw [Ext2.IsFree, Ext2.IsFree, h.total_eq]
  by_cases hk : m' = m ∧ k' = k
  · obtain ⟨rfl, rfl⟩ := hk
    simp [h.lt, h.after]
  · rw [or_iff_left hk]
    refine and_congr_right fun hlt => ?_
    rw [h.others m' k' hlt fun hm hkk => hk ⟨hm, hkk⟩]

theorem Ext2.Frees.marked_mono (h : s.Frees s' m k) {k' : Nat} (hlt : k' < s.total m')
    (hmark : s'.marked m' k' = true) : s.marked m' k' = true := by
  by_cases hk : m' = m ∧ k' = k
  · obtain ⟨rfl, rfl⟩ := hk
    exact h.before
  · rw [← h.others m' k' hlt fun hm hkk => hk ⟨hm, hkk⟩]
    exact hmark

theorem Ext2.Frees.count_free (h : s.Frees s' m k) :
    Nat.count (s'.IsFree m') (s'.total m') =
      Nat.count (s.IsFree m') (s.total m') + if m' = m then 1 else 0 := by
  rw [h.total_eq]
  by_cases hm : m' = m
  · subst hm
    rw [if_pos rfl]
    refine Count.count_insert_lt h.lt (fun k' _ => ?_) fun hfree => ?_
    · rw [h.isFree_iff, and_iff_right rfl]
    · exact absurd hfree.2 (by rw [h.before]; decide)
  · rw [if_neg hm]
    refine Count.count_congr fun k' _ => ?_
    rw [h.isFree_iff]
    exact or_iff_left fun hcon => hm hcon.1

theorem Ext2.Frees.count_group (h : s.Frees s' m k) (hpos : 0 < s.sb.perGroup m') :
    Nat.count (fun j => s'.IsFree m' (g * s'.sb.perGroup m' + j)) (s'.sb.perGroup m') =
      Nat.count (fun j => s.IsFree m' (g * s.sb.perGroup m' + j)) (s.sb.perGroup m') +
        if m' = m ∧ g = k / s.sb.perGroup m then 1 else 0 := by
  rw [(h.layout m').2.1]
  by_cases hm : m' = m ∧ g = k / s.sb.perGroup m
  · obtain ⟨rfl, rfl⟩ := hm
    rw [if_pos ⟨rfl, rfl⟩]
    have hk : k / s.sb.perGroup m' * s.sb.perGroup m' + k % s.sb.perGroup m' = k := by
      rw [Nat.mul_comm]
      exact Nat.div_add_mod _ _
    refine Count.count_insert_lt (Nat.mod_lt k hpos) (fun j _ => ?_) fun hfree => ?_
    · rw [h.isFree_iff, and_iff_right rfl]
      refine or_congr Iff.rfl ?_
      omega
    · rw [hk] at hfree
      exact absurd hfree.2 (by rw [h.before]; decide)
  · rw [if_neg hm]
    refine Count.count_congr fun j hj => ?_
    rw [h.isFree_iff]
    refine or_iff_left ?_
    rintro ⟨rfl, hk⟩
    refine hm ⟨rfl, ?_⟩
    rw [← hk, Nat.mul_comm, Nat.mul_add_div hpos, Nat.div_eq_of_lt hj, Nat.add_zero]

/-- Freeing anything but the superblock and a bitmap keeps the image consistent. -/
theorem Ext2.Consistent.freed (hs : s.Consistent) (h : s.Frees s' m k)
    (hmeta : m = .blocks → ¬ s.IsMeta k) : s'.Consistent where
  logBlockSize := by rw [h.geometry.2]; exact hs.logBlockSize
  count_lt m' := by rw [(h.layout m').1]; exact hs.count_lt m'
  perGroup_pos m' := by rw [(h.layout m').2.1]; exact hs.perGroup_pos m'
  perGroup_le m' := by
    rw [(h.layout m').2.1, Ext2.blockSize, h.geometry.2]
    exact hs.perGroup_le m'
  first_lt := by
    rw [h.geometry.1, show s'.sb.blocksPerGroup = _ from (h.layout .blocks).2.1]
    exact hs.first_lt
  superblock := by
    rw [h.total_eq]
    refine ⟨hs.superblock.1, ?_⟩
    rw [h.others .blocks 0 hs.superblock.1 fun hm hk => hmeta hm.symm (.inl hk.symm)]
    exact hs.superblock.2
  bitmap m' g hg := by
    have hg' := h.hasGroup_iff.mp hg
    obtain ⟨k', hlt, hbit, hmark⟩ := hs.bitmap m' g hg'
    rw [h.total_eq, (h.layout m').2.2, h.geometry.1]
    refine ⟨k', hlt, hbit, ?_⟩
    rw [h.others .blocks k' hlt fun hm hk => hmeta hm.symm (.inr ⟨m', g, hg', hk ▸ hbit⟩)]
    exact hmark
  distinct m₁ g₁ m₂ g₂ h₁ h₂ heq := by
    rw [(h.layout m₁).2.2, (h.layout m₂).2.2] at heq
    exact hs.distinct m₁ g₁ m₂ g₂ (h.hasGroup_iff.mp h₁) (h.hasGroup_iff.mp h₂) heq
  group_free m' g hg := by
    have hg' := h.hasGroup_iff.mp hg
    rw [h.group_free m' g hg', h.count_group (hs.perGroup_pos m'), hs.group_free m' g hg']
  free m' := by rw [h.free, h.count_free, hs.free]

/-- So does marking anything. -/
theorem Ext2.Consistent.taken (hs : s'.Consistent) (h : s.Frees s' m k) : s.Consistent where
  logBlockSize := by rw [← h.geometry.2]; exact hs.logBlockSize
  count_lt m' := by rw [← (h.layout m').1]; exact hs.count_lt m'
  perGroup_pos m' := by rw [← (h.layout m').2.1]; exact hs.perGroup_pos m'
  perGroup_le m' := by
    rw [← (h.layout m').2.1, Ext2.blockSize, ← h.geometry.2]
    exact hs.perGroup_le m'
  first_lt := by
    rw [← h.geometry.1, show s.sb.blocksPerGroup = _ from (h.layout .blocks).2.1.symm]
    exact hs.first_lt
  superblock := by
    rw [← h.total_eq]
    exact ⟨hs.superblock.1, h.marked_mono (h.total_eq _ ▸ hs.superblock.1) hs.superblock.2⟩
  bitmap m' g hg := by
    obtain ⟨k', hlt, hbit, hmark⟩ := hs.bitmap m' g (h.hasGroup_iff.mpr hg)
    rw [(h.layout m').2.2, h.geometry.1] at hbit
    rw [h.total_eq] at hlt
    exact ⟨k', hlt, hbit, h.marked_mono hlt hmark⟩
  distinct m₁ g₁ m₂ g₂ h₁ h₂ heq := by
    rw [← (h.layout m₁).2.2, ← (h.layout m₂).2.2] at heq
    exact hs.distinct m₁ g₁ m₂ g₂ (h.hasGroup_iff.mpr h₁) (h.hasGroup_iff.mpr h₂) heq
  group_free m' g hg := by
    have hold := hs.group_free m' g (h.hasGroup_iff.mpr hg)
    rw [h.group_free m' g hg,
      h.count_group ((h.layout m').2.1 ▸ hs.perGroup_pos m')] at hold
    exact Nat.add_right_cancel hold
  free m' := by
    have hold := hs.free m'
    rw [h.free, h.count_free] at hold
    exact Nat.add_right_cancel hold

theorem Ext2.hasGroup_div (h : k < s.total m) : s.HasGroup m (k / s.sb.perGroup m) :=
  Nat.lt_of_le_of_lt (Nat.div_mul_le_self _ _) h

theorem Ext2.Consistent.total_lt (hs : s.Consistent) (m : Ext2Map) : s.total m < 2 ^ 32 := by
  have hcount := hs.count_lt m
  cases m with
  | blocks => exact Nat.lt_of_le_of_lt (Nat.sub_le _ _) hcount
  | inodes => exact hcount

theorem Ext2.Consistent.perGroup_le' (hs : s.Consistent) (m : Ext2Map) :
    s.sb.perGroup m ≤ 2 ^ 15 := by
  refine (hs.perGroup_le m).trans ?_
  have hlog : s.blockSize ≤ 1024 <<< 2 := by
    rw [Ext2.blockSize, Nat.shiftLeft_eq, Nat.shiftLeft_eq]
    exact Nat.mul_le_mul_left _ (Nat.pow_le_pow_right (by decide) hs.logBlockSize)
  omega

/-- The counters are not zero where something is free, and full where something is not. -/
theorem Ext2.Consistent.counts_pos (hs : s.Consistent) (h : s.IsFree m k) :
    s.sb.free m ≠ 0 ∧ (s.bgd (k / s.sb.perGroup m)).free m ≠ 0 := by
  rw [hs.free, hs.group_free m _ (Ext2.hasGroup_div h.1)]
  refine ⟨Nat.count_ne_iff_exists.mpr ⟨k, h.1, h⟩, Nat.count_ne_iff_exists.mpr
    ⟨k % s.sb.perGroup m, Nat.mod_lt k (hs.perGroup_pos m), ?_⟩⟩
  rw [Nat.mul_comm, Nat.div_add_mod]
  exact h

theorem Ext2.Consistent.counts_lt (hs : s.Consistent) (m : Ext2Map) :
    s.sb.free m ≤ s.total m ∧ ∀ g, s.HasGroup m g → (s.bgd g).free m ≤ s.sb.perGroup m := by
  refine ⟨hs.free m ▸ Nat.count_le _, fun g hg => ?_⟩
  rw [hs.group_free m g hg]
  exact Nat.count_le _

theorem Ext2.Consistent.free_lt_total (hs : s.Consistent) (hlt : k < s.total m)
    (hmark : s.marked m k = true) : s.sb.free m < s.total m := by
  refine Nat.lt_of_le_of_ne (hs.counts_lt m).1 fun heq => ?_
  rw [hs.free, Nat.count_iff_forall] at heq
  exact absurd (heq k hlt).2 (by rw [hmark]; decide)

theorem writeBitmap_bgd {bmp : Nat → BitVec 8} {n n' : Nat} :
    (s.writeBitmap m g bmp n n').bgd = Function.update s.bgd g ((s.bgd g).setFree m n) := rfl

theorem writeBitmap_layout {bmp : Nat → BitVec 8} {n n' : Nat} :
    (s.writeBitmap m g bmp n n').sb.count m' = s.sb.count m' ∧
      (s.writeBitmap m g bmp n n').sb.perGroup m' = s.sb.perGroup m' ∧
      ∀ g', ((s.writeBitmap m g bmp n n').bgd g').bitmap m' = (s.bgd g').bitmap m' := by
  refine ⟨setFree_count _ _ _ _, setFree_perGroup _ _ _ _, fun g' => ?_⟩
  rw [writeBitmap_bgd]
  by_cases hgg : g' = g
  · rw [hgg, Function.update_self, bgd_setFree_bitmap]
  · rw [Function.update_of_ne hgg]

theorem writeBitmap_total {bmp : Nat → BitVec 8} {n n' : Nat} :
    (s.writeBitmap m g bmp n n').total m' = s.total m' := by
  cases m <;> cases m' <;> rfl

theorem marked_writeBitmap (hs : s.Consistent) (hg : s.HasGroup m g) {bmp : Nat → BitVec 8}
    {n n' k' : Nat} (hlt : k' < s.total m') :
    (s.writeBitmap m g bmp n n').marked m' k' =
      if m' = m ∧ k' / s.sb.perGroup m' = g then Bitmap.test bmp (k' % s.sb.perGroup m')
      else s.marked m' k' := by
  obtain ⟨-, hper, hbitmap⟩ : _ ∧ _ ∧ ∀ g', ((s.writeBitmap m g bmp n n').bgd g').bitmap m' = _ :=
    writeBitmap_layout
  rw [Ext2.marked, hper, hbitmap, Ext2.marked]
  show Bitmap.test (Function.update s.disk ((s.bgd g).bitmap m) bmp _) _ = _
  by_cases hsame : m' = m ∧ k' / s.sb.perGroup m' = g
  · rw [if_pos hsame, hsame.1, ← hsame.1, hsame.2, hsame.1, Function.update_self]
  · rw [if_neg hsame, Function.update_of_ne]
    exact fun heq => hsame (hs.distinct m' _ m g (Ext2.hasGroup_div hlt) hg heq)

theorem writeBitmap_group_free {bmp : Nat → BitVec 8} {n n' g' : Nat} :
    ((s.writeBitmap m g bmp n n').bgd g').free m' =
      if m' = m ∧ g' = g then n else (s.bgd g').free m' := by
  rw [writeBitmap_bgd]
  by_cases hgg : g' = g
  · rw [hgg, Function.update_self, bgd_setFree_free]
    simp only [and_true]
  · rw [Function.update_of_ne hgg, if_neg fun h => hgg h.2]

/-- `ext2_free_block` and `ext2_free_inode`, at the bit of the format. -/
theorem Ext2.Consistent.release (hs : s.Consistent) (hlt : k < s.total m)
    (hmark : s.marked m k = true) : s.Frees (ext2Release s m k) m k := by
  have hg := Ext2.hasGroup_div hlt
  have hmod := Nat.mod_lt k (hs.perGroup_pos m)
  have hper := hs.perGroup_le m
  have htotal := hs.total_lt m
  have hfull := hs.free_lt_total hlt hmark
  have hgroup := (hs.counts_lt m).2 _ hg
  have hlarge := hs.perGroup_le' m
  rw [ext2Release, if_neg (by omega)]
  refine ⟨hlt, hmark, ?_, fun m' k' hlt' hne => ?_, fun _ => writeBitmap_layout,
    ⟨setFree_firstDataBlock _ _ _, setFree_logBlockSize _ _ _⟩, fun m' => ?_, fun m' g _ => ?_⟩
  · rw [marked_writeBitmap hs hg hlt, if_pos ⟨rfl, rfl⟩, Bitmap.test_clear, decide_eq_false (by simp),
      Bool.and_false]
  · rw [marked_writeBitmap hs hg hlt']
    split
    · rename_i h
      obtain ⟨rfl, hdiv⟩ := h
      have hplace : k' % s.sb.perGroup m' ≠ k % s.sb.perGroup m' :=
        fun h => hne rfl (Nat.ext_div_mod hdiv h)
      rw [Bitmap.test_clear, decide_eq_true hplace, Bool.and_true, Ext2.marked, hdiv]
    · rfl
  · show (s.sb.setFree m _).free m' = _
    rw [setFree_free]
    split
    · rename_i h
      rw [h, Nat.mod_eq_of_lt (by omega)]
    · rw [Nat.add_zero]
  · rw [writeBitmap_group_free]
    split
    · rename_i h
      rw [h.1, h.2, Nat.mod_eq_of_lt (by omega)]
    · rw [Nat.add_zero]

/-- `ext2_alloc_block` and `ext2_alloc_inode`, at a clear bit of the format. -/
theorem Ext2.Consistent.take (hs : s.Consistent) (hfree : s.IsFree m k) :
    (s.writeBitmap m (k / s.sb.perGroup m)
      (Bitmap.set (s.disk ((s.bgd (k / s.sb.perGroup m)).bitmap m)) (k % s.sb.perGroup m))
      (((s.bgd (k / s.sb.perGroup m)).free m + (2 ^ 16 - 1)) % 2 ^ 16)
      ((s.sb.free m + (2 ^ 32 - 1)) % 2 ^ 32)).Frees s m k := by
  obtain ⟨hlt, hclear⟩ := id hfree
  have hg := Ext2.hasGroup_div hlt
  have htotal := hs.total_lt m
  obtain ⟨hpos, hgpos⟩ := hs.counts_pos hfree
  obtain ⟨hle, hgle⟩ := hs.counts_lt m
  have hgle := hgle _ hg
  have hlarge := hs.perGroup_le' m
  refine ⟨writeBitmap_total.symm ▸ hlt, ?_, hclear, fun m' k' hlt' hne => ?_, fun m' => ?_,
    ⟨(setFree_firstDataBlock _ _ _).symm, (setFree_logBlockSize _ _ _).symm⟩, fun m' => ?_,
    fun m' g hg' => ?_⟩
  · rw [marked_writeBitmap hs hg hlt, if_pos ⟨rfl, rfl⟩, Bitmap.test_set, decide_eq_true rfl,
      Bool.or_true]
  · rw [marked_writeBitmap hs hg (writeBitmap_total ▸ hlt')]
    split
    · rename_i h
      obtain ⟨rfl, hdiv⟩ := h
      have hplace : k' % s.sb.perGroup m' ≠ k % s.sb.perGroup m' :=
        fun h => hne rfl (Nat.ext_div_mod hdiv h)
      rw [Bitmap.test_set, decide_eq_false hplace, Bool.or_false, Ext2.marked, hdiv]
    · rfl
  · obtain ⟨hcount, hper, hbitmap⟩ := writeBitmap_layout
    exact ⟨hcount.symm, hper.symm, fun g' => (hbitmap g').symm⟩
  · show _ = (s.sb.setFree m _).free m' + _
    rw [setFree_free]
    split
    · rename_i h
      rw [h]
      omega
    · rw [Nat.add_zero]
  · rw [writeBitmap_group_free, writeBitmap_layout.2.1]
    split
    · rename_i h
      rw [h.1, h.2]
      omega
    · rw [Nat.add_zero]

-- ---------------------------------------------------------------------------
-- The search
-- ---------------------------------------------------------------------------

variable {i bit : Nat}

/-- The allocators find nothing in group `g`. -/
def Ext2.Skipped (s : Ext2) (m : Ext2Map) (g : Nat) : Prop :=
  (s.bgd g).free m = 0 ∨
    ∀ j < s.blockSize * 8, Bitmap.test (s.disk ((s.bgd g).bitmap m)) j = true

theorem skipped_iff : (if (s.bgd g).free m = 0 then none
    else (Bitmap.firstClear (s.disk ((s.bgd g).bitmap m)) s.blockSize).map fun p => (g, p)) =
      none ↔ s.Skipped m g := by
  rw [Ext2.Skipped]
  split
  · rename_i h
    exact iff_of_true rfl (.inl h)
  · rename_i h
    rw [Option.map_eq_none_iff, Bitmap.firstClear_none, or_iff_right h]

theorem ext2FindFree_none : ext2FindFree s m = none ↔ ∀ g < ext2NumGroups s m, s.Skipped m g := by
  rw [ext2FindFree, FirstFit.findSome_range_none]
  exact forall₂_congr fun g _ => skipped_iff

theorem ext2FindFree_some (h : ext2FindFree s m = some (g, i, bit)) :
    g < ext2NumGroups s m ∧ (s.bgd g).free m ≠ 0 ∧
      Bitmap.test (s.disk ((s.bgd g).bitmap m)) (i * 8 + bit) = false ∧
      (∀ j < i * 8 + bit, Bitmap.test (s.disk ((s.bgd g).bitmap m)) j = true) ∧
      ∀ g' < g, s.Skipped m g' := by
  obtain ⟨g', hlt, hfound, hbefore⟩ := FirstFit.findSome_range_some.mp h
  split at hfound
  · exact absurd hfound (by simp)
  · rename_i hfree
    obtain ⟨p, hscan, heq⟩ := Option.map_eq_some_iff.mp hfound
    obtain ⟨rfl, rfl⟩ := Prod.mk.inj heq
    obtain ⟨-, -, hclear, hset⟩ := Bitmap.firstClear_some hscan
    exact ⟨hlt, hfree, hclear, hset, fun j hj => skipped_iff.mp (hbefore j hj)⟩

theorem marked_at {j : Nat} (hj : j < s.sb.perGroup m) :
    s.marked m (g * s.sb.perGroup m + j) =
      Bitmap.test (s.disk ((s.bgd g).bitmap m)) j := by
  have hpos : 0 < s.sb.perGroup m := by omega
  rw [Ext2.marked, Nat.mul_comm, Nat.mul_add_div hpos, Nat.div_eq_of_lt hj, Nat.add_zero,
    Nat.mul_add_mod, Nat.mod_eq_of_lt hj]

/-- What is found in a group of the format is free. -/
theorem Ext2.Consistent.found (hs : s.Consistent) (h : ext2FindFree s m = some (g, i, bit))
    (hg : s.HasGroup m g) :
    i * 8 + bit < s.sb.perGroup m ∧ s.IsFree m (g * s.sb.perGroup m + (i * 8 + bit)) := by
  obtain ⟨-, hfree, hclear, hset, -⟩ := ext2FindFree_some h
  rw [hs.group_free m g hg, Nat.count_ne_iff_exists] at hfree
  obtain ⟨j, hj, hlt, hmark⟩ := hfree
  rw [marked_at hj] at hmark
  have hle : i * 8 + bit ≤ j := by
    by_contra hcon
    rw [hset j (by omega)] at hmark
    exact absurd hmark (by decide)
  refine ⟨by omega, by omega, ?_⟩
  rw [marked_at (by omega)]
  exact hclear

/-- Everything that comes before it in the bitmaps is marked. -/
theorem Ext2.Consistent.marked_before (hs : s.Consistent)
    (h : ext2FindFree s m = some (g, i, bit)) (hlt : k < s.total m)
    (hk : k < g * s.sb.perGroup m + (i * 8 + bit)) : s.marked m k = true := by
  have hmod := Nat.mod_lt k (hs.perGroup_pos m)
  have hper := hs.perGroup_le m
  have hsplit := Nat.div_add_mod k (s.sb.perGroup m)
  obtain ⟨-, -, -, hset, hskip⟩ := ext2FindFree_some h
  rcases Nat.lt_trichotomy (k / s.sb.perGroup m) g with hbefore | heq | hafter
  · rcases hskip _ hbefore with hnone | hall
    · by_contra hmark
      rw [Bool.not_eq_true] at hmark
      exact (hs.counts_pos ⟨hlt, hmark⟩).2 hnone
    · exact hall _ (by omega)
  · rw [Ext2.marked, heq]
    refine hset _ ?_
    rw [heq, Nat.mul_comm] at hsplit
    omega
  · have hmul : (g + 1) * s.sb.perGroup m ≤ k :=
      (Nat.mul_le_mul_right _ hafter).trans (Nat.div_mul_le_self _ _)
    rw [Nat.add_mul, Nat.one_mul] at hmul
    have hg : s.HasGroup m g := by
      rw [Ext2.HasGroup]
      omega
    have hin := (hs.found h hg).1
    omega

theorem group_of_lt (hs : s.Consistent) (hnum : s.total m = s.sb.count m)
    (hg : g < ext2NumGroups s m) : s.HasGroup m g := by
  have hpos := hs.perGroup_pos m
  have hle : g + 1 ≤ (s.sb.count m + s.sb.perGroup m - 1) / s.sb.perGroup m :=
    Nat.lt_of_lt_of_le hg (Nat.div_le_div_right (Nat.mod_le _ _))
  rw [Nat.le_div_iff_mul_le hpos, Nat.add_mul, Nat.one_mul] at hle
  rw [Ext2.HasGroup, hnum]
  omega

/-- Where the bitmaps start at number zero of the driver, it takes a free thing. -/
theorem Ext2.Consistent.take_cases (hs : s.Consistent) (hnum : s.total m = s.sb.count m) :
    ext2Take s m = (s, none) ∨ ∃ s' k, ext2Take s m = (s', some k) ∧ s'.Frees s m k := by
  rw [ext2Take]
  cases hfind : ext2FindFree s m with
  | none => exact .inl rfl
  | some p =>
    obtain ⟨g, i, bit⟩ := p
    have hg := group_of_lt hs hnum (ext2FindFree_some hfind).1
    obtain ⟨hlt, hfree⟩ := hs.found hfind hg
    have hpos := hs.perGroup_pos m
    have hdiv : (g * s.sb.perGroup m + (i * 8 + bit)) / s.sb.perGroup m = g := by
      rw [Nat.mul_comm, Nat.mul_add_div hpos, Nat.div_eq_of_lt hlt, Nat.add_zero]
    have hmod : (g * s.sb.perGroup m + (i * 8 + bit)) % s.sb.perGroup m = i * 8 + bit := by
      rw [Nat.mul_comm, Nat.mul_add_mod, Nat.mod_eq_of_lt hlt]
    have htake := hs.take hfree
    rw [hdiv, hmod] at htake
    exact .inr ⟨_, _, by dsimp only; rw [Nat.add_assoc (g * _)], htake⟩

-- ---------------------------------------------------------------------------
-- The calls
-- ---------------------------------------------------------------------------

/-- Clearing a block that is no bitmap changes no mark. -/
theorem Ext2.Frees.writeBlock (h : s'.Frees s m k) {b : Nat} (buf : Nat → BitVec 8)
    (hb : ∀ m' g, s.HasGroup m' g → (s.bgd g).bitmap m' ≠ b) :
    (s'.writeBlock b buf).Frees s m k := by
  have hmarked : ∀ m' k', k' < s.total m' →
      (s'.writeBlock b buf).marked m' k' = s'.marked m' k' := by
    intro m' k' hlt
    have hne := hb m' _ (Ext2.hasGroup_div hlt)
    rw [(h.layout m').2.1, (h.layout m').2.2] at hne
    simp only [Ext2.marked, Ext2.writeBlock]
    rw [Function.update_of_ne hne]
  have htotal : ∀ m', s.total m' = s'.total m' := h.total_eq
  refine ⟨h.lt, ?_, h.after, fun m' k' hlt hne => ?_, h.layout, h.geometry, h.free, h.group_free⟩
  · rw [hmarked m k (htotal m ▸ h.lt)]
    exact h.before
  · rw [hmarked m' k' (htotal m' ▸ hlt)]
    exact h.others m' k' hlt hne

theorem Ext2.Consistent.no_bitmap (hs : s.Consistent) (h : s.IsFree .blocks k) :
    ∀ m' g, s.HasGroup m' g → (s.bgd g).bitmap m' ≠ s.sb.firstDataBlock + k := by
  intro m' g hg heq
  obtain ⟨k', -, hbit, hmark⟩ := hs.bitmap m' g hg
  have hk : k' = k := by omega
  rw [← hk] at h
  exact absurd h.2 (by rw [hmark]; decide)

theorem total_blocks (hfirst : s.sb.firstDataBlock = 0) :
    s.total .blocks = s.sb.count .blocks := by
  rw [Ext2.total, hfirst]
  rfl

theorem allocBlock_law (hs : s.Consistent) (hfirst : s.sb.firstDataBlock = 0) :
    AllocLaw s .blocks (ext2AllocBlock s) := by
  rw [ext2AllocBlock]
  rcases hs.take_cases (total_blocks hfirst) with hnone | ⟨s', k, htake, hfrees⟩
  · rw [hnone]
    exact .inl ⟨rfl, rfl⟩
  · rw [htake]
    have hlt : k < s.total .blocks := hfrees.total_eq .blocks ▸ hfrees.lt
    have hk : k % 2 ^ 32 = s.sb.firstDataBlock + k := by
      rw [hfirst, Nat.zero_add, Nat.mod_eq_of_lt (hlt.trans (hs.total_lt .blocks))]
    dsimp only
    rw [hk]
    have hcleared := hfrees.writeBlock (fun _ => 0) (hs.no_bitmap ⟨hlt, hfrees.after⟩)
    exact .inr ⟨k, rfl, hcleared, hs.taken hcleared⟩

theorem allocInode_law (hs : s.Consistent) : AllocLaw s .inodes (ext2AllocInode s) := by
  rw [ext2AllocInode]
  have hnum : s.total .inodes = s.sb.count .inodes := rfl
  rcases hs.take_cases hnum with hnone | ⟨s', k, htake, hfrees⟩
  · rw [hnone]
    exact .inl ⟨rfl, rfl⟩
  · rw [htake]
    have hlt : k < s.total .inodes := hfrees.total_eq .inodes ▸ hfrees.lt
    have hcount := hs.total_lt .inodes
    refine .inr ⟨k, ?_, hfrees, hs.taken hfrees⟩
    rw [Ext2.first, Nat.add_comm 1 k]
    exact Nat.mod_eq_of_lt (by omega)

theorem freeBlock_law (hs : s.Consistent) (hfirst : s.sb.firstDataBlock = 0) {blockNum : Nat}
    (how : ext2Owned s (.freeBlock blockNum)) :
    FreeLaw s .blocks blockNum (ext2FreeBlock s blockNum) := by
  obtain ⟨k, hlt, rfl, hmark, hmeta⟩ := how
  intro k' hk'
  obtain rfl : k = k' := Nat.add_left_cancel hk'
  have hne : k ≠ 0 := fun h => hmeta (.inl h)
  rw [Ext2.first, hfirst, Nat.zero_add, ext2FreeBlock, if_neg hne]
  have hfrees := hs.release hlt hmark
  exact ⟨hfrees, hs.freed hfrees fun _ => hmeta⟩

theorem freeInode_law (hs : s.Consistent) {inodeNum : Nat}
    (how : ext2Owned s (.freeInode inodeNum)) :
    FreeLaw s .inodes inodeNum (ext2FreeInode s inodeNum) := by
  obtain ⟨k, hlt, rfl, hmark⟩ := how
  intro k' hk'
  obtain rfl : k = k' := Nat.add_left_cancel hk'
  rw [Ext2.first, ext2FreeInode, if_neg (by omega), Nat.add_sub_cancel_left]
  have hfrees := hs.release hlt hmark
  exact ⟨hfrees, hs.freed hfrees fun h => absurd h (by decide)⟩

-- ---------------------------------------------------------------------------
-- The numbering
-- ---------------------------------------------------------------------------

/-- With a first data block, the block that is handed out is one that comes before the clear
bit, so one in use. -/
theorem allocBlock_law_iff (hs : s.Consistent) :
    AllocLaw s .blocks (ext2AllocBlock s) ↔ s.sb.firstDataBlock = 0 ∨ s.NothingToTake := by
  constructor
  · intro hlaw
    by_contra hcon
    obtain ⟨hfirst, htake⟩ := not_or.mp hcon
    cases hfind : ext2FindFree s .blocks with
    | none => exact htake (ext2FindFree_none.mp hfind)
    | some p =>
      obtain ⟨g, i, bit⟩ := p
      rw [ext2AllocBlock, ext2Take, hfind] at hlaw
      dsimp only at hlaw
      rcases hlaw with ⟨-, hsame⟩ | ⟨k, hk, hfrees, -⟩
      · have hcount := congrArg (fun t => t.sb.freeBlocksCount) hsame
        simp only [Ext2.writeBlock, Ext2.writeBitmap, Ext2Superblock.setFree,
          Ext2Superblock.free] at hcount
        have hlt : s.sb.freeBlocksCount < 2 ^ 32 :=
          Nat.lt_of_le_of_lt (hs.counts_lt .blocks).1 (hs.total_lt .blocks)
        omega
      · have hlt : k < s.total .blocks := by
          rw [hfrees.total_eq .blocks]
          exact hfrees.lt
        have hle := Nat.mod_le (g * s.sb.perGroup .blocks + i * 8 + bit) (2 ^ 32)
        rw [Ext2.first] at hk
        have hmark := hs.marked_before hfind hlt (by omega)
        exact absurd hfrees.after (by rw [hmark]; decide)
  · rintro (hfirst | htake)
    · exact allocBlock_law hs hfirst
    · rw [ext2AllocBlock, ext2Take, ext2FindFree_none.mpr htake]
      exact .inl ⟨rfl, rfl⟩

/-- The bit that a call with the wrong number clears is another one. -/
theorem release_marked {n : Nat} (hmark : s.marked m k = true)
    (hne : n % s.sb.perGroup m ≠ k % s.sb.perGroup m) : (ext2Release s m n).marked m k = true := by
  rw [ext2Release]
  split
  · exact hmark
  · obtain ⟨-, hper, hbitmap⟩ := writeBitmap_layout
    rw [Ext2.marked, hper, hbitmap, Ext2.writeBitmap, Ext2.writeBlock]
    dsimp only
    rw [Function.update_apply]
    split
    · rename_i heq
      rw [Bitmap.test_clear, decide_eq_true hne.symm, Bool.and_true, ← heq]
      exact hmark
    · exact hmark

theorem freeBlock_law_iff (hs : s.Consistent) {blockNum : Nat}
    (how : ext2Owned s (.freeBlock blockNum)) :
    FreeLaw s .blocks blockNum (ext2FreeBlock s blockNum) ↔ s.sb.firstDataBlock = 0 := by
  refine ⟨fun hlaw => ?_, fun hfirst => freeBlock_law hs hfirst how⟩
  obtain ⟨k, hlt, rfl, hmark, hmeta⟩ := how
  by_contra hfirst
  have hafter := (hlaw k rfl).1.after
  have hpos : s.first .blocks + k ≠ 0 := fun h => hfirst (Nat.eq_zero_of_add_eq_zero h).1
  rw [ext2FreeBlock, if_neg hpos, release_marked hmark] at hafter
  · exact absurd hafter (by decide)
  · intro hmod
    have hmod : s.sb.firstDataBlock + k ≡ 0 + k [MOD s.sb.blocksPerGroup] := by
      rw [Nat.zero_add]
      exact hmod
    have hdvd := Nat.modEq_zero_iff_dvd.mp (Nat.ModEq.add_right_cancel' k hmod)
    have hle := Nat.le_of_dvd (Nat.pos_of_ne_zero hfirst) hdvd
    have hlt := hs.first_lt
    omega

theorem ext2Law_iff (hs : s.Consistent) {op : Ext2Op} (how : ext2Owned s op) :
    Ext2Law s op ↔ ext2NumbersRight s op := by
  cases op with
  | allocBlock => exact allocBlock_law_iff hs
  | freeBlock blockNum => exact freeBlock_law_iff hs how
  | allocInode => exact iff_of_true (allocInode_law hs) trivial
  | freeInode inodeNum => exact iff_of_true (freeInode_law hs how) trivial

theorem Ext2Law.consistent (hs : s.Consistent) {op : Ext2Op} (how : ext2Owned s op)
    (h : Ext2Law s op) : (ext2Step s op).Consistent := by
  have halloc : ∀ {m r}, AllocLaw s m r → r.1.Consistent := by
    rintro m r (⟨-, hsame⟩ | ⟨k, -, -, hr⟩)
    · exact hsame ▸ hs
    · exact hr
  cases op with
  | allocBlock => exact halloc h
  | allocInode => exact halloc h
  | freeBlock blockNum =>
    obtain ⟨k, -, hk, -⟩ := how
    exact (h k hk).2
  | freeInode inodeNum =>
    obtain ⟨k, -, hk, -⟩ := how
    exact (h k hk).2

/-- **In every run whose calls number as the format does, each call does what it should and the
image stays consistent; a call that does not number so does something else.** -/
theorem ext2_alloc_sound (hs : s.Consistent) (ops : List Ext2Op)
    (hok : Run.Allowed ext2Step (fun s op => ext2Owned s op ∧ ext2NumbersRight s op) s ops) :
    (Run.run ext2Step s ops).Consistent ∧
      ∀ op, ext2Owned (Run.run ext2Step s ops) op →
        (Ext2Law (Run.run ext2Step s ops) op ↔ ext2NumbersRight (Run.run ext2Step s ops) op) := by
  have hrun := Run.inv_run (I := Ext2.Consistent)
    (fun s op hs hop => ((ext2Law_iff hs hop.1).mpr hop.2).consistent hs hop.1) ops s hs hok
  exact ⟨hrun, fun op how => ext2Law_iff hrun how⟩

end

/-- Eight blocks and sixteen inodes, six blocks and eleven inodes of them in use. -/
def smallExt2 (firstDataBlock logBlockSize : Nat) : Ext2 where
  sb := ⟨16, firstDataBlock + 8, 2, 5, firstDataBlock, logBlockSize, 256, 16⟩
  bgd _ := ⟨firstDataBlock + 2, firstDataBlock + 3, 2, 5⟩
  disk b i :=
    if b = firstDataBlock + 2 then (if i = 0 then 0x3F else 0)
    else if b = firstDataBlock + 3 then (if i = 0 then 0xFF else if i = 1 then 0x07 else 0)
    else 0

theorem smallExt2_consistent {f log : Nat} (h : (f = 0 ∧ log = 1) ∨ (f = 1 ∧ log = 0)) :
    (smallExt2 f log).Consistent := by
  have hgroup : ∀ m g, (smallExt2 f log).HasGroup m g → g = 0 := by
    intro m g hg
    cases m <;> simp only [Ext2.HasGroup, Ext2.total, smallExt2, Ext2Superblock.perGroup] at hg <;>
      omega
  have hbitmap : ∀ m g, ∃ k < 8, ((smallExt2 f log).bgd g).bitmap m = f + k ∧
      (smallExt2 f log).marked .blocks k = true := by
    intro m g
    rcases h with ⟨rfl, rfl⟩ | ⟨rfl, rfl⟩ <;> cases m
    · exact ⟨2, by decide, rfl, by decide⟩
    · exact ⟨3, by decide, rfl, by decide⟩
    · exact ⟨2, by decide, rfl, by decide⟩
    · exact ⟨3, by decide, rfl, by decide⟩
  refine ⟨?_, fun m => ?_, fun m => ?_, fun m => ?_, ?_, ?_, fun m g _ => ?_,
    fun m g m' g' hg hg' heq => ⟨?_, (hgroup m g hg).trans (hgroup m' g' hg').symm⟩,
    fun m g hg => ?_, fun m => ?_⟩
  · rcases h with ⟨rfl, rfl⟩ | ⟨rfl, rfl⟩ <;> decide
  · rcases h with ⟨rfl, rfl⟩ | ⟨rfl, rfl⟩ <;> cases m <;> decide
  · cases m <;> exact Nat.succ_pos _
  · rcases h with ⟨rfl, rfl⟩ | ⟨rfl, rfl⟩ <;> cases m <;> decide
  · rcases h with ⟨rfl, rfl⟩ | ⟨rfl, rfl⟩ <;> decide
  · rcases h with ⟨rfl, rfl⟩ | ⟨rfl, rfl⟩ <;> decide
  · obtain ⟨k, hk, hbit, hmark⟩ := hbitmap m g
    refine ⟨k, ?_, hbit, hmark⟩
    simp only [Ext2.total, smallExt2]
    omega
  · cases m <;> cases m' <;>
      simp only [smallExt2, Ext2Bgd.bitmap, reduceCtorEq] at heq ⊢ <;> omega
  · rw [hgroup m g hg]
    rcases h with ⟨rfl, rfl⟩ | ⟨rfl, rfl⟩ <;> cases m <;> decide +kernel
  · rcases h with ⟨rfl, rfl⟩ | ⟨rfl, rfl⟩ <;> cases m <;> decide

theorem ext2_alloc_sound_small :
    (Run.run ext2Step (smallExt2 0 1) [.allocBlock, .allocInode, .freeInode 12]).Consistent ∧
      ∀ op, ext2Owned (Run.run ext2Step (smallExt2 0 1) [.allocBlock, .allocInode, .freeInode 12])
          op →
        (Ext2Law (Run.run ext2Step (smallExt2 0 1) [.allocBlock, .allocInode, .freeInode 12]) op ↔
          ext2NumbersRight
            (Run.run ext2Step (smallExt2 0 1) [.allocBlock, .allocInode, .freeInode 12]) op) :=
  ext2_alloc_sound (smallExt2_consistent (.inl ⟨rfl, rfl⟩)) _
    ⟨⟨trivial, .inl rfl⟩, ⟨trivial, trivial⟩,
      ⟨⟨11, by decide +kernel, by decide +kernel, by decide +kernel⟩, trivial⟩, trivial⟩

/-- With blocks of 1 KB the block that is handed out is one in use. -/
theorem alloc_gives_used_block :
    (smallExt2 1 0).Consistent ∧ (ext2AllocBlock (smallExt2 1 0)).2 = 6 ∧
      6 = (smallExt2 1 0).first .blocks + 5 ∧ (smallExt2 1 0).marked .blocks 5 = true ∧
      ¬ Ext2Law (smallExt2 1 0) .allocBlock := by
  have hs := smallExt2_consistent (.inr ⟨rfl, rfl⟩)
  refine ⟨hs, by decide +kernel, rfl, by decide +kernel, fun hlaw => ?_⟩
  rcases (allocBlock_law_iff hs).mp hlaw with hfirst | hnone
  · exact absurd hfirst (by decide)
  · rcases hnone 0 (by decide) with hfree | hall
    · exact absurd hfree (by decide)
    · exact absurd (hall 6 (by decide)) (by decide +kernel)

end Lestra
