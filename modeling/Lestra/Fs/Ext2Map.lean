import Lestra.Lib.ByteMem
import Mathlib.Logic.Function.Basic

/-!
# ext2: the blocks of an inode

The part of an inode that names its blocks, the blocks themselves, and
`ext2_get_inode_block`, which finds the block for a place in the file through up to
three blocks of pointers. Reads and writes of blocks succeed, and a block is read as
it was last written.

`ext2_alloc_block` is seen through its results: what it hands out next, block by
block, each of them cleared, until it fails.
-/

namespace Lestra

open ByteMem

/-- `struct ext2_inode`: the size, the count of 512-byte units and the block pointers. -/
structure Ext2Inode where
  iSize : Nat
  iMtime : Nat
  iBlocks : Nat
  iBlock : Nat → Nat

/-- The blocks of the volume, the bits of the block bitmaps and the blocks that
`ext2_alloc_block` is going to return. -/
structure Ext2Volume where
  blockSize : Nat
  blocks : Nat → Mem
  marked : Nat → Bool
  supply : List Nat

/-- `ext2_write_block` -/
def Ext2Volume.writeBlock (v : Ext2Volume) (blockNum : Nat) (buf : Mem) : Ext2Volume :=
  { v with blocks := Function.update v.blocks blockNum buf }

/-- `ext2_alloc_block` -/
def Ext2Volume.allocBlock (v : Ext2Volume) : Ext2Volume × Nat :=
  match v.supply with
  | [] => (v, 0)
  | b :: supply =>
    ({ v with marked := Function.update v.marked b true, supply }.writeBlock b fun _ => 0, b)

/-- `ext2_free_block` -/
def Ext2Volume.freeBlock (v : Ext2Volume) (blockNum : Nat) : Ext2Volume :=
  if blockNum = 0 then v else { v with marked := Function.update v.marked blockNum false }

/-- `ptr[i]` of a block of pointers. -/
def blockPtr (buf : Mem) (i : Nat) : Nat := getLE buf (4 * i) 4

/-- `bpb`: the pointers in a block. -/
def Ext2Volume.perBlock (v : Ext2Volume) : Nat := v.blockSize / 4

/-- `ext2_get_inode_block` -/
def ext2GetInodeBlock (v : Ext2Volume) (ino : Ext2Inode) (logicalBlock : Nat) : Nat :=
  let bpb := v.perBlock
  if logicalBlock < 12 then ino.iBlock logicalBlock
  else
    let l := logicalBlock - 12
    if l < bpb then
      if ino.iBlock 12 = 0 then 0 else blockPtr (v.blocks (ino.iBlock 12)) l
    else
      let l := l - bpb
      if l < bpb * bpb then
        if ino.iBlock 13 = 0 then 0
        else
          let blk := blockPtr (v.blocks (ino.iBlock 13)) (l / bpb)
          if blk = 0 then 0 else blockPtr (v.blocks blk) (l % bpb)
      else
        let l := l - bpb * bpb
        if ino.iBlock 14 = 0 then 0
        else
          let blk := blockPtr (v.blocks (ino.iBlock 14)) (l / (bpb * bpb))
          if blk = 0 then 0
          else
            let blk := blockPtr (v.blocks blk) (l % (bpb * bpb) / bpb)
            if blk = 0 then 0 else blockPtr (v.blocks blk) (l % (bpb * bpb) % bpb)

/-- The blocks of pointers that the search for a block goes through. -/
def lookupBlocks (v : Ext2Volume) (ino : Ext2Inode) (logicalBlock : Nat) : List Nat :=
  let bpb := v.perBlock
  if logicalBlock < 12 then []
  else if logicalBlock - 12 < bpb then [ino.iBlock 12]
  else
    let l := logicalBlock - 12 - bpb
    if l < bpb * bpb then [ino.iBlock 13, blockPtr (v.blocks (ino.iBlock 13)) (l / bpb)]
    else
      let l := l - bpb * bpb
      let blk := blockPtr (v.blocks (ino.iBlock 14)) (l / (bpb * bpb))
      [ino.iBlock 14, blk, blockPtr (v.blocks blk) (l % (bpb * bpb) / bpb)]

section

variable {v v' : Ext2Volume} {ino : Ext2Inode} {b l : Nat} {buf : Mem}

@[simp] theorem blocks_writeBlock_self : (v.writeBlock b buf).blocks b = buf :=
  Function.update_self ..

theorem blocks_writeBlock_ne {b' : Nat} (h : b' ≠ b) :
    (v.writeBlock b buf).blocks b' = v.blocks b' := Function.update_of_ne h ..

@[simp] theorem blockSize_writeBlock : (v.writeBlock b buf).blockSize = v.blockSize := rfl

@[simp] theorem perBlock_writeBlock : (v.writeBlock b buf).perBlock = v.perBlock := rfl

@[simp] theorem supply_writeBlock : (v.writeBlock b buf).supply = v.supply := rfl

@[simp] theorem marked_writeBlock : (v.writeBlock b buf).marked = v.marked := rfl

/-- The search depends on the blocks it goes through, and on nothing else. -/
theorem ext2GetInodeBlock_congr (hsize : v'.blockSize = v.blockSize)
    (h : ∀ b ∈ lookupBlocks v ino l, v'.blocks b = v.blocks b) :
    ext2GetInodeBlock v' ino l = ext2GetInodeBlock v ino l := by
  have hbpb : v'.perBlock = v.perBlock := congrArg (· / 4) hsize
  simp only [ext2GetInodeBlock, lookupBlocks, hbpb] at h ⊢
  split
  · rfl
  · rename_i h12
    rw [if_neg h12] at h
    split
    · rename_i hsingle
      rw [if_pos hsingle] at h
      rw [h (ino.iBlock 12) List.mem_cons_self]
    · rename_i hsingle
      rw [if_neg hsingle] at h
      split
      · rename_i hdouble
        rw [if_pos hdouble] at h
        rw [h (ino.iBlock 13) List.mem_cons_self,
          h _ (List.mem_cons_of_mem _ List.mem_cons_self)]
      · rename_i hdouble
        rw [if_neg hdouble] at h
        rw [h (ino.iBlock 14) List.mem_cons_self,
          h _ (List.mem_cons_of_mem _ List.mem_cons_self),
          h _ (List.mem_cons_of_mem _ (List.mem_cons_of_mem _ List.mem_cons_self))]

theorem lookupBlocks_congr (hsize : v'.blockSize = v.blockSize)
    (h : ∀ b ∈ lookupBlocks v ino l, v'.blocks b = v.blocks b) :
    lookupBlocks v' ino l = lookupBlocks v ino l := by
  have hbpb : v'.perBlock = v.perBlock := congrArg (· / 4) hsize
  simp only [lookupBlocks, hbpb] at h ⊢
  split
  · rfl
  · rename_i h12
    rw [if_neg h12] at h
    split
    · rfl
    · rename_i hsingle
      rw [if_neg hsingle] at h
      split
      · rename_i hdouble
        rw [if_pos hdouble] at h
        rw [h (ino.iBlock 13) List.mem_cons_self]
      · rename_i hdouble
        rw [if_neg hdouble] at h
        rw [h (ino.iBlock 14) List.mem_cons_self,
          h _ (List.mem_cons_of_mem _ List.mem_cons_self)]

end

end Lestra
