import Lestra.Fs.Ext2Slots

/-!
# ext2: writing a file and reading it back

The write loop of `ext2_write_file`, which finds the block for every chunk and
allocates what is missing on the way to it, and the loop of `ext2_read_file`, which
finds the blocks with `ext2_get_inode_block`.

* `ext2_write_mapping` — the two agree on the blocks of the file, wherever the
  allocation fails.
-/

namespace Lestra

open ByteMem

-- ---------------------------------------------------------------------------
-- The write loop of ext2_write_file
-- ---------------------------------------------------------------------------

/-- `ino.i_blocks += ext2_block_size / 512` -/
def Ext2Inode.addBlock (ino : Ext2Inode) (blockSize : Nat) : Ext2Inode :=
  { ino with iBlocks := (ino.iBlocks + blockSize / 512) % 2 ^ 32 }

/-- The block at `i_block[r]`, with a new one if there is none; a block of pointers is cleared. -/
def blockInRoot (s : Ext2File) (r : Nat) (clear : Bool) : Ext2File × Nat :=
  if s.ino.iBlock r ≠ 0 then (s, s.ino.iBlock r)
  else
    let (vol, blockNum) := s.vol.allocBlock
    if blockNum = 0 then (⟨vol, s.ino⟩, 0)
    else
      (⟨if clear then vol.writeBlock blockNum fun _ => 0 else vol,
        { s.ino.addBlock vol.blockSize with
          iBlock := Function.update s.ino.iBlock r blockNum }⟩, blockNum)

/-- The block at the `i`-th pointer of the block `table`, with a new one if there is none. -/
def blockInTable (s : Ext2File) (table i : Nat) (clear : Bool) : Ext2File × Nat :=
  let ptr := s.vol.blocks table
  if blockPtr ptr i ≠ 0 then (s, blockPtr ptr i)
  else
    let (vol, blockNum) := s.vol.allocBlock
    if blockNum = 0 then (⟨vol, s.ino⟩, 0)
    else
      let vol := vol.writeBlock table (putLE ptr (4 * i) 4 blockNum)
      (⟨if clear then vol.writeBlock blockNum fun _ => 0 else vol, s.ino.addBlock vol.blockSize⟩,
        blockNum)

/-- The block for the chunk with number `blockIdx`; 0 where the loop breaks off. -/
def blockForWrite (s : Ext2File) (blockIdx : Nat) : Ext2File × Nat :=
  let bpb := s.vol.perBlock
  if blockIdx < 12 then blockInRoot s blockIdx false
  else if blockIdx < 12 + bpb then
    let (s, single) := blockInRoot s 12 true
    if single = 0 then (s, 0)
    else blockInTable s single (blockIdx - 12) false
  else if blockIdx < 12 + bpb + bpb * bpb then
    let (s, double) := blockInRoot s 13 true
    if double = 0 then (s, 0)
    else
      let rem := blockIdx - 12 - bpb
      let (s, table) := blockInTable s double (rem / bpb) true
      if table = 0 then (s, 0)
      else blockInTable s table (rem % bpb) false
  else (s, 0)

/-- The bytes that go into one block. -/
def toWrite (blockSize len bytesWritten : Nat) : Nat :=
  min (blockSize - bytesWritten % blockSize) (len - bytesWritten)

/-- The block is read, the chunk put into it, and written. -/
def writeChunk (s : Ext2File) (buf : Mem) (len bytesWritten blockNum : Nat) : Ext2File :=
  let n := toWrite s.vol.blockSize len bytesWritten
  let blockBuf := store (s.vol.blocks blockNum) (bytesWritten % s.vol.blockSize)
    (load buf bytesWritten n)
  { s with vol := s.vol.writeBlock blockNum blockBuf }

/-- The loop: the file, `bytes_written` and the blocks that the chunks went into, in order. -/
def writeLoop (buf : Mem) (len : Nat) : Nat → Ext2File → Nat → List Nat → Ext2File × Nat × List Nat
  | 0, s, bytesWritten, chunks => (s, bytesWritten, chunks)
  | fuel + 1, s, bytesWritten, chunks =>
    if bytesWritten < len then
      let (s, blockNum) := blockForWrite s (bytesWritten / s.vol.blockSize)
      if blockNum = 0 then (s, bytesWritten, chunks)
      else
        writeLoop buf len fuel (writeChunk s buf len bytesWritten blockNum)
          (bytesWritten + toWrite s.vol.blockSize len bytesWritten) (chunks ++ [blockNum])
    else (s, bytesWritten, chunks)

/-- The loop from its start. A pass writes a whole block, or the rest. -/
def ext2WriteLoop (s : Ext2File) (buf : Mem) (len : Nat) : Ext2File × Nat × List Nat :=
  writeLoop buf len (len / s.vol.blockSize + 1) s 0 []

-- ---------------------------------------------------------------------------
-- ext2_read_file
-- ---------------------------------------------------------------------------

def readLoop (s : Ext2File) (fileSize : Nat) : Nat → Nat → List UInt8
  | 0, _ => []
  | fuel + 1, bytesRead =>
    if bytesRead < fileSize then
      let phys := ext2GetInodeBlock s.vol s.ino (bytesRead / s.vol.blockSize)
      if phys = 0 then []
      else
        let toCopy := toWrite s.vol.blockSize fileSize bytesRead
        load (s.vol.blocks phys) (bytesRead % s.vol.blockSize) toCopy ++
          readLoop s fileSize fuel (bytesRead + toCopy)
    else []

/-- `ext2_read_file` from the point where the inode is read: what it puts into the buffer. -/
def ext2ReadFile (s : Ext2File) (bufsize : Nat) : List UInt8 :=
  let fileSize := min s.ino.iSize bufsize
  readLoop s fileSize (fileSize / s.vol.blockSize + 1) 0

section

variable {s s' : Ext2File} {p : Slot} {buf : Mem} {chunks : List Nat}
  {b i j r n len fuel blockIdx bytesWritten : Nat} {clear : Bool}

-- ---------------------------------------------------------------------------
-- The block for a chunk
-- ---------------------------------------------------------------------------

theorem MapOk.perBlock_pos (h : MapOk s) : 0 < s.vol.perBlock := by
  have := h.blockSize
  rw [Ext2Volume.perBlock]
  omega

@[simp] theorem blockPtr_zero (i : Nat) : blockPtr (fun _ => 0) i = 0 := rfl

/-- What the allocation returns. -/
theorem allocBlock_cons {vol : Ext2Volume} {supply : List Nat} (h : vol.supply = b :: supply) :
    vol.allocBlock =
      ({ vol with marked := Function.update vol.marked b true, supply }.writeBlock b fun _ => 0, b) := by
  rw [Ext2Volume.allocBlock, h]

theorem allocBlock_nil {vol : Ext2Volume} (h : vol.supply = []) : vol.allocBlock = (vol, 0) := by
  rw [Ext2Volume.allocBlock, h]

/-- Clearing a block that is clear. -/
theorem blocks_clear {vol : Ext2Volume} (hclear : vol.blocks b = fun _ => 0) :
    (if clear then vol.writeBlock b fun _ => 0 else vol) = vol := by
  cases clear with
  | false => rfl
  | true =>
    rw [if_pos rfl, Ext2Volume.writeBlock, ← hclear, Function.update_eq_self]

theorem blockInRoot_ensured (hs : MapOk s) (r : Nat) (clear : Bool) :
    Ensured s (.root r) (blockInRoot s r clear).1 (blockInRoot s r clear).2 := by
  by_cases hne : s.ino.iBlock r = 0
  · cases hsupply : s.vol.supply with
    | nil =>
      have heq : blockInRoot s r clear = (s, 0) := by
        rw [blockInRoot, if_neg (not_not.mpr hne), allocBlock_nil hsupply]
        rfl
      rw [heq]
      exact Ensured.full hne hsupply
    | cons b supply =>
      have hmem : b ∈ s.vol.supply := by
        rw [hsupply]
        exact List.mem_cons_self
      have hb := hs.fresh.nonzero b hmem
      have heq : blockInRoot s r clear =
          (⟨{ s.vol with marked := Function.update s.vol.marked b true, supply }.writeBlock b
              fun _ => 0, { s.ino.addBlock s.vol.blockSize with
                iBlock := Function.update s.ino.iBlock r b }⟩, b) := by
        rw [blockInRoot, if_neg (not_not.mpr hne), allocBlock_cons hsupply]
        dsimp only
        rw [if_neg hb, blocks_clear blocks_writeBlock_self]
        rfl
      rw [heq]
      refine Ensured.filled hne ⟨hsupply, rfl, rfl, rfl, rfl, fun q hq => ?_, fun q hq _ _ => ?_⟩
      · refine ptrAt_fill (fun i => ?_) hne (fun q i h => nomatch h) (fun r' _ => ?_)
          (fun q i hqi hq => ?_) hq
        · dsimp only
          rw [blocks_writeBlock_self, blockPtr_zero]
        · simp only [Function.update_apply, Slot.root.injEq]
        · dsimp only
          rw [blocks_writeBlock_ne (hs.fresh.unused b hmem q hqi.2.2), if_neg (by simp)]
      · exact blocks_writeBlock_ne (hs.fresh.unused b hmem q hq)
  · have heq : blockInRoot s r clear = (s, ptrAt s (.root r)) := by
      rw [blockInRoot, if_pos hne]
      rfl
    rw [heq]
    exact Ensured.there hne

theorem blockInTable_ensured (hs : MapOk s) (hp : ptrAt s p ≠ 0)
    (hvalid : (Slot.entry p i).Valid s.vol.perBlock) (clear : Bool) :
    Ensured s (.entry p i) (blockInTable s (ptrAt s p) i clear).1
      (blockInTable s (ptrAt s p) i clear).2 := by
  have hptr : ptrAt s (.entry p i) = blockPtr (s.vol.blocks (ptrAt s p)) i := by
    rw [ptrAt, if_neg hp]
  by_cases hne : blockPtr (s.vol.blocks (ptrAt s p)) i = 0
  · cases hsupply : s.vol.supply with
    | nil =>
      have heq : blockInTable s (ptrAt s p) i clear = (s, 0) := by
        rw [blockInTable, if_neg (not_not.mpr hne), allocBlock_nil hsupply]
        rfl
      rw [heq]
      exact Ensured.full (hptr.trans hne) hsupply
    | cons b supply =>
      have hmem : b ∈ s.vol.supply := by
        rw [hsupply]
        exact List.mem_cons_self
      have hb := hs.fresh.nonzero b hmem
      have hunused := hs.fresh.unused b hmem
      have htable : ptrAt s p ≠ b := hunused p hvalid.2.2
      have heq : blockInTable s (ptrAt s p) i clear =
          (⟨({ s.vol with marked := Function.update s.vol.marked b true, supply }.writeBlock b
              fun _ => 0).writeBlock (ptrAt s p)
                (putLE (s.vol.blocks (ptrAt s p)) (4 * i) 4 b), s.ino.addBlock s.vol.blockSize⟩, b) := by
        rw [blockInTable, if_neg (not_not.mpr hne), allocBlock_cons hsupply]
        dsimp only
        rw [if_neg hb, blocks_clear]
        · rfl
        · rw [blocks_writeBlock_ne htable.symm, blocks_writeBlock_self]
      rw [heq]
      refine Ensured.filled (hptr.trans hne)
        ⟨hsupply, rfl, rfl, rfl, rfl, fun q hq => ?_, fun q hq hheight hq0 => ?_⟩
      · refine ptrAt_fill (fun j => ?_) (hptr.trans hne) (fun q j h => ?_) (fun r' _ => ?_)
          (fun q j hqj hq0 => ?_) hq
        · dsimp only
          rw [blocks_writeBlock_ne htable.symm, blocks_writeBlock_self, blockPtr_zero]
        · obtain ⟨rfl, -⟩ := Slot.entry.inj h
          exact hp
        · rw [if_neg (by simp)]
          rfl
        · dsimp only
          by_cases hqp : q = p
          · subst hqp
            rw [blocks_writeBlock_self]
            by_cases hji : j = i
            · subst hji
              rw [if_pos rfl, blockPtr, getLE_putLE (hs.fresh.lt b hmem)]
            · rw [if_neg (by simpa using hji), blockPtr, getLE_putLE_of_apart (by omega), blockPtr]
          · have hdistinct : ptrAt s q ≠ ptrAt s p := fun h =>
              hqp (hs.distinct q p hqj.2.2 hvalid.2.2 hq0 h)
            rw [blocks_writeBlock_ne hdistinct, blocks_writeBlock_ne (hunused q hqj.2.2),
              if_neg fun h => hqp (Slot.entry.inj h).1]
      · -- the block is not one of pointers
        have hdistinct : ptrAt s q ≠ ptrAt s p := by
          intro h
          have hqp := hs.distinct q p hq hvalid.2.2 hq0 h
          have := hvalid.2.1
          rw [hqp] at hheight
          omega
        dsimp only
        rw [blocks_writeBlock_ne hdistinct, blocks_writeBlock_ne (hunused q hq)]
  · have heq : blockInTable s (ptrAt s p) i clear = (s, ptrAt s (.entry p i)) := by
      rw [blockInTable, if_pos hne, hptr]
    rw [heq]
    exact Ensured.there (by rwa [hptr])

/-- **The block for a chunk.** The places on the way to the leaf are filled from the top. -/
theorem blockForWrite_ensured (hs : MapOk s) (hlimit : blockIdx < doubleLimit s.vol.perBlock) :
    EnsuredPath s (dataSlot s.vol.perBlock blockIdx).path (blockForWrite s blockIdx).1
      (blockForWrite s blockIdx).2 := by
  have hbpb := hs.perBlock_pos
  obtain ⟨hvalid, -⟩ := dataSlot_valid hbpb hlimit
  rw [doubleLimit] at hlimit
  unfold dataSlot at hvalid ⊢
  unfold blockForWrite
  dsimp only at hvalid ⊢
  split
  · exact EnsuredPath.last (blockInRoot_ensured hs blockIdx false)
  · rename_i h12
    rw [if_neg h12] at hvalid
    by_cases hsingle : blockIdx < 12 + s.vol.perBlock
    · have hl : blockIdx - 12 < s.vol.perBlock := by omega
      rw [if_pos hl] at hvalid
      rw [if_pos hsingle, if_pos hl]
      have hroot := blockInRoot_ensured hs 12 true
      generalize blockInRoot s 12 true = one at hroot ⊢
      obtain ⟨s₁, single⟩ := one
      dsimp only at hroot ⊢
      split
      · rename_i hzero
        subst hzero
        exact EnsuredPath.stop hroot
      · rename_i hne
        have hkeeps := hroot.keeps hs
        have hptr := hroot.ptr_eq (show 12 < 15 by decide) hne
        refine EnsuredPath.cons hroot hne (EnsuredPath.last ?_)
        have htable := blockInTable_ensured hkeeps.mapOk (p := .root 12) (i := blockIdx - 12)
          (by rwa [hptr]) (by rwa [hkeeps.perBlock]) false
        rwa [hptr] at htable
    · have hl : ¬ blockIdx - 12 < s.vol.perBlock := by omega
      have hl' : blockIdx - 12 - s.vol.perBlock < s.vol.perBlock * s.vol.perBlock := by omega
      rw [if_neg hl, if_pos hl'] at hvalid
      rw [if_neg hsingle, if_neg hl, if_pos hl']
      have hroot := blockInRoot_ensured hs 13 true
      generalize blockInRoot s 13 true = one at hroot ⊢
      obtain ⟨s₁, double⟩ := one
      dsimp only at hroot ⊢
      split
      · rename_i hzero
        subst hzero
        exact EnsuredPath.stop hroot
      · rename_i hne
        have hkeeps := hroot.keeps hs
        have hptr := hroot.ptr_eq (show 13 < 15 by decide) hne
        refine EnsuredPath.cons hroot hne ?_
        have htable := blockInTable_ensured hkeeps.mapOk (p := .root 13)
          (i := (blockIdx - 12 - s.vol.perBlock) / s.vol.perBlock) (by rwa [hptr])
          (by rw [hkeeps.perBlock]; exact hvalid.2.2) true
        rw [hptr] at htable
        generalize blockInTable s₁ double _ true = two at htable ⊢
        obtain ⟨s₂, table⟩ := two
        dsimp only at htable ⊢
        split
        · rename_i hzero
          subst hzero
          exact EnsuredPath.stop htable
        · rename_i hne'
          have hkeeps' := htable.keeps hkeeps.mapOk
          have hptr' := htable.ptr_eq (by rw [hkeeps.perBlock]; exact hvalid.2.2) hne'
          refine EnsuredPath.cons htable hne' (EnsuredPath.last ?_)
          have hleaf := blockInTable_ensured hkeeps'.mapOk
            (i := (blockIdx - 12 - s.vol.perBlock) % s.vol.perBlock) (by rwa [hptr'])
            (by rw [hkeeps'.perBlock, hkeeps.perBlock]; exact hvalid) false
          rwa [hptr'] at hleaf

theorem blockForWrite_keeps (hs : MapOk s) (blockIdx : Nat) :
    Keeps s (blockForWrite s blockIdx).1 := by
  by_cases hlimit : blockIdx < doubleLimit s.vol.perBlock
  · exact (blockForWrite_ensured hs hlimit).keeps hs
  · rw [doubleLimit] at hlimit
    rw [blockForWrite, if_neg (by omega), if_neg (by omega), if_neg hlimit]
    exact Keeps.refl hs

theorem lt_limit_of_block (h : (blockForWrite s blockIdx).2 ≠ 0) :
    blockIdx < doubleLimit s.vol.perBlock := by
  by_contra hlimit
  rw [doubleLimit] at hlimit
  rw [blockForWrite, if_neg (by omega), if_neg (by omega), if_neg hlimit] at h
  exact h rfl

theorem Slot.path_getLast (p : Slot) : p.path.getLast? = some p := by
  cases p with
  | root r => rfl
  | entry p i => exact List.getLast?_concat

theorem Slot.valid_of_mem_path {bpb : Nat} {p q : Slot} (hp : p.Valid bpb) (hq : q ∈ p.path) :
    q.Valid bpb := by
  induction p with
  | root r =>
    rw [List.mem_singleton.mp hq]
    exact hp
  | entry p i ih =>
    rcases List.mem_append.mp hq with hq | hq
    · exact ih hp.2.2 hq
    · rw [List.mem_singleton.mp hq]
      exact hp

/-- The block that is returned is the one at the leaf. -/
theorem blockForWrite_ptr (hs : MapOk s) (h : (blockForWrite s blockIdx).2 ≠ 0) :
    ptrAt (blockForWrite s blockIdx).1 (dataSlot s.vol.perBlock blockIdx) =
      (blockForWrite s blockIdx).2 := by
  have hlimit := lt_limit_of_block h
  obtain ⟨hvalid, -⟩ := dataSlot_valid hs.perBlock_pos hlimit
  exact (blockForWrite_ensured hs hlimit).ptr_eq hs
    (fun q hq => Slot.valid_of_mem_path hvalid hq) h (Slot.path_getLast _)

-- ---------------------------------------------------------------------------
-- The loop
-- ---------------------------------------------------------------------------

/-- The bytes of block `b` of a file of `len` bytes. -/
def blockLen (blockSize len b : Nat) : Nat := min blockSize (len - b * blockSize)

/-- The first blocks of the file hold the first bytes of the buffer. -/
structure Writing (s : Ext2File) (buf : Mem) (len bytesWritten : Nat) (chunks : List Nat) : Prop where
  mapOk : MapOk s
  written : bytesWritten = min len (chunks.length * s.vol.blockSize)
  limit : chunks.length ≤ doubleLimit s.vol.perBlock
  ptr : ∀ b (hb : b < chunks.length), ptrAt s (dataSlot s.vol.perBlock b) = chunks[b]
  nonzero : ∀ b (hb : b < chunks.length), chunks[b] ≠ 0
  stored : ∀ b (hb : b < chunks.length), load (s.vol.blocks chunks[b]) 0
    (blockLen s.vol.blockSize len b) = load buf (b * s.vol.blockSize)
      (blockLen s.vol.blockSize len b)

theorem Writing.keeps (h : Writing s buf len bytesWritten chunks) (hkeeps : Keeps s s') :
    Writing s' buf len bytesWritten chunks := by
  have hbpb := h.mapOk.perBlock_pos
  have hleaf : ∀ b < chunks.length, (dataSlot s.vol.perBlock b).Valid s.vol.perBlock ∧
      (dataSlot s.vol.perBlock b).height = 0 := fun b hb =>
    dataSlot_valid hbpb (Nat.lt_of_lt_of_le hb h.limit)
  refine ⟨hkeeps.mapOk, by rw [hkeeps.blockSize]; exact h.written,
    by rw [hkeeps.perBlock]; exact h.limit, fun b hb => ?_, h.nonzero, fun b hb => ?_⟩
  · rw [hkeeps.perBlock, hkeeps.ptr _ (hleaf b hb).1 (by rw [h.ptr b hb]; exact h.nonzero b hb)]
    exact h.ptr b hb
  · have hdata := hkeeps.data _ (hleaf b hb).1 (hleaf b hb).2
      (by rw [h.ptr b hb]; exact h.nonzero b hb)
    rw [h.ptr b hb] at hdata
    rw [hkeeps.blockSize, hdata]
    exact h.stored b hb

/-- Writing into a block of the file leaves the pointers alone. -/
theorem ptrAt_writeBlock (hs : MapOk s) (hleaf : p.Valid s.vol.perBlock) (hheight : p.height = 0)
    (hb : ptrAt s p = b) {blockBuf : Mem} {q : Slot} (hq : q.Valid s.vol.perBlock) :
    ptrAt { s with vol := s.vol.writeBlock b blockBuf } q = ptrAt s q := by
  refine ptrAt_congr rfl (fun q hq hpos hq0 => ?_) hq
  refine blocks_writeBlock_ne fun heq => ?_
  have hqp := hs.distinct q p hq hleaf hq0 (heq.trans hb.symm)
  rw [hqp, hheight] at hpos
  exact absurd hpos (Nat.lt_irrefl 0)

theorem mapOk_writeBlock (hs : MapOk s) (hleaf : p.Valid s.vol.perBlock) (hheight : p.height = 0)
    (hb : ptrAt s p = b) {blockBuf : Mem} :
    MapOk { s with vol := s.vol.writeBlock b blockBuf } := by
  have hptr : ∀ q : Slot, q.Valid s.vol.perBlock →
      ptrAt { s with vol := s.vol.writeBlock b blockBuf } q = ptrAt s q :=
    fun q hq => ptrAt_writeBlock hs hleaf hheight hb hq
  refine ⟨hs.blockSize, fun q q' hq hq' hq0 heq => ?_,
    ⟨hs.fresh.nodup, hs.fresh.nonzero, hs.fresh.lt, fun c hc q hq => ?_⟩⟩
  · rw [hptr q hq] at hq0 heq
    rw [hptr q' hq'] at heq
    exact hs.distinct q q' hq hq' hq0 heq
  · rw [hptr q hq]
    exact hs.fresh.unused c hc q hq

/-- One pass of the loop, with a block. -/
theorem Writing.chunk (h : Writing s buf len bytesWritten chunks) (hlt : bytesWritten < len)
    (hlimit : chunks.length < doubleLimit s.vol.perBlock) (hb : b ≠ 0)
    (hptr : ptrAt s (dataSlot s.vol.perBlock chunks.length) = b) :
    Writing (writeChunk s buf len bytesWritten b) buf len
      (bytesWritten + toWrite s.vol.blockSize len bytesWritten) (chunks ++ [b]) := by
  have hbpb := h.mapOk.perBlock_pos
  have hsize : 0 < s.vol.blockSize := by have := h.mapOk.blockSize; omega
  obtain ⟨hvalid, hheight⟩ := dataSlot_valid hbpb hlimit
  have hwritten : bytesWritten = chunks.length * s.vol.blockSize := by
    have := h.written
    omega
  have hmod : bytesWritten % s.vol.blockSize = 0 := by rw [hwritten, Nat.mul_mod_left]
  have hlen : toWrite s.vol.blockSize len bytesWritten =
      blockLen s.vol.blockSize len chunks.length := by
    rw [toWrite, hmod, blockLen, hwritten, Nat.sub_zero]
  have hptrs : ∀ q : Slot, q.Valid s.vol.perBlock →
      ptrAt (writeChunk s buf len bytesWritten b) q = ptrAt s q := fun q hq =>
    ptrAt_writeBlock h.mapOk hvalid hheight hptr hq
  refine ⟨mapOk_writeBlock h.mapOk hvalid hheight hptr, ?_, ?_, fun j hj => ?_, fun j hj => ?_,
    fun j hj => ?_⟩
  · rw [hlen, List.length_append, List.length_singleton, blockLen]
    change _ = min len ((chunks.length + 1) * s.vol.blockSize)
    rw [Nat.succ_mul]
    omega
  · rw [List.length_append, List.length_singleton]
    exact hlimit
  · rw [List.length_append, List.length_singleton] at hj
    have hjlimit : j < doubleLimit s.vol.perBlock := by omega
    change ptrAt _ (dataSlot s.vol.perBlock j) = _
    rw [hptrs _ (dataSlot_valid hbpb hjlimit).1]
    rcases Nat.lt_succ_iff_lt_or_eq.mp hj with hj | rfl
    · rw [List.getElem_append_left hj]
      exact h.ptr j hj
    · rw [hptr, List.getElem_concat_length rfl]
  · rw [List.length_append, List.length_singleton] at hj
    rcases Nat.lt_succ_iff_lt_or_eq.mp hj with hj | rfl
    · rw [List.getElem_append_left hj]
      exact h.nonzero j hj
    · rwa [List.getElem_concat_length rfl]
  · rw [List.length_append, List.length_singleton] at hj
    change load ((s.vol.writeBlock b _).blocks _) 0 (blockLen s.vol.blockSize len j) =
      load buf (j * s.vol.blockSize) (blockLen s.vol.blockSize len j)
    rcases Nat.lt_succ_iff_lt_or_eq.mp hj with hj | rfl
    · rw [List.getElem_append_left hj, blocks_writeBlock_ne]
      · exact h.stored j hj
      · -- another block of the file
        intro heq
        rw [← h.ptr j hj, ← hptr] at heq
        have hsame := h.mapOk.distinct _ _ (dataSlot_valid hbpb (by omega)).1 hvalid
          (by rw [h.ptr j hj]; exact h.nonzero j hj) heq
        exact absurd (dataSlot_inj hsame) (Nat.ne_of_lt hj)
    · rw [List.getElem_concat_length rfl, blocks_writeBlock_self, hmod, hlen, hwritten]
      have hstored := load_store (s.vol.blocks b) 0 (load buf (chunks.length * s.vol.blockSize)
        (blockLen s.vol.blockSize len chunks.length))
      rwa [length_load] at hstored

theorem Writing.pass (h : Writing s buf len bytesWritten chunks) (hlt : bytesWritten < len)
    (hb : (blockForWrite s (bytesWritten / s.vol.blockSize)).2 ≠ 0) :
    Writing (writeChunk (blockForWrite s (bytesWritten / s.vol.blockSize)).1 buf len bytesWritten
        (blockForWrite s (bytesWritten / s.vol.blockSize)).2) buf len
      (bytesWritten + toWrite (blockForWrite s (bytesWritten / s.vol.blockSize)).1.vol.blockSize len
        bytesWritten) (chunks ++ [(blockForWrite s (bytesWritten / s.vol.blockSize)).2]) := by
  have hsize : 0 < s.vol.blockSize := by have := h.mapOk.blockSize; omega
  have hidx : bytesWritten / s.vol.blockSize = chunks.length := by
    have hwritten : bytesWritten = chunks.length * s.vol.blockSize := by
      have := h.written
      omega
    rw [hwritten, Nat.mul_div_cancel _ hsize]
  rw [hidx] at hb ⊢
  have hkeeps := blockForWrite_keeps h.mapOk chunks.length
  refine (h.keeps hkeeps).chunk hlt ?_ hb ?_
  · rw [hkeeps.perBlock]
    exact lt_limit_of_block hb
  · rw [hkeeps.perBlock]
    exact blockForWrite_ptr h.mapOk hb

theorem writeLoop_writing (fuel : Nat) (h : Writing s buf len bytesWritten chunks) :
    Writing (writeLoop buf len fuel s bytesWritten chunks).1 buf len
      (writeLoop buf len fuel s bytesWritten chunks).2.1
      (writeLoop buf len fuel s bytesWritten chunks).2.2 := by
  induction fuel generalizing s bytesWritten chunks with
  | zero => exact h
  | succ fuel ih =>
    rw [writeLoop]
    split
    · rename_i hlt
      dsimp only
      split
      · exact h.keeps (blockForWrite_keeps h.mapOk _)
      · rename_i hb
        exact ih (h.pass hlt hb)
    · exact h

theorem blockSize_writeLoop (fuel : Nat) (h : Writing s buf len bytesWritten chunks) :
    (writeLoop buf len fuel s bytesWritten chunks).1.vol.blockSize = s.vol.blockSize := by
  induction fuel generalizing s bytesWritten chunks with
  | zero => rfl
  | succ fuel ih =>
    have hsize := (blockForWrite_keeps h.mapOk (bytesWritten / s.vol.blockSize)).blockSize
    rw [writeLoop]
    split
    · rename_i hlt
      dsimp only
      split
      · exact hsize
      · rename_i hb
        exact (ih (h.pass hlt hb)).trans hsize
    · rfl

theorem Writing.start (hs : MapOk s) (buf : Mem) (len : Nat) : Writing s buf len 0 [] :=
  ⟨hs, by simp, Nat.zero_le _, fun _ hb => absurd hb (Nat.not_lt_zero _),
    fun _ hb => absurd hb (Nat.not_lt_zero _), fun _ hb => absurd hb (Nat.not_lt_zero _)⟩

/-- A pass for every block, and one that sees the end, are enough. -/
theorem writeLoop_fuel (h : Writing s buf len bytesWritten chunks) (fuel fuel' : Nat)
    (hfuel : len < (chunks.length + fuel) * s.vol.blockSize)
    (hfuel' : len < (chunks.length + fuel') * s.vol.blockSize) :
    writeLoop buf len fuel s bytesWritten chunks = writeLoop buf len fuel' s bytesWritten chunks := by
  induction fuel generalizing fuel' s bytesWritten chunks with
  | zero =>
    have hend : ¬ bytesWritten < len := by
      have := h.written
      rw [Nat.add_zero] at hfuel
      omega
    cases fuel' with
    | zero => rfl
    | succ fuel' => rw [writeLoop, writeLoop, if_neg hend]
  | succ fuel ih =>
    cases fuel' with
    | zero =>
      have hend : ¬ bytesWritten < len := by
        have := h.written
        rw [Nat.add_zero] at hfuel'
        omega
      rw [writeLoop, writeLoop, if_neg hend]
    | succ fuel' =>
      rw [writeLoop, writeLoop]
      split
      · rename_i hlt
        dsimp only
        have hsize := (blockForWrite_keeps h.mapOk (bytesWritten / s.vol.blockSize)).blockSize
        split
        · rfl
        · rename_i hb
          refine ih (h.pass hlt hb) fuel' ?_ ?_
          · change len < (_ + fuel) * (blockForWrite s _).1.vol.blockSize
            rwa [hsize, List.length_append, List.length_singleton, Nat.add_assoc, Nat.add_comm 1]
          · change len < (_ + fuel') * (blockForWrite s _).1.vol.blockSize
            rwa [hsize, List.length_append, List.length_singleton, Nat.add_assoc, Nat.add_comm 1]
      · rfl

/-- More passes than the loop makes change nothing. -/
theorem ext2WriteLoop_ends (hs : MapOk s) (buf : Mem) (len : Nat)
    (hfuel : len / s.vol.blockSize < fuel) : writeLoop buf len fuel s 0 [] = ext2WriteLoop s buf len := by
  have hsize : 0 < s.vol.blockSize := by have := hs.blockSize; omega
  refine writeLoop_fuel (Writing.start hs buf len) _ _ ?_ ?_ <;>
    rw [List.length_nil, Nat.zero_add]
  · exact (Nat.div_lt_iff_lt_mul hsize).mp hfuel
  · exact (Nat.div_lt_iff_lt_mul hsize).mp (Nat.lt_succ_self _)

-- ---------------------------------------------------------------------------
-- Reading
-- ---------------------------------------------------------------------------

theorem readLoop_eq (h : Writing s buf len bytesWritten chunks) (hle : n ≤ bytesWritten)
    (fuel : Nat) : ∀ b, n < (b + fuel) * s.vol.blockSize →
      readLoop s n fuel (min n (b * s.vol.blockSize)) =
        load buf (min n (b * s.vol.blockSize)) (n - b * s.vol.blockSize) := by
  have hsize : 0 < s.vol.blockSize := by have := h.mapOk.blockSize; omega
  induction fuel with
  | zero =>
    intro b hb
    rw [Nat.add_zero] at hb
    rw [Nat.sub_eq_zero_of_le (Nat.le_of_lt hb)]
    rfl
  | succ fuel ih =>
    intro b hb
    rw [readLoop]
    split
    · rename_i hlt
      have hbn : b * s.vol.blockSize < n := by omega
      rw [Nat.min_eq_right (Nat.le_of_lt hbn), Nat.mul_div_cancel _ hsize, Nat.mul_mod_left]
      have hbchunk : b < chunks.length := by
        have hwritten := h.written
        refine Nat.lt_of_mul_lt_mul_right (a := s.vol.blockSize) ?_
        omega
      rw [getInodeBlock_eq, h.ptr b hbchunk]
      dsimp only
      rw [if_neg (h.nonzero b hbchunk)]
      have hto : toWrite s.vol.blockSize n (b * s.vol.blockSize) =
          min s.vol.blockSize (n - b * s.vol.blockSize) := by
        rw [toWrite, Nat.mul_mod_left, Nat.sub_zero]
      have hnext : b * s.vol.blockSize + min s.vol.blockSize (n - b * s.vol.blockSize) =
          min n ((b + 1) * s.vol.blockSize) := by
        rw [Nat.succ_mul]
        omega
      rw [hto, hnext, ih (b + 1) (by rwa [Nat.add_assoc, Nat.add_comm 1])]
      have hstored := congrArg (List.take (min s.vol.blockSize (n - b * s.vol.blockSize)))
        (h.stored b hbchunk)
      have hlen : bytesWritten ≤ len := by
        have := h.written
        omega
      rw [load_take (by rw [blockLen]; omega), load_take (by rw [blockLen]; omega)] at hstored
      rw [hstored, ← hnext, ← load_append]
      congr 1
      rw [Nat.succ_mul]
      omega
    · rw [Nat.sub_eq_zero_of_le (by omega)]
      rfl

/-- `ino.i_size = bytes_written` -/
def Ext2File.setSize (s : Ext2File) (n : Nat) : Ext2File :=
  { s with ino := { s.ino with iSize := n } }

theorem ptrAt_setSize (s : Ext2File) (n : Nat) (p : Slot) : ptrAt (s.setSize n) p = ptrAt s p := by
  induction p with
  | root r => rfl
  | entry p i ih =>
    rw [ptrAt, ptrAt, ih]
    rfl

/-- Only the pointers count, not the size. -/
theorem Writing.setSize (h : Writing s buf len bytesWritten chunks) (n : Nat) :
    Writing (s.setSize n) buf len bytesWritten chunks := by
  refine ⟨⟨h.mapOk.blockSize, fun p q hp hq hp0 heq => ?_, ⟨h.mapOk.fresh.nodup,
    h.mapOk.fresh.nonzero, h.mapOk.fresh.lt, fun b hb p hp => ?_⟩⟩, h.written, h.limit,
    fun b hb => ?_, h.nonzero, h.stored⟩
  · rw [ptrAt_setSize] at hp0 heq
    rw [ptrAt_setSize] at heq
    exact h.mapOk.distinct p q hp hq hp0 heq
  · rw [ptrAt_setSize]
    exact h.mapOk.fresh.unused b hb p hp
  · rw [ptrAt_setSize]
    exact h.ptr b hb

theorem ext2ReadFile_eq (h : Writing s buf len bytesWritten chunks) (bufsize : Nat) :
    ext2ReadFile (s.setSize bytesWritten) bufsize = load buf 0 (min bytesWritten bufsize) := by
  have hsize : 0 < s.vol.blockSize := by have := h.mapOk.blockSize; omega
  have hread := readLoop_eq (h.setSize bytesWritten) (n := min bytesWritten bufsize)
    (Nat.min_le_left ..) (min bytesWritten bufsize / s.vol.blockSize + 1) 0
    (by rw [Nat.zero_add]; exact (Nat.div_lt_iff_lt_mul hsize).mp (Nat.lt_succ_self _))
  rwa [Nat.zero_mul, Nat.min_zero, Nat.sub_zero] at hread

/-- **Writing and reading agree.** After the write loop, wherever it broke off, the lookup gives
for every block of the file the block that its chunk went into; they are distinct, none of them is
a block of pointers, and reading gives the bytes that were written. -/
theorem ext2_write_mapping (hs : MapOk s) (buf : Mem) (len : Nat) (chunks : List Nat)
    (hloop : ext2WriteLoop s buf len = (s', bytesWritten, chunks)) :
    (∀ b < (bytesWritten + s.vol.blockSize - 1) / s.vol.blockSize,
      chunks[b]? = some (ext2GetInodeBlock s'.vol s'.ino b) ∧
      (∀ b' < (bytesWritten + s.vol.blockSize - 1) / s.vol.blockSize,
        ext2GetInodeBlock s'.vol s'.ino b = ext2GetInodeBlock s'.vol s'.ino b' → b = b') ∧
      ∀ p : Slot, p.Valid s.vol.perBlock → 0 < p.height →
        ptrAt s' p ≠ ext2GetInodeBlock s'.vol s'.ino b) ∧
    ∀ bufsize, ext2ReadFile (s'.setSize bytesWritten) bufsize =
      load buf 0 (min bytesWritten bufsize) := by
  have hwriting := writeLoop_writing (len / s.vol.blockSize + 1) (Writing.start hs buf len)
  have hsame := blockSize_writeLoop (len / s.vol.blockSize + 1) (Writing.start hs buf len)
  rw [← ext2WriteLoop, hloop] at hwriting hsame
  dsimp only at hwriting hsame
  have hbpb : s'.vol.perBlock = s.vol.perBlock := congrArg (· / 4) hsame
  have hsize : 0 < s.vol.blockSize := by have := hs.blockSize; omega
  have hchunk : ∀ b < (bytesWritten + s.vol.blockSize - 1) / s.vol.blockSize, b < chunks.length := by
    intro b hb
    have hmul := (Nat.lt_div_iff_mul_lt hsize).mp hb
    have hwritten := hwriting.written
    rw [hsame] at hwritten
    refine Nat.lt_of_mul_lt_mul_right (a := s.vol.blockSize) ?_
    omega
  have hget : ∀ b, ext2GetInodeBlock s'.vol s'.ino b = ptrAt s' (dataSlot s'.vol.perBlock b) :=
    getInodeBlock_eq s'
  have hleaf : ∀ b < chunks.length, (dataSlot s'.vol.perBlock b).Valid s'.vol.perBlock ∧
      (dataSlot s'.vol.perBlock b).height = 0 := fun b hb =>
    dataSlot_valid hwriting.mapOk.perBlock_pos (Nat.lt_of_lt_of_le hb hwriting.limit)
  have hnonzero : ∀ b < chunks.length, ptrAt s' (dataSlot s'.vol.perBlock b) ≠ 0 := by
    intro b hb
    rw [hwriting.ptr b hb]
    exact hwriting.nonzero b hb
  refine ⟨fun b hb => ⟨?_, fun b' hb' heq => ?_, fun p hp hpos heq => ?_⟩,
    fun bufsize => ext2ReadFile_eq hwriting bufsize⟩
  · rw [List.getElem?_eq_getElem (hchunk b hb), hget, hwriting.ptr b (hchunk b hb)]
  · rw [hget, hget] at heq
    exact dataSlot_inj (hwriting.mapOk.distinct _ _ (hleaf b (hchunk b hb)).1
      (hleaf b' (hchunk b' hb')).1 (hnonzero b (hchunk b hb)) heq)
  · rw [hget] at heq
    rw [← hbpb] at hp
    have hsamePlace := hwriting.mapOk.distinct _ _ (hleaf b (hchunk b hb)).1 hp
      (hnonzero b (hchunk b hb)) heq.symm
    rw [← hsamePlace, (hleaf b (hchunk b hb)).2] at hpos
    exact absurd hpos (Nat.lt_irrefl 0)

end

/-- An empty file on a volume with the free blocks `supply`. -/
def emptyFile (supply : List Nat) : Ext2File where
  vol := { blockSize := 1024, blocks := fun _ _ => 0, marked := fun _ => false, supply }
  ino := { iSize := 0, iMtime := 0, iBlocks := 0, iBlock := fun _ => 0 }

theorem ptrAt_emptyFile (supply : List Nat) (p : Slot) : ptrAt (emptyFile supply) p = 0 := by
  induction p with
  | root r => rfl
  | entry p i ih => exact ptrAt_zero_of_parent ih i

theorem emptyFile_mapOk {supply : List Nat} (hnodup : supply.Nodup)
    (hsupply : ∀ b ∈ supply, b ≠ 0 ∧ b < 2 ^ 32) : MapOk (emptyFile supply) := by
  refine ⟨Or.inl rfl, fun p q _ _ hp0 _ => absurd (ptrAt_emptyFile supply p) hp0,
    ⟨hnodup, fun b hb => (hsupply b hb).1, fun b hb => (hsupply b hb).2, fun b hb p _ => ?_⟩⟩
  rw [ptrAt_emptyFile]
  exact (hsupply b hb).1.symm

/-- Three bytes go into block 7, are found there and are read back. -/
theorem ext2_write_mapping_three :
    ∃ s', ext2WriteLoop (emptyFile [7]) (fun x => UInt8.ofNat (x + 97)) 3 = (s', 3, [7]) ∧
      ext2GetInodeBlock s'.vol s'.ino 0 = 7 ∧ ext2ReadFile (s'.setSize 3) 100 = [97, 98, 99] := by
  have hok : MapOk (emptyFile [7]) := emptyFile_mapOk (by decide) (by decide)
  have hloop : ext2WriteLoop (emptyFile [7]) (fun x => UInt8.ofNat (x + 97)) 3 =
      ((ext2WriteLoop (emptyFile [7]) (fun x => UInt8.ofNat (x + 97)) 3).1, 3, [7]) := rfl
  obtain ⟨hblocks, hread⟩ := ext2_write_mapping hok _ 3 [7] hloop
  refine ⟨_, hloop, ?_, (hread 100).trans rfl⟩
  exact (Option.some.inj (hblocks 0 (by decide)).1).symm

end Lestra
