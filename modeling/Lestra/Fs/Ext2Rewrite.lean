import Lestra.Fs.Ext2Write
import Mathlib.Data.Finset.Card
import Mathlib.Data.Finset.Union
import Mathlib.Algebra.Order.BigOperators.Group.Finset
import Mathlib.Data.Nat.ModEq

/-!
# ext2: the blocks of a file that is rewritten

`ext2_write_file` from the point where the inode is read, with its three sections for
a file that gets shorter, and `ext2_free_inode_blocks`. The question is which blocks
are marked in use afterwards.

A file that gets shorter keeps its old `i_blocks`, and from twelve blocks on it keeps
all of its blocks. An allocation that fails may leave a block of pointers without
data.

* `ext2_rewrite_law` — when the blocks of the file are those that it needs.
-/

namespace Lestra

open ByteMem

-- ---------------------------------------------------------------------------
-- Freeing
-- ---------------------------------------------------------------------------

/-- The blocks at the pointers of the block `table`, in order. -/
def entriesOf (vol : Ext2Volume) (table : Nat) : List Nat :=
  ((List.range vol.perBlock).map (blockPtr (vol.blocks table))).filter (· ≠ 0)

/-- The blocks below a double-indirect block and the block itself, in the order in which they
are freed. -/
def doubleBlocks (vol : Ext2Volume) (double : Nat) : List Nat :=
  (entriesOf vol double).flatMap (fun l1 => entriesOf vol l1 ++ [l1]) ++ [double]

def freeAll (vol : Ext2Volume) (bs : List Nat) : Ext2Volume := bs.foldl Ext2Volume.freeBlock vol

/-- The blocks that `ext2_free_inode_blocks` passes to `ext2_free_block`, in order. -/
def inodeBlocks (s : Ext2File) : List Nat :=
  ((List.range 12).map s.ino.iBlock).filter (· ≠ 0) ++
    (if s.ino.iBlock 12 ≠ 0 then entriesOf s.vol (s.ino.iBlock 12) ++ [s.ino.iBlock 12] else []) ++
    (if s.ino.iBlock 13 ≠ 0 then doubleBlocks s.vol (s.ino.iBlock 13) else [])

/-- `ext2_free_inode_blocks` -/
def ext2FreeInodeBlocks (s : Ext2File) : Ext2File where
  vol := freeAll s.vol (inodeBlocks s)
  ino := { s.ino with
    iBlock := fun r => if r < 14 then 0 else s.ino.iBlock r
    iBlocks := 0 }

/-- A block of the inode is freed, and its pointer set to 0. -/
def freeRoot (s : Ext2File) (r : Nat) : Ext2File :=
  if s.ino.iBlock r = 0 then s
  else ⟨s.vol.freeBlock (s.ino.iBlock r),
    { s.ino with iBlock := Function.update s.ino.iBlock r 0 }⟩

/-- The blocks at the pointers from `start` on are freed, and the pointers set to 0. -/
def freeEntries (bpb start : Nat) (vol : Ext2Volume) (ptr : Mem) : Ext2Volume × Mem :=
  (List.range' start (bpb - start)).foldl (fun (vol, ptr) b =>
    if blockPtr ptr b = 0 then (vol, ptr)
    else (vol.freeBlock (blockPtr ptr b), putLE ptr (4 * b) 4 0)) (vol, ptr)

/-- The section for the single-indirect range. -/
def shrinkSingle (s : Ext2File) (newBlocks : Nat) : Ext2File :=
  let single := s.ino.iBlock 12
  let start := if newBlocks > 12 then newBlocks - 12 else 0
  let (vol, ptr) := freeEntries s.vol.perBlock start s.vol (s.vol.blocks single)
  let vol := vol.writeBlock single ptr
  if newBlocks ≤ 12 then freeRoot ⟨vol, s.ino⟩ 12 else ⟨vol, s.ino⟩

/-- The section for the double-indirect range. -/
def shrinkDouble (s : Ext2File) : Ext2File :=
  ⟨freeAll s.vol (doubleBlocks s.vol (s.ino.iBlock 13)),
    { s.ino with iBlock := Function.update s.ino.iBlock 13 0 }⟩

/-- The three sections for a file that gets shorter. -/
def shrinkFile (s : Ext2File) (newBlocks oldBlocks : Nat) : Ext2File :=
  let s := (List.range' newBlocks (min oldBlocks 12 - newBlocks)).foldl freeRoot s
  let s := if newBlocks < 12 ∧ oldBlocks > 12 ∧ s.ino.iBlock 12 ≠ 0 then shrinkSingle s newBlocks
    else s
  if newBlocks < 12 ∧ oldBlocks > 12 + s.vol.perBlock ∧ s.ino.iBlock 13 ≠ 0 then shrinkDouble s
  else s

/-- `(n + ext2_block_size - 1) / ext2_block_size` of 32-bit numbers. -/
def blockCount (vol : Ext2Volume) (n : Nat) : Nat := (n + vol.blockSize - 1) % 2 ^ 32 / vol.blockSize

/-- The file before the write loop. -/
def beforeLoop (s : Ext2File) (len : Nat) : Ext2File :=
  let oldBlocks := blockCount s.vol s.ino.iSize
  let newBlocks := blockCount s.vol len
  if newBlocks < oldBlocks then shrinkFile s newBlocks oldBlocks else s

/-- `ext2_write_file` from the point where the inode is read. -/
def ext2WriteFile (s : Ext2File) (buf : Mem) (len now : Nat) : Ext2File × Nat :=
  if len = 0 then (s, 0)
  else
    let (s, bytesWritten, _) := ext2WriteLoop (beforeLoop s len) buf len
    ({ s with ino := { s.ino with iSize := bytesWritten, iMtime := now } }, bytesWritten)

-- ---------------------------------------------------------------------------
-- The blocks that a file needs
-- ---------------------------------------------------------------------------

/-- The places of the data blocks of a file of `n` blocks, and of the blocks of pointers on the
way to them. -/
def needSlots (bpb n : Nat) : Finset Slot :=
  (Finset.range n).biUnion fun b => (dataSlot bpb b).path.toFinset

/-- The blocks of `n` bytes. -/
def blocksOf (vol : Ext2Volume) (n : Nat) : Nat := (n + vol.blockSize - 1) / vol.blockSize

/-- The blocks of a file. -/
def fileBlocks (s : Ext2File) : Nat := blocksOf s.vol s.ino.iSize

/-- The file has the blocks that it needs and counts them; the blocks marked in use are these and
those of the others. -/
structure Ext2Consistent (others : Nat → Prop) (s : Ext2File) : Prop where
  blockSize : s.vol.blockSize = 1024 ∨ s.vol.blockSize = 2048 ∨ s.vol.blockSize = 4096
  distinct : SlotsDistinct s
  exact : ∀ p : Slot, p.Valid s.vol.perBlock →
    (ptrAt s p ≠ 0 ↔ p ∈ needSlots s.vol.perBlock (fileBlocks s))
  iBlocks : s.ino.iBlocks =
    (needSlots s.vol.perBlock (fileBlocks s)).card * (s.vol.blockSize / 512)
  marked : ∀ b, b ≠ 0 → (s.vol.marked b = true ↔
    others b ∨ ∃ p : Slot, p.Valid s.vol.perBlock ∧ ptrAt s p = b)
  apart : ∀ p : Slot, p.Valid s.vol.perBlock → ptrAt s p ≠ 0 → ¬ others (ptrAt s p)

/-- `ext2_free_inode_blocks` frees every block of the file, and once. -/
def FreesOnce (s : Ext2File) : Prop :=
  (inodeBlocks s).Nodup ∧ ∀ b, b ∈ inodeBlocks s ↔
    b ≠ 0 ∧ ∃ p : Slot, p.Valid s.vol.perBlock ∧ ptrAt s p = b

/-- What is asked of the file after it was rewritten. -/
structure RewriteLaw (others : Nat → Prop) (s : Ext2File) : Prop where
  consistent : Ext2Consistent others s
  unlink : FreesOnce s

/-- What `ext2_alloc_block` is going to return is clear in the bitmaps and not in use. -/
structure SupplyOk (s : Ext2File) : Prop where
  fresh : FreshFor s
  clear : ∀ b ∈ s.vol.supply, s.vol.marked b = false

section

variable {s s' s'' : Ext2File} {p q : Slot} {ps F F' : List Slot} {buf : Mem} {chunks : List Nat}
  {others : Nat → Prop} {b b' bpb i r n m len fuel bytesWritten newBlocks oldBlocks : Nat}

-- ---------------------------------------------------------------------------
-- Places
-- ---------------------------------------------------------------------------

theorem mem_needSlots : p ∈ needSlots bpb n ↔ ∃ b < n, p ∈ (dataSlot bpb b).path := by
  simp only [needSlots, Finset.mem_biUnion, Finset.mem_range, List.mem_toFinset]

theorem needSlots_mono (h : n ≤ m) : needSlots bpb n ⊆ needSlots bpb m := by
  intro p hp
  obtain ⟨b, hb, hmem⟩ := mem_needSlots.mp hp
  exact mem_needSlots.mpr ⟨b, Nat.lt_of_lt_of_le hb h, hmem⟩

theorem Slot.self_mem_path (p : Slot) : p ∈ p.path :=
  List.mem_of_getLast? (Slot.path_getLast p)

/-- The places before the last one on a path point to blocks of pointers. -/
theorem Slot.eq_of_mem_path (hp : p.Valid bpb) (hq : q ∈ p.path) (hheight : q.height ≤ p.height) :
    q = p := by
  induction p with
  | root r => exact List.mem_singleton.mp hq
  | entry p i ih =>
    rcases List.mem_append.mp hq with hq | hq
    · obtain ⟨-, hpos, hvalid⟩ := hp
      have hle : q.height ≤ p.height := Nat.le_trans hheight (Nat.sub_le _ _)
      have heq := ih hvalid hq hle
      rw [heq, Slot.height] at hheight
      omega
    · exact List.mem_singleton.mp hq

/-- Where there is nothing on the way, there is nothing at the end. -/
theorem ptrAt_zero_of_mem_path (hq : q ∈ p.path) (hzero : ptrAt s q = 0) : ptrAt s p = 0 := by
  induction p with
  | root r =>
    rw [← List.mem_singleton.mp hq]
    exact hzero
  | entry p i ih =>
    rcases List.mem_append.mp hq with hq | hq
    · exact ptrAt_zero_of_parent (ih hq) i
    · rw [← List.mem_singleton.mp hq]
      exact hzero

/-- A leaf is needed by no file that ends before its block. -/
theorem dataSlot_mem_needSlots (hbpb : 0 < bpb) (hb : b < doubleLimit bpb) (hn : n ≤ doubleLimit bpb) :
    dataSlot bpb b ∈ needSlots bpb n ↔ b < n := by
  refine ⟨fun h => ?_, fun h => mem_needSlots.mpr ⟨b, h, Slot.self_mem_path _⟩⟩
  obtain ⟨b', hb', hmem⟩ := mem_needSlots.mp h
  obtain ⟨hvalid', hheight'⟩ := dataSlot_valid hbpb (Nat.lt_of_lt_of_le hb' hn)
  have heq := Slot.eq_of_mem_path hvalid' hmem (by rw [(dataSlot_valid hbpb hb).2, hheight'])
  rw [dataSlot_inj heq]
  exact hb'

theorem needSlots_card_lt (hbpb : 0 < bpb) (h : b < n) (hn : n ≤ doubleLimit bpb) :
    (needSlots bpb b).card < (needSlots bpb n).card := by
  refine Finset.card_lt_card ⟨needSlots_mono (Nat.le_of_lt h), fun hsub => ?_⟩
  have hmem := hsub ((dataSlot_mem_needSlots hbpb (Nat.lt_of_lt_of_le h hn) hn).mpr h)
  rw [dataSlot_mem_needSlots hbpb (Nat.lt_of_lt_of_le h hn) (by omega)] at hmem
  exact absurd hmem (Nat.lt_irrefl b)

theorem path_dataSlot_length_le (bpb b : Nat) : (dataSlot bpb b).path.length ≤ 4 := by
  unfold dataSlot
  dsimp only
  split
  · exact Nat.succ_le_succ (Nat.zero_le 3)
  · split
    · exact Nat.le_add_left 2 2
    · split
      · exact Nat.le_add_left 3 1
      · exact Nat.le_refl 4

theorem needSlots_card_le (bpb n : Nat) : (needSlots bpb n).card ≤ n * 4 := by
  refine (Finset.card_biUnion_le_card_mul _ _ 4 fun b _ => ?_).trans (by rw [Finset.card_range])
  exact (List.toFinset_card_le _).trans (path_dataSlot_length_le bpb b)

theorem valid_of_mem_needSlots (hbpb : 0 < bpb) (hn : n ≤ doubleLimit bpb) (hp : p ∈ needSlots bpb n) :
    p.Valid bpb := by
  obtain ⟨b, hb, hmem⟩ := mem_needSlots.mp hp
  exact Slot.valid_of_mem_path (dataSlot_valid hbpb (Nat.lt_of_lt_of_le hb hn)).1 hmem

-- ---------------------------------------------------------------------------
-- Growing maps
-- ---------------------------------------------------------------------------

/-- `s'` is `s` with blocks at the places `F`, which were free. -/
structure MapGrew (s : Ext2File) (F : List Slot) (s' : Ext2File) : Prop where
  mapOk : MapOk s'
  blockSize : s'.vol.blockSize = s.vol.blockSize
  iBlocks : s'.ino.iBlocks ≡ s.ino.iBlocks + F.length * (s.vol.blockSize / 512) [MOD 2 ^ 32]
  iBlocks_lt : s.ino.iBlocks < 2 ^ 32 → s'.ino.iBlocks < 2 ^ 32
  supply : s.vol.supply = F.map (ptrAt s') ++ s'.vol.supply
  nodup : F.Nodup
  free : ∀ p ∈ F, p.Valid s.vol.perBlock ∧ ptrAt s p = 0 ∧ ptrAt s' p ≠ 0
  kept : ∀ p : Slot, p.Valid s.vol.perBlock → p ∉ F → ptrAt s' p = ptrAt s p
  marked : ∀ b, s'.vol.marked b = true ↔ s.vol.marked b = true ∨ b ∈ F.map (ptrAt s')

theorem MapGrew.perBlock (h : MapGrew s F s') : s'.vol.perBlock = s.vol.perBlock :=
  congrArg (· / 4) h.blockSize

theorem MapGrew.refl (hs : MapOk s) : MapGrew s [] s :=
  ⟨hs, rfl, by rw [List.length_nil, Nat.zero_mul, Nat.add_zero], id, rfl, List.nodup_nil,
    fun _ h => absurd h List.not_mem_nil, fun _ _ _ => rfl, fun b => by simp⟩

theorem MapGrew.of_fills (h : Fills s p b s') (hs : MapOk s) (hp : p.Valid s.vol.perBlock)
    (hzero : ptrAt s p = 0) : MapGrew s [p] s' := by
  have hself := h.self hp
  refine ⟨h.mapOk hs, h.blockSize, ?_, fun _ => ?_, ?_, List.nodup_singleton p, fun q hq => ?_,
    fun q hq hqp => ?_, fun c => ?_⟩
  · rw [h.iBlocks, List.length_singleton, Nat.one_mul]
    exact Nat.mod_modEq _ _
  · rw [h.iBlocks]
    exact Nat.mod_lt _ (by decide)
  · rw [List.map_singleton, hself, h.supply]
    rfl
  · rw [List.mem_singleton.mp hq, hself]
    exact ⟨hp, hzero, hs.fresh.nonzero b h.mem⟩
  · rw [h.ptr q hq, if_neg fun heq => hqp (List.mem_singleton.mpr heq)]
  · rw [h.marked, List.map_singleton, hself, List.mem_singleton]
    by_cases hc : c = b
    · rw [hc, Function.update_self]
      exact iff_of_true rfl (Or.inr rfl)
    · rw [Function.update_of_ne hc]
      exact ⟨Or.inl, fun h => h.resolve_right hc⟩

theorem MapGrew.trans (h : MapGrew s F s') (h' : MapGrew s' F' s'') : MapGrew s (F ++ F') s'' := by
  have hbpb := h.perBlock
  have hdisjoint : ∀ p ∈ F, p ∉ F' := fun p hp hp' => (h.free p hp).2.2 (h'.free p hp').2.1
  have hmap : F.map (ptrAt s'') = F.map (ptrAt s') := by
    refine List.map_congr_left fun p hp => h'.kept p ?_ (hdisjoint p hp)
    rw [hbpb]
    exact (h.free p hp).1
  refine ⟨h'.mapOk, h'.blockSize.trans h.blockSize, ?_, fun hlt => h'.iBlocks_lt (h.iBlocks_lt hlt),
    ?_, ?_, fun p hp => ?_, fun p hp hnot => ?_, fun b => ?_⟩
  · have hadd := h'.iBlocks.trans (h.iBlocks.add_right (F'.length * (s'.vol.blockSize / 512)))
    rw [h.blockSize] at hadd
    rwa [List.length_append, Nat.add_mul, ← Nat.add_assoc]
  · rw [h.supply, h'.supply, List.map_append, hmap, List.append_assoc]
  · rw [List.nodup_append']
    exact ⟨h.nodup, h'.nodup, hdisjoint⟩
  · rcases List.mem_append.mp hp with hp | hp
    · obtain ⟨hvalid, hzero, hne⟩ := h.free p hp
      refine ⟨hvalid, hzero, ?_⟩
      rwa [h'.kept p (by rwa [hbpb]) (hdisjoint p hp)]
    · obtain ⟨hvalid, hzero, hne⟩ := h'.free p hp
      rw [hbpb] at hvalid
      have hpF : p ∉ F := fun hpF => hdisjoint p hpF hp
      rw [h.kept p hvalid hpF] at hzero
      exact ⟨hvalid, hzero, hne⟩
  · rw [List.mem_append, not_or] at hnot
    rw [h'.kept p (by rwa [hbpb]) hnot.2, h.kept p hp hnot.1]
  · rw [h'.marked, h.marked, List.map_append, List.mem_append, hmap, or_assoc]

theorem MapGrew.ptr_mono (h : MapGrew s F s') (hp : p.Valid s.vol.perBlock) (hne : ptrAt s p ≠ 0) :
    ptrAt s' p ≠ 0 := by
  have hpF : p ∉ F := fun hpF => hne (h.free p hpF).2.1
  rwa [h.kept p hp hpF]

/-- What is in use afterwards: what was, and the places `F`. -/
theorem MapGrew.ptr_ne_zero (h : MapGrew s F s') (hp : p.Valid s.vol.perBlock) :
    ptrAt s' p ≠ 0 ↔ ptrAt s p ≠ 0 ∨ p ∈ F := by
  by_cases hpF : p ∈ F
  · exact iff_of_true (h.free p hpF).2.2 (Or.inr hpF)
  · rw [h.kept p hp hpF]
    exact ⟨Or.inl, fun hor => hor.resolve_right hpF⟩

theorem Ensured.grew (h : Ensured s p s' b) (hs : MapOk s) (hp : p.Valid s.vol.perBlock) :
    ∃ F, MapGrew s F s' ∧ (∀ q ∈ F, q = p) ∧ (b ≠ 0 → ptrAt s' p ≠ 0) ∧
      (b = 0 → s'.vol.supply = [] ∧ ptrAt s' p = 0) := by
  cases h with
  | there hne =>
    exact ⟨[], MapGrew.refl hs, fun _ hq => absurd hq List.not_mem_nil, id, fun h => absurd h hne⟩
  | filled hzero hfill =>
    have hb := hs.fresh.nonzero b hfill.mem
    refine ⟨[p], MapGrew.of_fills hfill hs hp hzero, fun q hq => List.mem_singleton.mp hq, fun _ => ?_,
      fun h => absurd h hb⟩
    rwa [hfill.self hp]
  | full hzero hsupply =>
    exact ⟨[], MapGrew.refl hs, fun _ hq => absurd hq List.not_mem_nil, fun h => absurd rfl h,
      fun _ => ⟨hsupply, hzero⟩⟩

/-- What filling the places of a list does to the map. -/
theorem EnsuredPath.grew (h : EnsuredPath s ps s' b) (hs : MapOk s)
    (hps : ∀ p ∈ ps, p.Valid s.vol.perBlock) : ∃ F, MapGrew s F s' ∧ (∀ p ∈ F, p ∈ ps) ∧
      (b ≠ 0 → ∀ p ∈ ps, ptrAt s' p ≠ 0) ∧
      (b = 0 → s'.vol.supply = [] ∧ ∃ p ∈ ps, ptrAt s' p = 0) := by
  induction h with
  | @last s s' p b h =>
    obtain ⟨F, hgrew, hF, hsome, hnone⟩ := h.grew hs (hps p List.mem_cons_self)
    refine ⟨F, hgrew, fun q hq => List.mem_singleton.mpr (hF q hq), fun hb q hq => ?_, fun hb => ?_⟩
    · rw [List.mem_singleton.mp hq]
      exact hsome hb
    · exact ⟨(hnone hb).1, p, List.mem_cons_self, (hnone hb).2⟩
  | @stop s s' p ps h =>
    obtain ⟨F, hgrew, hF, -, hnone⟩ := h.grew hs (hps p List.mem_cons_self)
    refine ⟨F, hgrew, fun q hq => ?_, fun hb => absurd rfl hb, fun hb => ?_⟩
    · rw [hF q hq]
      exact List.mem_cons_self
    · exact ⟨(hnone hb).1, p, List.mem_cons_self, (hnone hb).2⟩
  | @cons s s' s'' p ps b b' h hb _ ih =>
    have hp := hps p List.mem_cons_self
    obtain ⟨F, hgrew, hF, hsome, -⟩ := h.grew hs hp
    have hbpb := hgrew.perBlock
    obtain ⟨F', hgrew', hF', hsome', hnone'⟩ := ih hgrew.mapOk fun q hq => by
      rw [hbpb]
      exact hps q (List.mem_cons_of_mem _ hq)
    refine ⟨F ++ F', hgrew.trans hgrew', fun q hq => ?_, fun hb' q hq => ?_, fun hb' => ?_⟩
    · rcases List.mem_append.mp hq with hq | hq
      · rw [hF q hq]
        exact List.mem_cons_self
      · exact List.mem_cons_of_mem _ (hF' q hq)
    · rcases List.mem_cons.mp hq with rfl | hq
      · exact hgrew'.ptr_mono (by rwa [hbpb]) (hsome hb)
      · exact hsome' hb' q hq
    · obtain ⟨hsupply, q, hq, hzero⟩ := hnone' hb'
      exact ⟨hsupply, q, List.mem_cons_of_mem _ hq, hzero⟩

/-- Writing into a block of the file leaves the map alone. -/
theorem MapGrew.writeBlock (h : MapGrew s F s') (hleaf : p.Valid s'.vol.perBlock)
    (hheight : p.height = 0) (hb : ptrAt s' p = b) (blockBuf : Mem) :
    MapGrew s F { s' with vol := s'.vol.writeBlock b blockBuf } := by
  have hptr : ∀ q : Slot, q.Valid s.vol.perBlock →
      ptrAt { s' with vol := s'.vol.writeBlock b blockBuf } q = ptrAt s' q := fun q hq =>
    ptrAt_writeBlock h.mapOk hleaf hheight hb (by rwa [h.perBlock])
  have hmap : F.map (ptrAt { s' with vol := s'.vol.writeBlock b blockBuf }) = F.map (ptrAt s') :=
    List.map_congr_left fun q hq => hptr q (h.free q hq).1
  refine ⟨mapOk_writeBlock h.mapOk hleaf hheight hb, h.blockSize, h.iBlocks, h.iBlocks_lt, ?_, h.nodup,
    fun q hq => ?_, fun q hq hqF => ?_, fun c => ?_⟩
  · rw [hmap]
    exact h.supply
  · rw [hptr q (h.free q hq).1]
    exact h.free q hq
  · rw [hptr q hq]
    exact h.kept q hq hqF
  · rw [hmap]
    exact h.marked c

/-- What one pass of the write loop does to the map. -/
theorem blockForWrite_grew (hs : MapOk s) (hlimit : b < doubleLimit s.vol.perBlock) :
    ∃ F, MapGrew s F (blockForWrite s b).1 ∧ (∀ p ∈ F, p ∈ (dataSlot s.vol.perBlock b).path) ∧
      ((blockForWrite s b).2 ≠ 0 →
        ∀ p ∈ (dataSlot s.vol.perBlock b).path, ptrAt (blockForWrite s b).1 p ≠ 0) ∧
      ((blockForWrite s b).2 = 0 → (blockForWrite s b).1.vol.supply = [] ∧
        ptrAt (blockForWrite s b).1 (dataSlot s.vol.perBlock b) = 0) := by
  have hvalid := (dataSlot_valid hs.perBlock_pos hlimit).1
  obtain ⟨F, hgrew, hF, hsome, hnone⟩ := (blockForWrite_ensured hs hlimit).grew hs
    fun p hp => Slot.valid_of_mem_path hvalid hp
  refine ⟨F, hgrew, hF, hsome, fun hb => ?_⟩
  obtain ⟨hsupply, p, hp, hzero⟩ := hnone hb
  exact ⟨hsupply, ptrAt_zero_of_mem_path hp hzero⟩

/-- How the write loop leaves the map: `n` blocks are written, and where it broke off the supply
was used up, or the file was at its limit. -/
structure LoopEnds (s : Ext2File) (len : Nat) (F : List Slot) (s' : Ext2File) (n : Nat) : Prop where
  grew : MapGrew s F s'
  limit : n ≤ doubleLimit s.vol.perBlock
  le : n * s.vol.blockSize < len + s.vol.blockSize
  written : ∀ p ∈ needSlots s.vol.perBlock n, ptrAt s' p ≠ 0
  ends : (∀ p ∈ F, p ∈ needSlots s.vol.perBlock n) ∧
      (len ≤ n * s.vol.blockSize ∨ n = doubleLimit s.vol.perBlock) ∨
    (∀ p ∈ F, p ∈ needSlots s.vol.perBlock (n + 1)) ∧ n < doubleLimit s.vol.perBlock ∧
      n * s.vol.blockSize < len ∧ s'.vol.supply = [] ∧ ptrAt s' (dataSlot s.vol.perBlock n) = 0

theorem LoopEnds.stay (h : Writing s buf len bytesWritten chunks)
    (hle : chunks.length * s.vol.blockSize < len + s.vol.blockSize)
    (hneed : ∀ p ∈ needSlots s.vol.perBlock chunks.length, ptrAt s p ≠ 0)
    (hend : len ≤ chunks.length * s.vol.blockSize ∨ chunks.length = doubleLimit s.vol.perBlock) :
    LoopEnds s len [] s chunks.length :=
  ⟨MapGrew.refl h.mapOk, h.limit, hle, hneed, Or.inl ⟨fun _ hp => absurd hp List.not_mem_nil, hend⟩⟩

/-- The loop goes on from a file whose map has grown. -/
theorem LoopEnds.after (hgrew : MapGrew s F s') (hF : ∀ p ∈ F, p ∈ needSlots s.vol.perBlock n)
    (h : LoopEnds s' len F' s'' n) : LoopEnds s len (F ++ F') s'' n := by
  obtain ⟨hgrew', hlimit, hle, hwritten, hends⟩ := h
  rw [hgrew.perBlock] at hlimit hwritten hends
  rw [hgrew.blockSize] at hle hends
  refine ⟨hgrew.trans hgrew', hlimit, hle, hwritten, hends.imp (fun h => ⟨fun p hp => ?_, h.2⟩)
    fun h => ⟨fun p hp => ?_, h.2⟩⟩
  · exact (List.mem_append.mp hp).elim (hF p) (h.1 p)
  · exact (List.mem_append.mp hp).elim (fun hp => needSlots_mono (Nat.le_succ n) (hF p hp)) (h.1 p)

theorem writeLoop_ends (fuel : Nat) (h : Writing s buf len bytesWritten chunks)
    (hle : chunks.length * s.vol.blockSize < len + s.vol.blockSize)
    (hneed : ∀ p ∈ needSlots s.vol.perBlock chunks.length, ptrAt s p ≠ 0)
    (hfuel : len < (chunks.length + fuel) * s.vol.blockSize) :
    ∃ F, chunks.length ≤ (writeLoop buf len fuel s bytesWritten chunks).2.2.length ∧
      LoopEnds s len F (writeLoop buf len fuel s bytesWritten chunks).1
        (writeLoop buf len fuel s bytesWritten chunks).2.2.length := by
  induction fuel generalizing s bytesWritten chunks with
  | zero =>
    rw [Nat.add_zero] at hfuel
    exact ⟨[], Nat.le_refl _, LoopEnds.stay h hle hneed (Or.inl (Nat.le_of_lt hfuel))⟩
  | succ fuel ih =>
    rw [writeLoop]
    split
    · rename_i hlt
      have hsize : 0 < s.vol.blockSize := by have := h.mapOk.blockSize; omega
      have hwritten : bytesWritten = chunks.length * s.vol.blockSize := by
        have := h.written
        omega
      have hidx : bytesWritten / s.vol.blockSize = chunks.length := by
        rw [hwritten, Nat.mul_div_cancel _ hsize]
      have hpass := fun hb => h.pass hlt hb
      rw [hidx] at hpass ⊢
      dsimp only
      by_cases hlimit : chunks.length < doubleLimit s.vol.perBlock
      · obtain ⟨F, hgrew, hF, hsome, hnone⟩ := blockForWrite_grew h.mapOk hlimit
        have hvalid := dataSlot_valid h.mapOk.perBlock_pos hlimit
        split
        · rename_i hb
          obtain ⟨hsupply, hzero⟩ := hnone hb
          refine ⟨F, Nat.le_refl _, hgrew, h.limit, hle, fun p hp => hgrew.ptr_mono ?_ (hneed p hp),
            Or.inr ⟨fun p hp => ?_, hlimit, hwritten ▸ hlt, hsupply, hzero⟩⟩
          · exact valid_of_mem_needSlots h.mapOk.perBlock_pos h.limit hp
          · exact mem_needSlots.mpr ⟨chunks.length, Nat.lt_succ_self _, hF p hp⟩
        · rename_i hb
          have hnext := hpass hb
          have hsize' := hgrew.blockSize
          have hbpb := hgrew.perBlock
          -- the chunk goes into the leaf that was filled
          have hgrew' := hgrew.writeBlock (by rw [hbpb]; exact hvalid.1) hvalid.2
            (blockForWrite_ptr h.mapOk hb)
            (store ((blockForWrite s chunks.length).1.vol.blocks (blockForWrite s chunks.length).2)
              (bytesWritten % (blockForWrite s chunks.length).1.vol.blockSize)
              (load buf bytesWritten
                (toWrite (blockForWrite s chunks.length).1.vol.blockSize len bytesWritten)))
          change MapGrew s F (writeChunk (blockForWrite s chunks.length).1 buf len bytesWritten
            (blockForWrite s chunks.length).2) at hgrew'
          have hlen : (chunks ++ [(blockForWrite s chunks.length).2]).length = chunks.length + 1 := by
            rw [List.length_append, List.length_singleton]
          generalize hs₂ : writeChunk (blockForWrite s chunks.length).1 buf len bytesWritten
            (blockForWrite s chunks.length).2 = s₂ at hnext hgrew' ⊢
          have hneed' : ∀ p ∈ needSlots s.vol.perBlock (chunks.length + 1), ptrAt s₂ p ≠ 0 := by
            intro p hp
            obtain ⟨b, hb', hmem⟩ := mem_needSlots.mp hp
            rcases Nat.lt_succ_iff_lt_or_eq.mp hb' with hb' | rfl
            · have hold := mem_needSlots.mpr ⟨b, hb', hmem⟩
              exact hgrew'.ptr_mono (valid_of_mem_needSlots h.mapOk.perBlock_pos h.limit hold)
                (hneed p hold)
            · have hp := Slot.valid_of_mem_path hvalid.1 hmem
              rw [hgrew'.ptr_ne_zero hp, ← hgrew.ptr_ne_zero hp]
              exact hsome hb p hmem
          obtain ⟨F', hmono, hends⟩ := ih hnext
            (by rw [hlen, hgrew'.blockSize, Nat.succ_mul]; omega)
            (by rwa [hlen, hgrew'.perBlock])
            (by rw [hlen, hgrew'.blockSize]; rwa [Nat.add_assoc, Nat.add_comm 1])
          rw [hlen] at hmono
          refine ⟨F ++ F', by omega, LoopEnds.after hgrew' (fun p hp => ?_) hends⟩
          exact mem_needSlots.mpr ⟨chunks.length, hmono, hF p hp⟩
      · have heq : chunks.length = doubleLimit s.vol.perBlock := by
          have := h.limit
          omega
        have hzero : blockForWrite s chunks.length = (s, 0) := by
          rw [doubleLimit] at heq
          rw [blockForWrite, if_neg (by omega), if_neg (by omega), if_neg (by omega)]
        rw [hzero, if_pos rfl]
        exact ⟨[], Nat.le_refl _, LoopEnds.stay h hle hneed (Or.inr heq)⟩
    · rename_i hlt
      have hend : len ≤ chunks.length * s.vol.blockSize := by
        have := h.written
        omega
      exact ⟨[], Nat.le_refl _, LoopEnds.stay h hle hneed (Or.inl hend)⟩

-- ---------------------------------------------------------------------------
-- Freeing the blocks of an inode
-- ---------------------------------------------------------------------------

@[simp] theorem blocks_freeBlock (vol : Ext2Volume) (b : Nat) :
    (vol.freeBlock b).blocks = vol.blocks := by
  rw [Ext2Volume.freeBlock]
  split <;> rfl

@[simp] theorem blockSize_freeBlock (vol : Ext2Volume) (b : Nat) :
    (vol.freeBlock b).blockSize = vol.blockSize := by
  rw [Ext2Volume.freeBlock]
  split <;> rfl

@[simp] theorem supply_freeBlock (vol : Ext2Volume) (b : Nat) :
    (vol.freeBlock b).supply = vol.supply := by
  rw [Ext2Volume.freeBlock]
  split <;> rfl

/-- Freeing blocks changes nothing but the bitmaps. -/
theorem freeAll_same (vol : Ext2Volume) (bs : List Nat) :
    (freeAll vol bs).blocks = vol.blocks ∧ (freeAll vol bs).blockSize = vol.blockSize ∧
      (freeAll vol bs).supply = vol.supply := by
  induction bs generalizing vol with
  | nil => exact ⟨rfl, rfl, rfl⟩
  | cons b bs ih =>
    obtain ⟨hblocks, hsize, hsupply⟩ := ih (vol.freeBlock b)
    exact ⟨hblocks.trans (blocks_freeBlock vol b), hsize.trans (blockSize_freeBlock vol b),
      hsupply.trans (supply_freeBlock vol b)⟩

theorem marked_freeAll (vol : Ext2Volume) (bs : List Nat) (hb : b ≠ 0) :
    (freeAll vol bs).marked b = true ↔ vol.marked b = true ∧ b ∉ bs := by
  induction bs generalizing vol with
  | nil => exact ⟨fun h => ⟨h, List.not_mem_nil⟩, And.left⟩
  | cons c bs ih =>
    rw [freeAll, List.foldl_cons, ← freeAll, ih, List.mem_cons, not_or, Ext2Volume.freeBlock]
    by_cases hbc : b = c
    · rw [← hbc, if_neg hb]
      simp
    · split
      · simp [hbc]
      · simp [hbc]

/-- The places directly below a place, and the place itself. -/
def slotsBelow (bpb : Nat) (p : Slot) : List Slot := (List.range bpb).map p.entry ++ [p]

/-- The places of the blocks that are freed with an inode, in order. -/
def inodeSlots (bpb : Nat) : List Slot :=
  (List.range 12).map .root ++ slotsBelow bpb (.root 12) ++
    ((List.range bpb).flatMap (fun i => slotsBelow bpb (.entry (.root 13) i)) ++ [.root 13])

/-- The nonzero pointers below a place. -/
theorem entriesOf_eq (hne : ptrAt s p ≠ 0) : entriesOf s.vol (ptrAt s p) =
    ((List.range s.vol.perBlock).map fun i => ptrAt s (.entry p i)).filter (· ≠ 0) := by
  rw [entriesOf]
  congr 1
  refine List.map_congr_left fun i _ => ?_
  rw [ptrAt, if_neg hne]

/-- The block at a place and those at the pointers below it, where there is one. -/
theorem slotBlocks_eq (s : Ext2File) (p : Slot) :
    ((slotsBelow s.vol.perBlock p).map (ptrAt s)).filter (· ≠ 0) =
      if ptrAt s p = 0 then [] else entriesOf s.vol (ptrAt s p) ++ [ptrAt s p] := by
  rw [slotsBelow, List.map_append, List.filter_append, List.map_map]
  split
  · rename_i hzero
    rw [List.map_singleton, hzero, List.append_eq_nil_iff, List.filter_eq_nil_iff]
    refine ⟨fun b hb => ?_, rfl⟩
    obtain ⟨i, -, rfl⟩ := List.mem_map.mp hb
    simp [ptrAt_zero_of_parent hzero]
  · rename_i hne
    rw [entriesOf_eq hne, List.map_singleton, List.filter_cons_of_pos (by simpa using hne)]
    rfl

theorem flatMap_filter_map {f : Nat → Nat} {g : Nat → List Nat} (L : List Nat) :
    ((L.map f).filter (· ≠ 0)).flatMap g = L.flatMap fun i => if f i = 0 then [] else g (f i) := by
  induction L with
  | nil => rfl
  | cons i L ih =>
    rw [List.map_cons, List.flatMap_cons, ← ih]
    by_cases hi : f i = 0
    · rw [List.filter_cons_of_neg (by simpa using hi), if_pos hi, List.nil_append]
    · rw [List.filter_cons_of_pos (by simpa using hi), if_neg hi, List.flatMap_cons]

theorem inodeBlocks_eq (s : Ext2File) :
    inodeBlocks s = ((inodeSlots s.vol.perBlock).map (ptrAt s)).filter (· ≠ 0) := by
  have hsingle : (if s.ino.iBlock 12 ≠ 0 then
      entriesOf s.vol (s.ino.iBlock 12) ++ [s.ino.iBlock 12] else []) =
      ((slotsBelow s.vol.perBlock (.root 12)).map (ptrAt s)).filter (· ≠ 0) := by
    rw [slotBlocks_eq, ite_not]
    rfl
  have hdouble : (if s.ino.iBlock 13 ≠ 0 then doubleBlocks s.vol (s.ino.iBlock 13) else []) =
      (((List.range s.vol.perBlock).flatMap (fun i => slotsBelow s.vol.perBlock
        (.entry (.root 13) i)) ++ [Slot.root 13]).map (ptrAt s)).filter (· ≠ 0) := by
    rw [List.map_append, List.filter_append, List.map_flatMap, List.filter_flatMap]
    simp only [slotBlocks_eq]
    have hroot : ptrAt s (.root 13) = s.ino.iBlock 13 := rfl
    by_cases hne : ptrAt s (.root 13) = 0
    · have hbelow : ((List.range s.vol.perBlock).flatMap fun i =>
          if ptrAt s (.entry (.root 13) i) = 0 then []
          else entriesOf s.vol (ptrAt s (.entry (.root 13) i)) ++
            [ptrAt s (.entry (.root 13) i)]) = [] := by
        rw [List.flatMap_eq_nil_iff]
        exact fun i _ => if_pos (ptrAt_zero_of_parent hne i)
      rw [hbelow, List.map_singleton, hne, if_neg (not_not.mpr (hroot.symm.trans hne))]
      rfl
    · have hentries := entriesOf_eq hne
      rw [hroot] at hne hentries
      rw [if_pos hne, doubleBlocks, hentries, flatMap_filter_map, List.map_singleton, hroot,
        List.filter_cons_of_pos (by simpa using hne)]
      rfl
  rw [inodeBlocks, inodeSlots, List.map_append, List.map_append, List.filter_append,
    List.filter_append, hsingle, hdouble, List.map_map]
  rfl

theorem mem_slotsBelow : q ∈ slotsBelow bpb p ↔ (∃ i < bpb, q = .entry p i) ∨ q = p := by
  simp only [slotsBelow, List.mem_append, List.mem_map, List.mem_range, List.mem_singleton, eq_comm]

/-- The root of a place. -/
def Slot.rootOf : Slot → Nat
  | .root r => r
  | .entry p _ => p.rootOf

theorem Slot.height_le (p : Slot) : p.height ≤ p.rootOf - 11 := by
  induction p with
  | root r => exact Nat.le_refl _
  | entry p i ih => exact (Nat.sub_le _ _).trans ih

theorem Slot.rootOf_lt (hp : p.Valid bpb) : p.rootOf < 15 := by
  induction p with
  | root r => exact hp
  | entry p i ih => exact ih hp.2.2

theorem Slot.rootOf_of_mem_path (hq : q ∈ p.path) : q.rootOf = p.rootOf := by
  induction p with
  | root r => rw [List.mem_singleton.mp hq]
  | entry p i ih =>
    rcases List.mem_append.mp hq with hq | hq
    · exact ih hq
    · rw [List.mem_singleton.mp hq]

/-- The places that are freed with an inode are those not below the triple-indirect pointer. -/
theorem mem_inodeSlots : p ∈ inodeSlots bpb ↔ p.Valid bpb ∧ p.rootOf < 14 := by
  simp only [inodeSlots, List.mem_append, List.mem_map, List.mem_range, List.mem_flatMap,
    List.mem_singleton, mem_slotsBelow]
  cases p with
  | root r =>
    simp only [Slot.root.injEq, exists_eq_right, reduceCtorEq, and_false, exists_false, or_false,
      false_or, Slot.Valid, Slot.rootOf]
    omega
  | entry p i =>
    cases p with
    | root r =>
      simp only [reduceCtorEq, and_false, false_and, exists_false, false_or, or_false,
        Slot.entry.injEq, Slot.root.injEq, Slot.Valid, Slot.height, Slot.rootOf]
      constructor
      · rintro (⟨j, hj, rfl, rfl⟩ | ⟨j, hj, rfl, rfl⟩)
        · omega
        · omega
      · rintro ⟨⟨hi, hpos, hr⟩, hlt⟩
        rcases (by omega : r = 12 ∨ r = 13) with rfl | rfl
        · exact Or.inl ⟨i, hi, rfl, rfl⟩
        · exact Or.inr ⟨i, hi, rfl, rfl⟩
    | entry p j =>
      cases p with
      | root r =>
        simp only [reduceCtorEq, and_false, exists_false, false_or, or_false, Slot.entry.injEq,
          Slot.root.injEq, Slot.Valid, Slot.height, Slot.rootOf, false_and]
        constructor
        · rintro ⟨k, hk, l, hl, ⟨rfl, rfl⟩, rfl⟩
          omega
        · rintro ⟨⟨hi, hpos, hj, hpos', hr⟩, hlt⟩
          exact ⟨j, hj, i, hi, ⟨by omega, rfl⟩, rfl⟩
      | entry p k =>
        have hheight := p.height_le
        simp only [reduceCtorEq, and_false, exists_false, or_false, Slot.entry.injEq,
          Slot.Valid, Slot.height, Slot.rootOf, false_and, false_iff]
        rintro ⟨⟨-, hpos, -⟩, hlt⟩
        omega

theorem slotsBelow_nodup (bpb : Nat) (p : Slot) : (slotsBelow bpb p).Nodup := by
  rw [slotsBelow, List.nodup_append']
  refine ⟨List.nodup_range.map fun i j h => (Slot.entry.inj h).2, List.nodup_singleton p,
    fun q hq hqp => ?_⟩
  obtain ⟨i, -, rfl⟩ := List.mem_map.mp hq
  have hlen := congrArg sizeOf (List.mem_singleton.mp hqp)
  simp at hlen
  omega

theorem inodeSlots_nodup (bpb : Nat) : (inodeSlots bpb).Nodup := by
  rw [inodeSlots, List.nodup_append', List.nodup_append', List.nodup_append', List.nodup_flatMap]
  refine ⟨⟨List.nodup_range.map fun r r' h => Slot.root.inj h, slotsBelow_nodup _ _, fun q hq hq' => ?_⟩,
    ⟨⟨fun i _ => slotsBelow_nodup _ _, ?_⟩, List.nodup_singleton _, fun q hq hq' => ?_⟩,
    fun q hq hq' => ?_⟩
  · obtain ⟨r, hr, rfl⟩ := List.mem_map.mp hq
    have hr := List.mem_range.mp hr
    rcases mem_slotsBelow.mp hq' with ⟨i, -, h⟩ | h
    · exact absurd h (by simp)
    · have := Slot.root.inj h
      omega
  · refine List.nodup_range.imp fun {i j} hij q hq hq' => ?_
    rcases mem_slotsBelow.mp hq with ⟨k, -, rfl⟩ | rfl <;>
      rcases mem_slotsBelow.mp hq' with ⟨k', -, h⟩ | h <;> simp at h
    · exact hij h.1
    · exact hij h
  · obtain ⟨i, -, hq⟩ := List.mem_flatMap.mp hq
    rw [List.mem_singleton.mp hq'] at hq
    rcases mem_slotsBelow.mp hq with ⟨k, -, h⟩ | h <;> simp at h
  · rcases List.mem_append.mp hq' with hq' | hq'
    · obtain ⟨i, -, hq'⟩ := List.mem_flatMap.mp hq'
      have hroot : q.rootOf = 13 := by
        rcases mem_slotsBelow.mp hq' with ⟨k, -, rfl⟩ | rfl <;> rfl
      rcases List.mem_append.mp hq with hq | hq
      · obtain ⟨r, hr, rfl⟩ := List.mem_map.mp hq
        have hr := List.mem_range.mp hr
        rw [Slot.rootOf] at hroot
        omega
      · rcases mem_slotsBelow.mp hq with ⟨k, -, rfl⟩ | rfl <;> simp [Slot.rootOf] at hroot
    · rw [List.mem_singleton.mp hq'] at hq
      rcases List.mem_append.mp hq with hq | hq
      · obtain ⟨r, hr, h⟩ := List.mem_map.mp hq
        have hr := List.mem_range.mp hr
        have := Slot.root.inj h
        omega
      · rcases mem_slotsBelow.mp hq with ⟨k, -, h⟩ | h <;> simp at h

theorem mem_inodeBlocks : b ∈ inodeBlocks s ↔
    b ≠ 0 ∧ ∃ p : Slot, p.Valid s.vol.perBlock ∧ p.rootOf < 14 ∧ ptrAt s p = b := by
  rw [inodeBlocks_eq, List.mem_filter, List.mem_map, decide_eq_true_iff, and_comm]
  simp only [mem_inodeSlots, and_assoc]

/-- **Freeing an inode.** Every block is freed, and once, when none is triple-indirect. -/
theorem freesOnce_iff (hdistinct : SlotsDistinct s) :
    FreesOnce s ↔ ∀ p : Slot, p.Valid s.vol.perBlock → p.rootOf = 14 → ptrAt s p = 0 := by
  constructor
  · intro h p hp hroot
    by_contra hne
    have hmem := (h.2 (ptrAt s p)).mpr ⟨hne, p, hp, rfl⟩
    obtain ⟨-, q, hq, hroot', heq⟩ := mem_inodeBlocks.mp hmem
    rw [hdistinct p q hp hq hne heq.symm] at hroot
    omega
  · intro h
    refine ⟨?_, fun b => ?_⟩
    · rw [inodeBlocks_eq, List.filter_map]
      refine List.Nodup.map_on (fun p hp q hq heq => ?_) ((inodeSlots_nodup _).filter _)
      obtain ⟨hp, hne⟩ := List.mem_filter.mp hp
      obtain ⟨hq, -⟩ := List.mem_filter.mp hq
      exact hdistinct p q (mem_inodeSlots.mp hp).1 (mem_inodeSlots.mp hq).1 (by simpa using hne) heq
    · rw [mem_inodeBlocks]
      refine and_congr_right fun hb => exists_congr fun p => and_congr_right fun hp => ?_
      refine ⟨And.right, fun heq => ⟨?_, heq⟩⟩
      have hlt := Slot.rootOf_lt hp
      have hne : p.rootOf ≠ 14 := fun hroot => hb (heq.symm.trans (h p hp hroot))
      omega

-- ---------------------------------------------------------------------------
-- A file that gets shorter
-- ---------------------------------------------------------------------------

/-- `s'` is `s` without some of the pointers of the inode. Of the blocks, that of the
single-indirect pointer may have changed, if the pointer is gone. -/
structure Cut (s s' : Ext2File) : Prop where
  blockSize : s'.vol.blockSize = s.vol.blockSize
  supply : s'.vol.supply = s.vol.supply
  iBlocks : s'.ino.iBlocks = s.ino.iBlocks
  root : ∀ r, s'.ino.iBlock r = 0 ∨ s'.ino.iBlock r = s.ino.iBlock r
  blocks : ∀ x, s'.vol.blocks x = s.vol.blocks x ∨
    x ≠ 0 ∧ x = s.ino.iBlock 12 ∧ s'.ino.iBlock 12 = 0

theorem Cut.refl (s : Ext2File) : Cut s s :=
  ⟨rfl, rfl, rfl, fun _ => Or.inr rfl, fun _ => Or.inl rfl⟩

theorem Cut.trans (h : Cut s s') (h' : Cut s' s'') : Cut s s'' := by
  refine ⟨h'.blockSize.trans h.blockSize, h'.supply.trans h.supply, h'.iBlocks.trans h.iBlocks,
    fun r => ?_, fun x => ?_⟩
  · rcases h'.root r with hr | hr
    · exact Or.inl hr
    · rw [hr]
      exact h.root r
  · rcases h'.blocks x with hx | ⟨hne, hx, hzero⟩
    · rw [hx]
      refine (h.blocks x).imp_right fun ⟨hne, heq, hzero⟩ => ⟨hne, heq, ?_⟩
      rcases h'.root 12 with h12 | h12
      · exact h12
      · rw [h12, hzero]
    · refine Or.inr ⟨hne, ?_, hzero⟩
      rcases h.root 12 with h12 | h12
      · exact absurd (hx.trans h12) hne
      · rw [hx, h12]

theorem freeRoot_cut (s : Ext2File) (r : Nat) : Cut s (freeRoot s r) := by
  rw [freeRoot]
  split
  · exact Cut.refl s
  · refine ⟨blockSize_freeBlock .., supply_freeBlock .., rfl, fun r' => ?_, fun x => Or.inl ?_⟩
    · by_cases hr : r' = r
      · exact Or.inl (by rw [hr]; exact Function.update_self ..)
      · exact Or.inr (Function.update_of_ne hr ..)
    · exact congrFun (blocks_freeBlock ..) x

theorem freeRoot_self (s : Ext2File) (r : Nat) : (freeRoot s r).ino.iBlock r = 0 := by
  rw [freeRoot]
  split
  · rename_i h
    exact h
  · exact Function.update_self ..

theorem freeRoots_cut (rs : List Nat) (s : Ext2File) :
    Cut s (rs.foldl freeRoot s) ∧ ∀ r ∈ rs, (rs.foldl freeRoot s).ino.iBlock r = 0 := by
  induction rs generalizing s with
  | nil => exact ⟨Cut.refl s, fun _ h => absurd h List.not_mem_nil⟩
  | cons r rs ih =>
    obtain ⟨hcut, hzero⟩ := ih (freeRoot s r)
    refine ⟨(freeRoot_cut s r).trans hcut, fun r' hr' => ?_⟩
    rcases List.mem_cons.mp hr' with rfl | hr'
    · rcases hcut.root r' with h | h
      · exact h
      · exact h.trans (freeRoot_self s r')
    · exact hzero r' hr'

/-- Freeing the entries of a block of pointers changes nothing but the bitmaps. -/
theorem freeEntries_same (bpb start : Nat) (vol : Ext2Volume) (ptr : Mem) :
    (freeEntries bpb start vol ptr).1.blocks = vol.blocks ∧
      (freeEntries bpb start vol ptr).1.blockSize = vol.blockSize ∧
      (freeEntries bpb start vol ptr).1.supply = vol.supply := by
  rw [freeEntries]
  generalize List.range' start (bpb - start) = bs
  induction bs generalizing vol ptr with
  | nil => exact ⟨rfl, rfl, rfl⟩
  | cons b bs ih =>
    rw [List.foldl_cons]
    dsimp only
    split
    · exact ih vol ptr
    · obtain ⟨hblocks, hsize, hsupply⟩ := ih (vol.freeBlock (blockPtr ptr b)) (putLE ptr (4 * b) 4 0)
      exact ⟨hblocks.trans (blocks_freeBlock ..), hsize.trans (blockSize_freeBlock ..),
        hsupply.trans (supply_freeBlock ..)⟩

theorem shrinkSingle_cut (hnew : newBlocks < 12) (hne : s.ino.iBlock 12 ≠ 0) :
    Cut s (shrinkSingle s newBlocks) := by
  rw [shrinkSingle]
  dsimp only
  rw [if_pos (Nat.le_of_lt hnew)]
  have hsame := freeEntries_same s.vol.perBlock (if newBlocks > 12 then newBlocks - 12 else 0) s.vol
    (s.vol.blocks (s.ino.iBlock 12))
  generalize freeEntries s.vol.perBlock (if newBlocks > 12 then newBlocks - 12 else 0) s.vol
    (s.vol.blocks (s.ino.iBlock 12)) = e at hsame ⊢
  obtain ⟨vol, ptr⟩ := e
  obtain ⟨hblocks, hsize, hsupply⟩ := hsame
  dsimp only at hblocks hsize hsupply ⊢
  have hzero := freeRoot_self ⟨vol.writeBlock (s.ino.iBlock 12) ptr, s.ino⟩ 12
  obtain ⟨hsize', hsupply', hiBlocks, hroot, hblocks'⟩ :=
    freeRoot_cut ⟨vol.writeBlock (s.ino.iBlock 12) ptr, s.ino⟩ 12
  refine ⟨hsize'.trans hsize, hsupply'.trans hsupply, hiBlocks, hroot, fun x => ?_⟩
  by_cases hx : x = s.ino.iBlock 12
  · exact Or.inr ⟨hx ▸ hne, hx, hzero⟩
  · refine Or.inl ?_
    rcases hblocks' x with h | h
    · rw [h]
      dsimp only
      rw [blocks_writeBlock_ne hx, hblocks]
    · exact absurd h.2.1 hx

theorem shrinkDouble_cut (s : Ext2File) : Cut s (shrinkDouble s) := by
  obtain ⟨hblocks, hsize, hsupply⟩ := freeAll_same s.vol (doubleBlocks s.vol (s.ino.iBlock 13))
  refine ⟨hsize, hsupply, rfl, fun r => ?_, fun x => Or.inl (congrFun hblocks x)⟩
  by_cases hr : r = 13
  · subst hr
    exact Or.inl (Function.update_self 13 0 s.ino.iBlock)
  · exact Or.inr (Function.update_of_ne hr 0 s.ino.iBlock)

/-- A file that gets shorter than twelve blocks loses pointers, its first one behind the end among
them; another keeps all. -/
theorem shrinkFile_cut (s : Ext2File) (newBlocks oldBlocks : Nat) :
    Cut s (shrinkFile s newBlocks oldBlocks) ∧
      (newBlocks < 12 → newBlocks < oldBlocks →
        (shrinkFile s newBlocks oldBlocks).ino.iBlock newBlocks = 0) ∧
      (12 ≤ newBlocks → shrinkFile s newBlocks oldBlocks = s) := by
  obtain ⟨hcut, hzero⟩ := freeRoots_cut (List.range' newBlocks (min oldBlocks 12 - newBlocks)) s
  rw [shrinkFile]
  generalize hs₁ : (List.range' newBlocks (min oldBlocks 12 - newBlocks)).foldl freeRoot s = s₁
    at hcut hzero ⊢
  have hsecond : Cut s₁ (if newBlocks < 12 ∧ oldBlocks > 12 ∧ s₁.ino.iBlock 12 ≠ 0 then
      shrinkSingle s₁ newBlocks else s₁) := by
    split
    · rename_i h
      exact shrinkSingle_cut h.1 h.2.2
    · exact Cut.refl s₁
  generalize hs₂ : (if newBlocks < 12 ∧ oldBlocks > 12 ∧ s₁.ino.iBlock 12 ≠ 0 then
      shrinkSingle s₁ newBlocks else s₁) = s₂ at hsecond ⊢
  have hthird : Cut s₂ (if newBlocks < 12 ∧ oldBlocks > 12 + s₂.vol.perBlock ∧
      s₂.ino.iBlock 13 ≠ 0 then shrinkDouble s₂ else s₂) := by
    split
    · exact shrinkDouble_cut s₂
    · exact Cut.refl s₂
  refine ⟨hcut.trans (hsecond.trans hthird), fun hnew hlt => ?_, fun hnew => ?_⟩
  · have h₁ := hzero newBlocks (List.mem_range'_1.mpr ⟨Nat.le_refl _, by omega⟩)
    rcases (hsecond.trans hthird).root newBlocks with h | h
    · exact h
    · exact h.trans h₁
  · have hnil : min oldBlocks 12 - newBlocks = 0 := by omega
    rw [hnil] at hs₁
    rw [if_neg (by omega), ← hs₂, if_neg (by omega), ← hs₁]
    rfl

/-- What is left of the map. -/
theorem Cut.ptrAt_eq (h : Cut s s') (hdistinct : SlotsDistinct s) (hp : p.Valid s.vol.perBlock) :
    ptrAt s' p = 0 ∨ ptrAt s' p = ptrAt s p := by
  induction p with
  | root r => exact h.root r
  | entry p i ih =>
    by_cases hzero : ptrAt s' p = 0
    · exact Or.inl (ptrAt_zero_of_parent hzero i)
    · have hsame := (ih hp.2.2).resolve_left hzero
      have hblocks : s'.vol.blocks (ptrAt s p) = s.vol.blocks (ptrAt s p) := by
        rcases h.blocks (ptrAt s p) with hb | ⟨hne, heq, h12⟩
        · exact hb
        · -- the block was the single-indirect one, and nothing points to it any more
          have hplace := hdistinct p (.root 12) hp.2.2 (show 12 < 15 by decide) hne heq
          rw [hplace] at hzero
          exact absurd h12 hzero
      refine Or.inr ?_
      rw [ptrAt, ptrAt, hsame, hblocks]

theorem Cut.distinct (h : Cut s s') (hdistinct : SlotsDistinct s) : SlotsDistinct s' := by
  have hbpb : s'.vol.perBlock = s.vol.perBlock := congrArg (· / 4) h.blockSize
  intro p q hp hq hne heq
  rw [hbpb] at hp hq
  have hp' := (h.ptrAt_eq hdistinct hp).resolve_left hne
  have hq' := (h.ptrAt_eq hdistinct hq).resolve_left (heq ▸ hne)
  rw [hp'] at hne heq
  rw [hq'] at heq
  exact hdistinct p q hp hq hne heq

-- ---------------------------------------------------------------------------
-- The law
-- ---------------------------------------------------------------------------

/-- There are blocks for all that is missing, or they run out just after a block of data. -/
def StopsClean (s : Ext2File) (len : Nat) : Prop :=
  ∃ b, fileBlocks s ≤ b ∧ b ≤ min (blocksOf s.vol len) (doubleLimit s.vol.perBlock) ∧
    (needSlots s.vol.perBlock b).card ≤
      (needSlots s.vol.perBlock (fileBlocks s)).card + s.vol.supply.length ∧
    (b = min (blocksOf s.vol len) (doubleLimit s.vol.perBlock) ∨
      (needSlots s.vol.perBlock b).card =
        (needSlots s.vol.perBlock (fileBlocks s)).card + s.vol.supply.length)

theorem rootOf_dataSlot (b : Nat) : (dataSlot bpb b).rootOf = 14 ↔ doubleLimit bpb ≤ b := by
  rw [doubleLimit]
  unfold dataSlot
  dsimp only
  split
  · rw [Slot.rootOf]
    omega
  · split
    · simp only [Slot.rootOf]
      omega
    · split
      · simp only [Slot.rootOf]
        omega
      · refine iff_of_true rfl ?_
        omega

theorem rootOf_ne_of_mem_needSlots (hn : n ≤ doubleLimit bpb) (hp : p ∈ needSlots bpb n) :
    p.rootOf ≠ 14 := by
  obtain ⟨b, hb, hmem⟩ := mem_needSlots.mp hp
  rw [Slot.rootOf_of_mem_path hmem, ne_eq, rootOf_dataSlot]
  omega

theorem triple_mem_needSlots (hn : doubleLimit bpb < n) : Slot.root 14 ∈ needSlots bpb n := by
  refine mem_needSlots.mpr ⟨doubleLimit bpb, hn, ?_⟩
  have h12 : ¬ doubleLimit bpb < 12 := by
    rw [doubleLimit]
    omega
  have hsingle : ¬ doubleLimit bpb - 12 < bpb := by
    rw [doubleLimit]
    omega
  have hdouble : ¬ doubleLimit bpb - 12 - bpb < bpb * bpb := by
    rw [doubleLimit]
    omega
  unfold dataSlot
  simp only [if_neg h12, if_neg hsingle, if_neg hdouble, Slot.path, List.mem_append,
    List.mem_singleton, true_or]

/-- Rounding up to blocks. -/
theorem blocksOf_spec {vol : Ext2Volume} (h : 0 < vol.blockSize) :
    n ≤ blocksOf vol n * vol.blockSize ∧ (blocksOf vol n * vol.blockSize < n + vol.blockSize) := by
  rw [blocksOf]
  have hdiv := Nat.div_add_mod (n + vol.blockSize - 1) vol.blockSize
  have hmod := Nat.mod_lt (n + vol.blockSize - 1) h
  rw [Nat.mul_comm] at hdiv
  omega

theorem blocksOf_eq {vol : Ext2Volume} (h : 0 < vol.blockSize) (hle : n ≤ b * vol.blockSize)
    (hlt : b * vol.blockSize < n + vol.blockSize) : blocksOf vol n = b := by
  obtain ⟨h₁, h₂⟩ := blocksOf_spec (n := n) h
  refine Nat.le_antisymm ?_ ?_
  · refine Nat.le_of_lt_succ (Nat.lt_of_mul_lt_mul_right (a := vol.blockSize) ?_)
    rw [Nat.succ_mul]
    omega
  · refine Nat.le_of_lt_succ (Nat.lt_of_mul_lt_mul_right (a := vol.blockSize) ?_)
    rw [Nat.succ_mul]
    omega

theorem Ext2Consistent.unlink_iff (h : Ext2Consistent others s) :
    FreesOnce s ↔ fileBlocks s ≤ doubleLimit s.vol.perBlock := by
  rw [freesOnce_iff h.distinct]
  constructor
  · intro hzero
    by_contra hlt
    have hvalid : (Slot.root 14).Valid s.vol.perBlock := show 14 < 15 by decide
    exact (h.exact _ hvalid).mpr (triple_mem_needSlots (Nat.lt_of_not_le hlt)) (hzero _ hvalid rfl)
  · intro hle p hp hroot
    by_contra hne
    exact rootOf_ne_of_mem_needSlots hle ((h.exact p hp).mp hne) hroot

/-- The places in use after the loop. -/
theorem LoopEnds.inUse_card (h : LoopEnds s len F s' n) {U : Finset Slot}
    (hU : ∀ p : Slot, p.Valid s.vol.perBlock → (ptrAt s p ≠ 0 ↔ p ∈ U)) :
    (U ∪ F.toFinset).card = U.card + F.length := by
  rw [Finset.card_union_of_disjoint, List.toFinset_card_of_nodup h.grew.nodup]
  rw [Finset.disjoint_left]
  intro p hp hpF
  obtain ⟨hvalid, hzero, -⟩ := h.grew.free p (List.mem_toFinset.mp hpF)
  exact (hU p hvalid).mpr hp hzero

/-- Where the map is what the blocks that were written need, these are the old ones and those that
were filled. -/
theorem LoopEnds.needSlots_eq (h : LoopEnds s len F s' n) (hs : MapOk s)
    (hexact : ∀ p : Slot, p.Valid s.vol.perBlock →
      (ptrAt s p ≠ 0 ↔ p ∈ needSlots s.vol.perBlock m))
    (hafter : ∀ p : Slot, p.Valid s.vol.perBlock →
      (ptrAt s' p ≠ 0 ↔ p ∈ needSlots s.vol.perBlock n)) :
    m ≤ n ∧ needSlots s.vol.perBlock n = needSlots s.vol.perBlock m ∪ F.toFinset := by
  have hbpb := hs.perBlock_pos
  have hlimit := h.limit
  have hmono : ∀ p : Slot, p.Valid s.vol.perBlock → p ∈ needSlots s.vol.perBlock m →
      p ∈ needSlots s.vol.perBlock n := fun p hp hmem =>
    (hafter p hp).mp (h.grew.ptr_mono hp ((hexact p hp).mpr hmem))
  have hfits : m ≤ doubleLimit s.vol.perBlock := by
    by_contra hlt
    have hvalid : (Slot.root 14).Valid s.vol.perBlock := show 14 < 15 by decide
    exact rootOf_ne_of_mem_needSlots hlimit
      (hmono _ hvalid (triple_mem_needSlots (Nat.lt_of_not_le hlt))) rfl
  refine ⟨?_, Finset.ext fun p => ?_⟩
  · by_contra hlt
    have hleaf := dataSlot_valid hbpb (show n < doubleLimit s.vol.perBlock by omega)
    have hmem := hmono _ hleaf.1 ((dataSlot_mem_needSlots hbpb (by omega) hfits).mpr
      (Nat.lt_of_not_le hlt))
    rw [dataSlot_mem_needSlots hbpb (by omega) hlimit] at hmem
    exact absurd hmem (Nat.lt_irrefl n)
  · rw [Finset.mem_union, List.mem_toFinset]
    constructor
    · intro hp
      have hvalid := valid_of_mem_needSlots hbpb hlimit hp
      rwa [← hafter p hvalid, h.grew.ptr_ne_zero hvalid, hexact p hvalid] at hp
    · rintro (hp | hp)
      · exact hmono p (valid_of_mem_needSlots hbpb hfits hp) hp
      · obtain ⟨hvalid, -, hne⟩ := h.grew.free p hp
        exact (hafter p hvalid).mp hne

/-- The map is what the blocks that were written need exactly when the loop stopped clean. -/
theorem LoopEnds.exact_iff (h : LoopEnds s len F s' n) (hs : MapOk s)
    (hexact : ∀ p : Slot, p.Valid s.vol.perBlock →
      (ptrAt s p ≠ 0 ↔ p ∈ needSlots s.vol.perBlock (fileBlocks s))) :
    (∀ p : Slot, p.Valid s.vol.perBlock → (ptrAt s' p ≠ 0 ↔ p ∈ needSlots s.vol.perBlock n)) ↔
      StopsClean s len := by
  have hbpb := hs.perBlock_pos
  have hsize : 0 < s.vol.blockSize := by have := hs.blockSize; omega
  obtain ⟨hlen₁, hlen₂⟩ := blocksOf_spec (n := len) hsize
  have hlimit := h.limit
  have hn₁ : n ≤ blocksOf s.vol len := by
    have hle := h.le
    refine Nat.le_of_lt_succ (Nat.lt_of_mul_lt_mul_right (a := s.vol.blockSize) ?_)
    rw [Nat.succ_mul]
    omega
  have hcard := h.inUse_card hexact
  have hsupply := congrArg List.length h.grew.supply
  rw [List.length_append, List.length_map] at hsupply
  -- what is in use after the loop
  have hafter : ∀ p : Slot, p.Valid s.vol.perBlock → (ptrAt s' p ≠ 0 ↔
      p ∈ needSlots s.vol.perBlock (fileBlocks s) ∪ F.toFinset) := by
    intro p hp
    rw [h.grew.ptr_ne_zero hp, hexact p hp, Finset.mem_union, List.mem_toFinset]
  have hwritten : needSlots s.vol.perBlock n ⊆
      needSlots s.vol.perBlock (fileBlocks s) ∪ F.toFinset := by
    intro p hp
    exact (hafter p (valid_of_mem_needSlots hbpb hlimit hp)).mp (h.written p hp)
  rw [StopsClean]
  generalize hU : needSlots s.vol.perBlock (fileBlocks s) ∪ F.toFinset = U at hcard hafter hwritten
  have hold : needSlots s.vol.perBlock (fileBlocks s) ⊆ U := by
    rw [← hU]
    exact Finset.subset_union_left
  constructor
  · intro hiff
    obtain ⟨hle, hUn⟩ := h.needSlots_eq hs hexact hiff
    rw [hU] at hUn
    rw [← hUn] at hcard
    refine ⟨n, hle, by omega, by omega, ?_⟩
    rcases h.ends with ⟨-, hend | hend⟩ | ⟨-, -, -, hempty, -⟩
    · left
      have hge : blocksOf s.vol len ≤ n := by
        refine Nat.le_of_lt_succ (Nat.lt_of_mul_lt_mul_right (a := s.vol.blockSize) ?_)
        rw [Nat.succ_mul]
        omega
      omega
    · left
      omega
    · right
      rw [hempty, List.length_nil] at hsupply
      omega
  · rintro ⟨b, hle, htop, hroom, hclean⟩
    have hb : b ≤ doubleLimit s.vol.perBlock := by omega
    have hfits : fileBlocks s ≤ doubleLimit s.vol.perBlock := by omega
    have hmono : ∀ {b b' : Nat}, b ≤ doubleLimit s.vol.perBlock →
        (needSlots s.vol.perBlock b).card ≤ (needSlots s.vol.perBlock b').card → b ≤ b' := by
      intro b b' hb hle
      by_contra hlt
      have := needSlots_card_lt hbpb (Nat.lt_of_not_le hlt) hb
      omega
    have hcardle := Finset.card_le_card hwritten
    have hUn : U = needSlots s.vol.perBlock n := by
      rcases h.ends with ⟨hF, hend⟩ | ⟨hF, hlt, hmore, hempty, hzero⟩
      · have htopn : min (blocksOf s.vol len) (doubleLimit s.vol.perBlock) = n := by
          rcases hend with hend | hend
          · have hge : blocksOf s.vol len ≤ n := by
              refine Nat.le_of_lt_succ (Nat.lt_of_mul_lt_mul_right (a := s.vol.blockSize) ?_)
              rw [Nat.succ_mul]
              omega
            omega
          · omega
        have hnb : n ≤ b := by
          rcases hclean with hclean | hclean
          · omega
          · exact hmono hlimit (by omega)
        refine Finset.Subset.antisymm ?_ hwritten
        rw [← hU]
        refine Finset.union_subset (needSlots_mono (by omega)) fun p hp => ?_
        exact hF p (List.mem_toFinset.mp hp)
      · -- the loop ran out of blocks
        rw [hempty, List.length_nil] at hsupply
        have hleaf := dataSlot_valid hbpb hlt
        have hnotU : dataSlot s.vol.perBlock n ∉ U := fun hmem =>
          (hafter _ hleaf.1).mpr hmem hzero
        have hn0 : fileBlocks s ≤ n := by
          by_contra hgt
          exact hnotU (hold ((dataSlot_mem_needSlots hbpb hlt hfits).mpr (Nat.lt_of_not_le hgt)))
        have hUsucc : U ⊆ needSlots s.vol.perBlock (n + 1) := by
          rw [← hU]
          refine Finset.union_subset (needSlots_mono (by omega)) fun p hp => ?_
          exact hF p (List.mem_toFinset.mp hp)
        have hUlt : U.card < (needSlots s.vol.perBlock (n + 1)).card := by
          refine Finset.card_lt_card ⟨hUsucc, fun hsub => hnotU (hsub ?_)⟩
          exact (dataSlot_mem_needSlots hbpb hlt (by omega)).mpr (Nat.lt_succ_self n)
        have hbn : b ≤ n := by
          by_contra hgt
          have := Finset.card_le_card (@needSlots_mono s.vol.perBlock _ _
            (show n + 1 ≤ b by omega))
          omega
        have hntop : n < blocksOf s.vol len := by
          refine Nat.lt_of_mul_lt_mul_right (a := s.vol.blockSize) ?_
          omega
        have hequal := hclean.resolve_left (by omega)
        have hnb : n ≤ b := hmono hlimit (by omega)
        have hsame : n = b := Nat.le_antisymm hnb hbn
        refine (Finset.eq_of_subset_of_card_le hwritten ?_).symm
        rw [hsame]
        omega
    intro p hp
    rw [hafter p hp, hUn]

theorem beforeLoop_cut (s : Ext2File) (len : Nat) : Cut s (beforeLoop s len) := by
  rw [beforeLoop]
  split
  · exact (shrinkFile_cut s _ _).1
  · exact Cut.refl s

/-- The inode's size and time do not count for the map. -/
theorem ptrAt_inode (s : Ext2File) (ino : Ext2Inode) (h : ino.iBlock = s.ino.iBlock) (p : Slot) :
    ptrAt { s with ino } p = ptrAt s p := by
  induction p with
  | root r => exact congrFun h r
  | entry p i ih => rw [ptrAt, ptrAt, ih]

/-- How the file looks after the write loop. -/
theorem ext2WriteFile_ends (hs : MapOk (beforeLoop s len)) (hlen : len ≠ 0) (buf : Mem) (now : Nat) :
    ∃ F s' n, LoopEnds (beforeLoop s len) len F s' n ∧
      (∀ p : Slot, ptrAt (ext2WriteFile s buf len now).1 p = ptrAt s' p) ∧
      (ext2WriteFile s buf len now).1.vol = s'.vol ∧
      (ext2WriteFile s buf len now).1.ino.iBlocks = s'.ino.iBlocks ∧
      fileBlocks (ext2WriteFile s buf len now).1 = n := by
  have hsize : 0 < (beforeLoop s len).vol.blockSize := by have := hs.blockSize; omega
  have hstart := Writing.start hs buf len
  obtain ⟨F, -, hends⟩ := writeLoop_ends (len / (beforeLoop s len).vol.blockSize + 1) hstart
    (by rw [List.length_nil, Nat.zero_mul]; omega) (fun p hp => by simp [needSlots] at hp)
    (by rw [List.length_nil, Nat.zero_add]
        exact (Nat.div_lt_iff_lt_mul hsize).mp (Nat.lt_succ_self _))
  have hwriting := writeLoop_writing (len / (beforeLoop s len).vol.blockSize + 1) hstart
  rw [← ext2WriteLoop] at hends hwriting
  rw [ext2WriteFile, if_neg hlen]
  generalize ext2WriteLoop (beforeLoop s len) buf len = r at hends hwriting ⊢
  obtain ⟨s', bytesWritten, chunks⟩ := r
  dsimp only at hends hwriting ⊢
  refine ⟨F, s', chunks.length, hends, fun p =>
    ptrAt_inode s' { s'.ino with iSize := bytesWritten, iMtime := now } rfl p, rfl, rfl, ?_⟩
  have hsame := hends.grew.blockSize
  have hwritten := hwriting.written
  have hle := hends.le
  rw [← hsame] at hsize hle
  exact @blocksOf_eq chunks.length bytesWritten s'.vol hsize (by omega) (by omega)

/-- A count of units that fits. -/
theorem units_lt (hs : s.vol.blockSize = 1024 ∨ s.vol.blockSize = 2048 ∨ s.vol.blockSize = 4096)
    (hlen : len < 2 ^ 32) (hle : n * s.vol.blockSize < len + s.vol.blockSize) (hm : m ≤ n * 4) :
    m * (s.vol.blockSize / 512) < 2 ^ 32 := by
  rcases hs with hs | hs | hs <;> rw [hs] at hle ⊢ <;> omega

/-- A file that does not get shorter. -/
theorem rewriteLaw_iff_of_longer (hc : Ext2Consistent others s) (hlen : len < 2 ^ 32)
    (hsupply : SupplyOk s) (h : LoopEnds s len F s' n) {t : Ext2File}
    (hptr : ∀ p : Slot, ptrAt t p = ptrAt s' p) (hvol : t.vol = s'.vol)
    (hiBlocks : t.ino.iBlocks = s'.ino.iBlocks) (hn : fileBlocks t = n) :
    RewriteLaw others t ↔ StopsClean s len := by
  have hs : MapOk s := ⟨hc.blockSize, hc.distinct, hsupply.fresh⟩
  have hbpb : t.vol.perBlock = s.vol.perBlock := by rw [hvol, h.grew.perBlock]
  have hsize : t.vol.blockSize = s.vol.blockSize := by rw [hvol, h.grew.blockSize]
  rw [← h.exact_iff hs hc.exact]
  constructor
  · intro hlaw p hp
    rw [← hptr, ← hbpb, ← hn]
    exact hlaw.consistent.exact p (by rwa [hbpb])
  · intro hexact
    have hfits := h.limit
    have hcons : Ext2Consistent others t := by
      refine ⟨by rw [hsize]; exact hc.blockSize, fun p q hp hq hne heq => ?_, fun p hp => ?_, ?_,
        fun b hb => ?_, fun p hp hne => ?_⟩
      · rw [hbpb, ← h.grew.perBlock] at hp hq
        rw [hptr] at hne heq
        rw [hptr] at heq
        exact h.grew.mapOk.distinct p q hp hq hne heq
      · rw [hptr, hbpb, hn]
        exact hexact p (by rwa [hbpb] at hp)
      · obtain ⟨hmore, hneed⟩ := h.needSlots_eq hs hc.exact hexact
        have hcard := h.inUse_card hc.exact
        rw [← hneed] at hcard
        have hcount : t.ino.iBlocks ≡
            (needSlots s.vol.perBlock n).card * (s.vol.blockSize / 512) [MOD 2 ^ 32] := by
          rw [hiBlocks, hcard, Nat.add_mul, ← hc.iBlocks]
          exact h.grew.iBlocks
        have hold : s.ino.iBlocks < 2 ^ 32 := by
          rw [hc.iBlocks]
          exact units_lt hc.blockSize hlen h.le ((Finset.card_le_card (needSlots_mono hmore)).trans
            (needSlots_card_le _ n))
        rw [hbpb, hn, hsize]
        refine Nat.ModEq.eq_of_lt_of_lt hcount ?_ (units_lt hc.blockSize hlen h.le
          (needSlots_card_le _ n))
        rw [hiBlocks]
        exact h.grew.iBlocks_lt hold
      · rw [hbpb, hvol, h.grew.marked, hc.marked b hb, or_assoc]
        refine or_congr_right ⟨?_, ?_⟩
        · rintro (⟨p, hp, rfl⟩ | hmem)
          · have hpF : p ∉ F := fun hpF => hb (h.grew.free p hpF).2.1
            exact ⟨p, hp, by rw [hptr, h.grew.kept p hp hpF]⟩
          · obtain ⟨p, hpF, rfl⟩ := List.mem_map.mp hmem
            exact ⟨p, (h.grew.free p hpF).1, hptr p⟩
        · rintro ⟨p, hp, rfl⟩
          rw [hptr]
          by_cases hpF : p ∈ F
          · exact Or.inr (List.mem_map.mpr ⟨p, hpF, rfl⟩)
          · exact Or.inl ⟨p, hp, (h.grew.kept p hp hpF).symm⟩
      · rw [hbpb] at hp
        rw [hptr] at hne ⊢
        by_cases hpF : p ∈ F
        · -- a block that was handed out was not marked
          intro hothers
          have hclear := hsupply.clear (ptrAt s' p) (by
            rw [h.grew.supply]
            exact List.mem_append_left _ (List.mem_map.mpr ⟨p, hpF, rfl⟩))
          rw [(hc.marked _ hne).mpr (Or.inl hothers)] at hclear
          exact absurd hclear (by decide)
        · rw [h.grew.kept p hp hpF] at hne ⊢
          exact hc.apart p hp hne
    exact ⟨hcons, hcons.unlink_iff.mpr (by rw [hn, hbpb]; exact hfits)⟩

/-- A file that gets shorter than twelve blocks, and counts its old blocks. -/
theorem not_rewriteLaw_of_shorter (hc : Ext2Consistent others s) (hiSize : s.ino.iSize < 2 ^ 32)
    (hlen : len < 2 ^ 32) (hs : MapOk s') (hcut : Cut s s') (h : LoopEnds s' len F s'' n)
    (hnew : newBlocks < 12) (hlt : newBlocks < fileBlocks s) (hgone : s'.ino.iBlock newBlocks = 0)
    {t : Ext2File} (hptr : ∀ p : Slot, ptrAt t p = ptrAt s'' p) (hvol : t.vol = s''.vol)
    (hiBlocks : t.ino.iBlocks = s''.ino.iBlocks) (hn : fileBlocks t = n) : ¬ RewriteLaw others t := by
  intro hlaw
  have hbpb' : s'.vol.perBlock = s.vol.perBlock := congrArg (· / 4) hcut.blockSize
  have hbpb : t.vol.perBlock = s'.vol.perBlock := by rw [hvol, h.grew.perBlock]
  have hsize : t.vol.blockSize = s.vol.blockSize := by rw [hvol, h.grew.blockSize, hcut.blockSize]
  have hexact : ∀ p : Slot, p.Valid s'.vol.perBlock →
      (ptrAt s'' p ≠ 0 ↔ p ∈ needSlots s'.vol.perBlock n) := by
    intro p hp
    rw [← hptr, ← hbpb, ← hn]
    exact hlaw.consistent.exact p (by rwa [hbpb])
  -- what the cut has left
  have hneed : needSlots s'.vol.perBlock n =
      (needSlots s'.vol.perBlock n).filter (fun p => ptrAt s' p ≠ 0) ∪ F.toFinset := by
    refine Finset.ext fun p => ?_
    rw [Finset.mem_union, Finset.mem_filter, List.mem_toFinset]
    constructor
    · intro hp
      have hvalid := valid_of_mem_needSlots hs.perBlock_pos h.limit hp
      have hused := (hexact p hvalid).mpr hp
      rw [h.grew.ptr_ne_zero hvalid] at hused
      exact hused.imp (fun hne => ⟨hp, hne⟩) id
    · rintro (⟨hp, -⟩ | hp)
      · exact hp
      · obtain ⟨hvalid, -, hne⟩ := h.grew.free p hp
        exact (hexact p hvalid).mp hne
  generalize hU : (needSlots s'.vol.perBlock n).filter (fun p => ptrAt s' p ≠ 0) = U at hneed
  have hless : U.card < (needSlots s.vol.perBlock (fileBlocks s)).card := by
    refine Finset.card_lt_card ⟨fun p hp => ?_, fun hsub => ?_⟩
    · rw [← hU, Finset.mem_filter] at hp
      have hvalid := valid_of_mem_needSlots hs.perBlock_pos h.limit hp.1
      rw [hbpb'] at hvalid
      have hsame := (hcut.ptrAt_eq hc.distinct hvalid).resolve_left hp.2
      rw [hsame] at hp
      exact (hc.exact p hvalid).mp hp.2
    · have hmem : Slot.root newBlocks ∈ needSlots s.vol.perBlock (fileBlocks s) := by
        refine mem_needSlots.mpr ⟨newBlocks, hlt, ?_⟩
        rw [dataSlot, if_pos hnew]
        exact List.mem_singleton_self _
      have hin := hsub hmem
      rw [← hU, Finset.mem_filter] at hin
      exact hin.2 hgone
  have hcard : (needSlots s'.vol.perBlock n).card = U.card + F.length := by
    rw [hneed, Finset.card_union_of_disjoint, List.toFinset_card_of_nodup h.grew.nodup]
    rw [Finset.disjoint_left]
    intro p hp hpF
    rw [← hU, Finset.mem_filter] at hp
    exact hp.2 (h.grew.free p (List.mem_toFinset.mp hpF)).2.1
  have hcount := hlaw.consistent.iBlocks
  rw [hn, hbpb, hsize, hiBlocks] at hcount
  have hgrew := h.grew.iBlocks
  rw [hcount, hcut.blockSize, hcut.iBlocks, hc.iBlocks, hcard, Nat.add_mul] at hgrew
  have hsame := Nat.ModEq.add_right_cancel' _ hgrew
  have hpos : 0 < s.vol.blockSize := by have := hc.blockSize; omega
  have hle := h.le
  rw [hcut.blockSize] at hle
  have hfew : U.card ≤ n * 4 := by
    have := needSlots_card_le s'.vol.perBlock n
    omega
  have hequal := Nat.ModEq.eq_of_lt_of_lt hsame (units_lt hc.blockSize hlen hle hfew)
    (units_lt hc.blockSize hiSize (blocksOf_spec hpos).2 (needSlots_card_le _ _))
  have hunit : 0 < s.vol.blockSize / 512 := by have := hc.blockSize; omega
  rw [Nat.eq_of_mul_eq_mul_right hunit hequal] at hless
  exact absurd hless (Nat.lt_irrefl _)

theorem blockCount_le (vol : Ext2Volume) (n : Nat) : blockCount vol n ≤ blocksOf vol n :=
  Nat.div_le_div_right (Nat.mod_le _ _)

/-- The count of blocks wraps around to 0 only. -/
theorem blockCount_eq {vol : Ext2Volume} (hlen : len < 2 ^ 32) (hsize : vol.blockSize < 2 ^ 32)
    (hpos : 0 < blockCount vol len) : blockCount vol len = blocksOf vol len := by
  rw [blockCount] at hpos ⊢
  rw [blocksOf]
  have hbs := Nat.div_pos_iff.mp hpos
  by_cases hlt : len + vol.blockSize - 1 < 2 ^ 32
  · rw [Nat.mod_eq_of_lt hlt]
  · rw [Nat.mod_eq_sub_mod (by omega), Nat.mod_eq_of_lt (by omega)] at hbs
    omega

/-- After `ext2_unlink` the blocks marked in use are those of the others. -/
theorem RewriteLaw.unlinked (h : RewriteLaw others s) (hb : b ≠ 0) :
    (ext2FreeInodeBlocks s).vol.marked b = true ↔ others b := by
  rw [ext2FreeInodeBlocks, marked_freeAll _ _ hb, h.consistent.marked b hb, h.unlink.2]
  constructor
  · rintro ⟨hmarked, hnot⟩
    exact hmarked.resolve_right fun hp => hnot ⟨hb, hp⟩
  · refine fun hothers => ⟨Or.inl hothers, fun ⟨_, p, hp, heq⟩ => ?_⟩
    exact h.consistent.apart p hp (heq ▸ hb) (heq ▸ hothers)

/-- When the rewritten file has what it needs: its size does not go down in blocks, and the
allocation stops clean. -/
def RewriteCond (s : Ext2File) (len : Nat) : Prop :=
  if len = 0 then fileBlocks s ≤ doubleLimit s.vol.perBlock
  else blockCount s.vol s.ino.iSize ≤ blockCount s.vol len ∧ StopsClean s len

end

/-- A file of two blocks. -/
def twoBlockFile : Ext2File where
  vol := { blockSize := 1024, blocks := fun _ _ => 0, marked := fun b => b = 5 || b = 6, supply := [] }
  ino := { iSize := 2048, iMtime := 0, iBlocks := 4,
           iBlock := fun r => if r = 0 then 5 else if r = 1 then 6 else 0 }

theorem ptrAt_twoBlockFile (p : Slot) : ptrAt twoBlockFile p =
    if p = .root 0 then 5 else if p = .root 1 then 6 else 0 := by
  cases p with
  | root r => simp only [ptrAt, twoBlockFile, Slot.root.injEq]
  | entry p i =>
    have h₀ : ∀ r, Slot.entry p i ≠ .root r := fun r h => by cases h
    rw [if_neg (h₀ 0), if_neg (h₀ 1)]
    exact ite_self 0

theorem twoBlockFile_consistent : Ext2Consistent (fun _ => False) twoBlockFile := by
  have hneed : ∀ p : Slot, p ∈ needSlots 256 2 ↔ p = .root 0 ∨ p = .root 1 := by
    intro p
    rw [mem_needSlots]
    constructor
    · rintro ⟨b, hb, hp⟩
      rcases (by omega : b = 0 ∨ b = 1) with rfl | rfl
      · exact Or.inl (List.mem_singleton.mp hp)
      · exact Or.inr (List.mem_singleton.mp hp)
    · rintro (rfl | rfl)
      · exact ⟨0, by decide, List.mem_singleton.mpr rfl⟩
      · exact ⟨1, by decide, List.mem_singleton.mpr rfl⟩
  refine ⟨Or.inl rfl, fun p q _ _ hne heq => ?_, fun p _ => ?_, rfl, fun b hb => ?_, fun _ _ _ => id⟩
  · rw [ptrAt_twoBlockFile] at hne heq
    rw [ptrAt_twoBlockFile] at heq
    split_ifs at hne heq with h₁ h₂ h₃ h₄ h₅ h₆ <;> simp_all
  · change _ ↔ p ∈ needSlots 256 2
    rw [hneed, ptrAt_twoBlockFile]
    split_ifs with h₁ h₂ <;> simp_all
  · rw [false_or]
    constructor
    · intro h
      rcases (by simpa [twoBlockFile] using h : b = 5 ∨ b = 6) with rfl | rfl
      · exact ⟨.root 0, show 0 < 15 by decide, ptrAt_twoBlockFile _⟩
      · exact ⟨.root 1, show 1 < 15 by decide, ptrAt_twoBlockFile _⟩
    · rintro ⟨p, -, rfl⟩
      rw [ptrAt_twoBlockFile] at hb ⊢
      split_ifs at hb ⊢ with h₁ h₂
      · rfl
      · rfl
      · exact absurd rfl hb

end Lestra
