import Lestra.Fs.Ext2Map
import Mathlib.Tactic.Ring

/-!
# ext2: the block map as a tree

The places of the block pointers of a file form a tree: the fifteen pointers of the
inode, and below a pointer to a block of pointers the pointers of that block.
`ext2_get_inode_block` reads the pointer at one leaf.

* `getInodeBlock_eq` — which leaf it reads.
* `Fills` — one empty place gets a fresh block.
* `Ensured`, `EnsuredPath` — the places on the way to a leaf are filled from the top.
-/

namespace Lestra

open ByteMem

/-- A volume and an inode in memory. -/
structure Ext2File where
  vol : Ext2Volume
  ino : Ext2Inode

/-- The place of a pointer: `i_block[r]`, or the `i`-th pointer of a block of pointers. -/
inductive Slot where
  | root (r : Nat)
  | entry (p : Slot) (i : Nat)
deriving DecidableEq

namespace Slot

/-- How many blocks of pointers lie between the place and the data. -/
def height : Slot → Nat
  | root r => r - 11
  | entry p _ => p.height - 1

def Valid (bpb : Nat) : Slot → Prop
  | root r => r < 15
  | entry p i => i < bpb ∧ 0 < p.height ∧ p.Valid bpb

/-- The places from `i_block` down to this one. -/
def path : Slot → List Slot
  | root r => [root r]
  | entry p i => p.path ++ [entry p i]

/-- The first block of the file below the place. -/
def first (bpb : Nat) : Slot → Nat
  | root r =>
    if r < 13 then r else if r = 13 then 12 + bpb else 12 + bpb + bpb * bpb
  | entry p i => p.first bpb + i * bpb ^ (p.height - 1)

end Slot

/-- The pointer at a place. -/
def ptrAt (s : Ext2File) : Slot → Nat
  | .root r => s.ino.iBlock r
  | .entry p i => if ptrAt s p = 0 then 0 else blockPtr (s.vol.blocks (ptrAt s p)) i

/-- The place of the pointer to block `b` of the file. -/
def dataSlot (bpb b : Nat) : Slot :=
  if b < 12 then .root b
  else
    let l := b - 12
    if l < bpb then .entry (.root 12) l
    else
      let l := l - bpb
      if l < bpb * bpb then .entry (.entry (.root 13) (l / bpb)) (l % bpb)
      else
        let l := l - bpb * bpb
        .entry (.entry (.entry (.root 14) (l / (bpb * bpb))) (l % (bpb * bpb) / bpb))
          (l % (bpb * bpb) % bpb)

/-- The number of blocks that `ext2_write_file` can give to a file. -/
def doubleLimit (bpb : Nat) : Nat := 12 + bpb + bpb * bpb

/-- A well-formed block map: no block is pointed to from two places. -/
def SlotsDistinct (s : Ext2File) : Prop :=
  ∀ p q : Slot, p.Valid s.vol.perBlock → q.Valid s.vol.perBlock →
    ptrAt s p ≠ 0 → ptrAt s p = ptrAt s q → p = q

/-- What `ext2_alloc_block` is going to return is not in use. -/
structure FreshFor (s : Ext2File) : Prop where
  nodup : s.vol.supply.Nodup
  nonzero : ∀ b ∈ s.vol.supply, b ≠ 0
  lt : ∀ b ∈ s.vol.supply, b < 2 ^ 32
  unused : ∀ b ∈ s.vol.supply, ∀ p : Slot, p.Valid s.vol.perBlock → ptrAt s p ≠ b

structure MapOk (s : Ext2File) : Prop where
  blockSize : s.vol.blockSize = 1024 ∨ s.vol.blockSize = 2048 ∨ s.vol.blockSize = 4096
  distinct : SlotsDistinct s
  fresh : FreshFor s

section

variable {s s' s'' : Ext2File} {p q : Slot} {ps : List Slot} {b b' bpb i r l x : Nat}

-- ---------------------------------------------------------------------------
-- Leaves
-- ---------------------------------------------------------------------------

/-- **The lookup.** -/
theorem getInodeBlock_eq (s : Ext2File) (b : Nat) :
    ext2GetInodeBlock s.vol s.ino b = ptrAt s (dataSlot s.vol.perBlock b) := by
  simp only [ext2GetInodeBlock, dataSlot]
  split
  · rfl
  · split
    · rfl
    · split
      · simp only [ptrAt]
        by_cases hdouble : s.ino.iBlock 13 = 0
        · simp only [hdouble, if_true]
        · simp only [hdouble, if_false]
      · simp only [ptrAt]
        by_cases htriple : s.ino.iBlock 14 = 0
        · simp only [htriple, if_true]
        · simp only [htriple, if_false]
          generalize blockPtr (s.vol.blocks (s.ino.iBlock 14)) _ = blk
          by_cases hblk : blk = 0
          · simp only [hblk, if_true]
          · simp only [hblk, if_false]

theorem dataSlot_valid (hbpb : 0 < bpb) (hb : b < doubleLimit bpb) :
    (dataSlot bpb b).Valid bpb ∧ (dataSlot bpb b).height = 0 := by
  rw [doubleLimit] at hb
  unfold dataSlot
  dsimp only
  split
  · exact ⟨show b < 15 by omega, show b - 11 = 0 by omega⟩
  · split
    · rename_i hl
      exact ⟨⟨hl, Nat.zero_lt_one, show 12 < 15 by decide⟩, rfl⟩
    · rename_i hl
      split
      · rename_i hl'
        refine ⟨⟨Nat.mod_lt _ hbpb, Nat.zero_lt_one, ?_, Nat.zero_lt_two, show 13 < 15 by decide⟩, rfl⟩
        exact Nat.div_lt_of_lt_mul hl'
      · omega

/-- The block of the file below a leaf. -/
theorem first_dataSlot (bpb b : Nat) : (dataSlot bpb b).first bpb = b := by
  unfold dataSlot
  dsimp only
  split
  · rename_i hb
    exact if_pos (by omega)
  · split
    · simp only [Slot.first, Slot.height]
      rw [if_pos (by decide), show 12 - 11 - 1 = 0 from rfl, pow_zero, Nat.mul_one]
      omega
    · split
      · simp only [Slot.first, Slot.height]
        have hdiv := Nat.div_add_mod (b - 12 - bpb) bpb
        rw [Nat.mul_comm] at hdiv
        simp only [pow_zero, pow_one, Nat.mul_one, show (13 : Nat) - 11 - 1 = 1 from rfl,
          show (13 : Nat) - 11 - 1 - 1 = 0 from rfl]
        rw [if_neg (by decide), if_pos trivial]
        omega
      · simp only [Slot.first, Slot.height]
        generalize hl : b - 12 - bpb - bpb * bpb = l
        have hdiv := Nat.div_add_mod l (bpb * bpb)
        have hdiv' := Nat.div_add_mod (l % (bpb * bpb)) bpb
        rw [Nat.mul_comm] at hdiv hdiv'
        simp only [show (14 : Nat) - 11 - 1 = 2 from rfl, show (14 : Nat) - 11 - 1 - 1 = 1 from rfl,
          show (14 : Nat) - 11 - 1 - 1 - 1 = 0 from rfl, pow_zero, pow_one, Nat.mul_one, pow_two]
        rw [if_neg (by decide), if_neg (by decide)]
        omega

theorem dataSlot_inj (h : dataSlot bpb b = dataSlot bpb b') : b = b' := by
  rw [← first_dataSlot bpb b, h, first_dataSlot]

-- ---------------------------------------------------------------------------
-- Changing one place
-- ---------------------------------------------------------------------------

theorem ptrAt_zero_of_parent (h : ptrAt s p = 0) (i : Nat) : ptrAt s (.entry p i) = 0 := by
  rw [ptrAt, if_pos h]

theorem ptrAt_parent (h : ptrAt s (.entry p i) ≠ 0) : ptrAt s p ≠ 0 :=
  fun hzero => h (ptrAt_zero_of_parent hzero i)

/-- The pointers are known by those of the inode and the blocks of pointers. -/
theorem ptrAt_congr (hroot : s'.ino.iBlock = s.ino.iBlock)
    (htable : ∀ q : Slot, q.Valid bpb → 0 < q.height → ptrAt s q ≠ 0 →
      s'.vol.blocks (ptrAt s q) = s.vol.blocks (ptrAt s q)) (hp : p.Valid bpb) :
    ptrAt s' p = ptrAt s p := by
  induction p with
  | root r => exact congrFun hroot r
  | entry p i ih =>
    obtain ⟨-, hheight, hvalid⟩ := hp
    rw [ptrAt, ptrAt, ih hvalid]
    split
    · rfl
    · rename_i hne
      rw [htable p hvalid hheight hne]

/-- The state where place `p` has got the block `b`, a cleared one. -/
structure Fills (s : Ext2File) (p : Slot) (b : Nat) (s' : Ext2File) : Prop where
  supply : s.vol.supply = b :: s'.vol.supply
  blockSize : s'.vol.blockSize = s.vol.blockSize
  marked : s'.vol.marked = Function.update s.vol.marked b true
  iBlocks : s'.ino.iBlocks = (s.ino.iBlocks + s.vol.blockSize / 512) % 2 ^ 32
  iSize : s'.ino.iSize = s.ino.iSize
  ptr : ∀ q : Slot, q.Valid s.vol.perBlock → ptrAt s' q = if q = p then b else ptrAt s q
  data : ∀ q : Slot, q.Valid s.vol.perBlock → q.height = 0 → ptrAt s q ≠ 0 →
    s'.vol.blocks (ptrAt s q) = s.vol.blocks (ptrAt s q)

theorem Fills.perBlock (h : Fills s p b s') : s'.vol.perBlock = s.vol.perBlock :=
  congrArg (· / 4) h.blockSize

theorem Fills.mem (h : Fills s p b s') : b ∈ s.vol.supply := by
  rw [h.supply]
  exact List.mem_cons_self

theorem Fills.self (h : Fills s p b s') (hp : p.Valid s.vol.perBlock) : ptrAt s' p = b := by
  rw [h.ptr p hp, if_pos rfl]

theorem Fills.mapOk (h : Fills s p b s') (hs : MapOk s) : MapOk s' := by
  refine ⟨by rw [h.blockSize]; exact hs.blockSize, fun q q' hq hq' hne heq => ?_, ?_⟩
  · rw [h.perBlock] at hq hq'
    have hb := hs.fresh.unused b h.mem
    rw [h.ptr q hq] at hne heq
    rw [h.ptr q' hq'] at heq
    split at heq <;> split at heq
    · rename_i h₁ h₂
      rw [h₁, h₂]
    · exact absurd heq.symm (hb q' hq')
    · exact absurd heq (hb q hq)
    · rename_i h₁ _
      rw [if_neg h₁] at hne
      exact hs.distinct q q' hq hq' hne heq
  · have hnodup := hs.fresh.nodup
    rw [h.supply, List.nodup_cons] at hnodup
    have hmem : ∀ c ∈ s'.vol.supply, c ∈ s.vol.supply := by
      intro c hc
      rw [h.supply]
      exact List.mem_cons_of_mem b hc
    refine ⟨hnodup.2, fun c hc => hs.fresh.nonzero c (hmem c hc),
      fun c hc => hs.fresh.lt c (hmem c hc), fun c hc q hq => ?_⟩
    rw [h.perBlock] at hq
    rw [h.ptr q hq]
    split
    · exact fun hbc => hnodup.1 (hbc ▸ hc)
    · exact hs.fresh.unused c (hmem c hc) q hq

/-- The pointers after the place `p`, free and below a block of pointers if it is not in the
inode, has got the cleared block `b`. -/
theorem ptrAt_fill (hb : ∀ i, blockPtr (s'.vol.blocks b) i = 0) (hzero : ptrAt s p = 0)
    (hparent : ∀ q i, p = .entry q i → ptrAt s q ≠ 0)
    (hroot : ∀ r < 15, s'.ino.iBlock r = if .root r = p then b else s.ino.iBlock r)
    (hentry : ∀ (q : Slot) (i : Nat), (Slot.entry q i).Valid bpb → ptrAt s q ≠ 0 →
      blockPtr (s'.vol.blocks (ptrAt s q)) i =
        if .entry q i = p then b else blockPtr (s.vol.blocks (ptrAt s q)) i)
    (hq : q.Valid bpb) : ptrAt s' q = if q = p then b else ptrAt s q := by
  induction q with
  | root r => exact hroot r hq
  | entry q i ih =>
    have hvalid : (Slot.entry q i).Valid bpb := hq
    rw [ptrAt, ih hq.2.2]
    by_cases hqp : q = p
    · -- nothing lies below the new block
      rw [if_pos hqp, hb, ite_self, if_neg, ptrAt_zero_of_parent (hqp ▸ hzero)]
      intro heq
      exact hparent q i heq.symm (hqp ▸ hzero)
    · rw [if_neg hqp]
      by_cases hne : ptrAt s q = 0
      · rw [if_pos hne, if_neg fun heq => hparent q i heq.symm hne, ptrAt_zero_of_parent hne]
      · rw [if_neg hne, hentry q i hvalid hne, ptrAt, if_neg hne]

-- ---------------------------------------------------------------------------
-- Filling the way to a leaf
-- ---------------------------------------------------------------------------

/-- The place has a block, has got one, or there was none to be had. -/
inductive Ensured (s : Ext2File) (p : Slot) : Ext2File → Nat → Prop
  | there (h : ptrAt s p ≠ 0) : Ensured s p s (ptrAt s p)
  | filled {s' : Ext2File} {b : Nat} (h : ptrAt s p = 0) (hfill : Fills s p b s') : Ensured s p s' b
  | full (h : ptrAt s p = 0) (hsupply : s.vol.supply = []) : Ensured s p s 0

/-- The places of a list are filled, one after the other, until one of them cannot be. -/
inductive EnsuredPath : Ext2File → List Slot → Ext2File → Nat → Prop
  | last {s s' : Ext2File} {p : Slot} {b : Nat} (h : Ensured s p s' b) : EnsuredPath s [p] s' b
  | stop {s s' : Ext2File} {p : Slot} {ps : List Slot} (h : Ensured s p s' 0) :
      EnsuredPath s (p :: ps) s' 0
  | cons {s s' s'' : Ext2File} {p : Slot} {ps : List Slot} {b b' : Nat} (h : Ensured s p s' b)
      (hb : b ≠ 0) (hrest : EnsuredPath s' ps s'' b') : EnsuredPath s (p :: ps) s'' b'

/-- The map of `s` in `s'`, with the blocks of the file untouched. -/
structure Keeps (s s' : Ext2File) : Prop where
  mapOk : MapOk s'
  blockSize : s'.vol.blockSize = s.vol.blockSize
  iSize : s'.ino.iSize = s.ino.iSize
  ptr : ∀ q : Slot, q.Valid s.vol.perBlock → ptrAt s q ≠ 0 → ptrAt s' q = ptrAt s q
  data : ∀ q : Slot, q.Valid s.vol.perBlock → q.height = 0 → ptrAt s q ≠ 0 →
    s'.vol.blocks (ptrAt s q) = s.vol.blocks (ptrAt s q)

theorem Keeps.refl (h : MapOk s) : Keeps s s :=
  ⟨h, rfl, rfl, fun _ _ _ => rfl, fun _ _ _ _ => rfl⟩

theorem Keeps.perBlock (h : Keeps s s') : s'.vol.perBlock = s.vol.perBlock :=
  congrArg (· / 4) h.blockSize

theorem Keeps.trans (h : Keeps s s') (h' : Keeps s' s'') : Keeps s s'' := by
  refine ⟨h'.mapOk, h'.blockSize.trans h.blockSize, h'.iSize.trans h.iSize, fun q hq hne => ?_,
    fun q hq hheight hne => ?_⟩
  · have hkept := h.ptr q hq hne
    rw [h'.ptr q (by rwa [h.perBlock]) (by rwa [hkept]), hkept]
  · have hkept := h.ptr q hq hne
    have hdata := h'.data q (by rwa [h.perBlock]) hheight (by rwa [hkept])
    rw [hkept] at hdata
    rw [hdata, h.data q hq hheight hne]

theorem Fills.keeps (h : Fills s p b s') (hs : MapOk s) (hzero : ptrAt s p = 0) : Keeps s s' := by
  refine ⟨h.mapOk hs, h.blockSize, h.iSize, fun q hq hne => ?_, h.data⟩
  rw [h.ptr q hq, if_neg]
  rintro rfl
  exact hne hzero

theorem Ensured.keeps (h : Ensured s p s' b) (hs : MapOk s) : Keeps s s' := by
  cases h with
  | there _ => exact Keeps.refl hs
  | filled hzero hfill => exact hfill.keeps hs hzero
  | full _ _ => exact Keeps.refl hs

theorem Ensured.ptr_eq (h : Ensured s p s' b) (hp : p.Valid s.vol.perBlock) (hb : b ≠ 0) :
    ptrAt s' p = b := by
  cases h with
  | there _ => rfl
  | filled _ hfill => exact hfill.self hp
  | full _ _ => exact absurd rfl hb

theorem EnsuredPath.keeps (h : EnsuredPath s ps s' b) (hs : MapOk s) : Keeps s s' := by
  induction h with
  | last h => exact h.keeps hs
  | stop h => exact h.keeps hs
  | cons h _ _ ih =>
    have hkeeps := h.keeps hs
    exact hkeeps.trans (ih hkeeps.mapOk)

/-- What is returned is the pointer at the last of the places. -/
theorem EnsuredPath.ptr_eq (h : EnsuredPath s ps s' b) (hs : MapOk s)
    (hps : ∀ p ∈ ps, p.Valid s.vol.perBlock) (hb : b ≠ 0) {p : Slot} (hp : ps.getLast? = some p) :
    ptrAt s' p = b := by
  induction h with
  | last h =>
    obtain rfl := Option.some.inj hp
    exact h.ptr_eq (hps _ List.mem_cons_self) hb
  | stop _ => exact absurd rfl hb
  | @cons s s' s'' q ps b b' h _ hrest ih =>
    have hkeeps := h.keeps hs
    refine ih hkeeps.mapOk (fun p hp => ?_) hb ?_
    · rw [hkeeps.perBlock]
      exact hps p (List.mem_cons_of_mem _ hp)
    · cases ps with
      | nil => nomatch hrest
      | cons q' ps => rwa [List.getLast?_cons_cons] at hp

end

end Lestra
