import Lestra.Mm.HeapCoalesce

/-!
# Kernel heap — the room behind a pointer

The sizes near 2^64 wrap in `ALIGN_UP`, in the addition of the header and in the check
against the end of the heap.

* `kmalloc_law_iff`, `kcalloc_law_iff`, `krealloc_law_iff` — which sizes give a block that is
  large enough
* `allocation_size_law` — the three together
-/

namespace Lestra

open Word64 Tiling LinkedList

-- ---------------------------------------------------------------------------
-- The law
-- ---------------------------------------------------------------------------

/-- The `n` bytes at `ptr` lie in the heap, in the block of `ptr` and in no other one: not
in a block of `others`, which are in use, and not in a free one. -/
structure RoomFor (h : Heap) (others : Finset Nat) (ptr n : Nat) : Prop where
  room : heapBlockSize + n ≤ (h.hdr (blockOf ptr)).size
  inside : h.kernelHeapStart + heapBlockSize ≤ ptr ∧ ptr + n ≤ h.kernelHeapEnd
  used : ∀ c ∈ others, c + (h.hdr c).size ≤ ptr ∨ ptr + n ≤ c
  free : ∀ c, OnFreeList h c → c + (h.hdr c).size ≤ ptr ∨ ptr + n ≤ c

def KmallocLaw (h : Heap) (U : Finset Nat) (n : Nat) : Prop :=
  ∀ h' ptr, kmalloc h n = some (h', ptr) → ptr ≠ 0 → RoomFor h' U ptr n

/-- The product is the mathematical one, and the bytes are zero. -/
def KcallocLaw (h : Heap) (U : Finset Nat) (count size : Nat) : Prop :=
  ∀ h' ptr, kcalloc h count size = some (h', ptr) → ptr ≠ 0 →
    RoomFor h' U ptr (count * size) ∧ ∀ i < count * size, h'.mem (ptr + i) = 0

/-- The new block starts with the old contents. -/
def KreallocLaw (h : Heap) (U : Finset Nat) (p n : Nat) : Prop :=
  ∀ h' ptr, krealloc h p n = some (h', ptr) → ptr ≠ 0 →
    RoomFor h' (U.erase (blockOf p)) ptr n ∧
      ∀ i < min n (ksize h p), h'.mem (ptr + i) = h.mem (p + i)

/-- `kmalloc` turns the wrapped total down: no free block is that large, and the end of the
heap is too near. -/
def Refuses (h : Heap) (n : Nat) : Prop :=
  (∀ c, OnFreeList h c → (h.hdr c).size < kmallocTotal n) ∧
    h.kernelHeapEnd < add h.heapNext (kmallocTotal n)

/-- No sum wraps, or the wrapped one is turned down. -/
def Fits (h : Heap) (n : Nat) : Prop := NoWrap h n ∨ Refuses h n

variable {h h' : Heap} {U U' : Finset Nat} {fs fs' : List Nat} {n ptr : Nat}

-- ---------------------------------------------------------------------------
-- What an allocation leaves alone
-- ---------------------------------------------------------------------------

theorem unlinkFree_frame (h : Heap) (prev c : Nat) :
    (unlinkFree h prev c).kernelHeapEnd = h.kernelHeapEnd ∧ (unlinkFree h prev c).mem = h.mem ∧
      ∀ a, ((unlinkFree h prev c).hdr a).size = (h.hdr a).size := by
  unfold unlinkFree
  split
  · refine ⟨rfl, rfl, fun a => ?_⟩
    by_cases ha : a = prev
    · subst ha
      rw [setHdr_self]
    · rw [setHdr_of_ne ha]
  · exact ⟨rfl, rfl, fun a => rfl⟩

theorem splitBlock_frame (h : Heap) (c total : Nat) :
    (splitBlock h c total).kernelHeapEnd = h.kernelHeapEnd ∧
      (splitBlock h c total).mem = h.mem ∧
      (((splitBlock h c total).hdr c).size = total ∨
        ((splitBlock h c total).hdr c).size = (h.hdr c).size) := by
  unfold splitBlock
  split
  · exact ⟨rfl, rfl, .inl (by rw [setHdr_self])⟩
  · exact ⟨rfl, rfl, .inr rfl⟩

theorem takeFree_frame (h : Heap) (prev c total : Nat) :
    (takeFree h prev c total).kernelHeapEnd = h.kernelHeapEnd ∧
      (takeFree h prev c total).mem = h.mem ∧
      (((takeFree h prev c total).hdr c).size = total ∨
        ((takeFree h prev c total).hdr c).size = (h.hdr c).size) := by
  obtain ⟨huEnd, huMem, huSize⟩ := unlinkFree_frame h prev c
  obtain ⟨hsEnd, hsMem, hsSize⟩ := splitBlock_frame (setHdr (unlinkFree h prev c) c
    { (unlinkFree h prev c).hdr c with next := 0, free := false }) c total
  refine ⟨hsEnd.trans huEnd, hsMem.trans huMem, hsSize.imp_right fun hs => ?_⟩
  rw [setHdr_self] at hs
  exact hs.trans (huSize c)

theorem Intact.takeFree_used (hI : Intact h U fs) {b c total : Nat} (hb : b ∈ U) (hc : c ∈ fs)
    (prev : Nat) (ht : 0 < total) (hfit : total ≤ (h.hdr c).size) :
    ((takeFree h prev c total).hdr b).size = (h.hdr b).size := by
  have hbounds := hI.bounds_free hc
  have hbc : b ≠ c := by
    rintro rfl
    exact hI.notMem_list hb hc
  obtain ⟨-, -, huSize⟩ := unlinkFree_frame h prev c
  unfold takeFree splitBlock
  dsimp only
  rw [setHdr_self, huSize c, heapBlockSize_eq]
  split
  case isFalse => rw [setHdr_of_ne hbc, huSize b]
  case isTrue hcut =>
    -- the rest starts inside the old block
    have hnew : b ≠ add c total := by
      rw [add_of_lt (a := c) (by omega)]
      rw [add_of_lt (a := total) (by omega), add_of_lt (by omega)] at hcut
      rintro rfl
      exact hI.tiles.notMem_inside (Finset.mem_union_right _ (List.mem_toFinset.mpr hc)) ht
        (by simp only [blockBytes]; omega) (Finset.mem_union_left _ hb)
    rw [setHdr_of_ne hbc]
    show ((setHdr _ (add c total) _).hdr b).size = _
    rw [setHdr_of_ne hnew, setHdr_of_ne hbc, huSize b]

-- ---------------------------------------------------------------------------
-- One call of kmalloc
-- ---------------------------------------------------------------------------

/-- The walk that finds nothing has seen that every free block is too small. -/
theorem findFree_none (h : Heap) (total : Nat) :
    ∀ (fuel prev curr : Nat) (cs : List Nat), Chain (blockNext h) curr cs →
      (∀ c ∈ cs, (h.hdr c).free = true) → findFree h total fuel prev curr = some none →
      ∀ c ∈ cs, (h.hdr c).size < total := by
  intro fuel
  induction fuel with
  | zero =>
    intro prev curr cs _ _ hnone
    cases hnone
  | succ fuel ih =>
    intro prev curr cs hC hfree hnone c hc
    rw [findFree] at hnone
    by_cases h0 : curr = 0
    · subst h0
      rw [hC.nil_of_zero] at hc
      cases hc
    · rw [if_neg h0] at hnone
      obtain ⟨bs, rfl, hC'⟩ := hC.cons_of_ne h0
      split at hnone
      case isTrue => cases hnone
      case isFalse hfit =>
        rcases List.mem_cons.mp hc with rfl | hc
        · have := hfree c (by simp)
          simp only [this, true_and] at hfit
          omega
        · exact ih curr _ bs hC' (fun d hd => hfree d (by simp [hd])) hnone c hc

/-- What a call of `kmalloc` does, whatever the size: it refuses, it takes a free block that
the walk found, or it bumps `heap_next`. -/
theorem kmalloc_cases (hI : Intact h U fs) (hn : n ≠ 0) :
    (Refuses h n ∧ kmalloc h n = some (h, 0)) ∨
    (∃ prev c, c ∈ fs ∧ kmallocTotal n ≤ (h.hdr c).size ∧
      kmalloc h n = some (takeFree h prev c (kmallocTotal n), c + 24)) ∨
    (add h.heapNext (kmallocTotal n) ≤ h.kernelHeapEnd ∧
      kmalloc h n = some (bumpAlloc h (kmallocTotal n)) ∧
      (bumpAlloc h (kmallocTotal n)).2 = h.heapNext + 24) := by
  have hnext := hI.next_le
  have hend := hI.end_le
  unfold kmalloc
  rw [if_neg hn]
  rcases findFree_spec h (kmallocTotal n) (2 ^ 64) 0 h.freeList fs hI.chain hI.length_lt with
    hnone | ⟨pre, c, post, rfl, hc, hr⟩
  · simp only [hnone]
    by_cases hover : h.kernelHeapEnd < add h.heapNext (kmallocTotal n)
    · refine .inl ⟨⟨fun c hc => ?_, hover⟩, by rw [bumpAlloc, if_pos hover]⟩
      exact findFree_none h _ _ _ _ fs hI.chain hI.free hnone c ((hI.onFreeList c).mp hc)
    · refine .inr (.inr ⟨by omega, trivial, ?_⟩)
      rw [bumpAlloc, if_neg hover]
      exact add_of_lt (by rw [heapBlockSize_eq]; omega)
  · simp only [hr]
    have hbounds := hI.bounds_free (b := c) (by simp)
    refine .inr (.inl ⟨pre.getLastD 0, c, by simp, hc, ?_⟩)
    rw [heapBlockSize_eq, add_of_lt (by omega)]

theorem kmalloc_frame (hI : Intact h U fs) (hk : kmalloc h n = some (h', ptr)) :
    h'.kernelHeapEnd = h.kernelHeapEnd ∧ h'.mem = h.mem := by
  by_cases hn : n = 0
  · rw [kmalloc, if_pos hn] at hk
    cases hk
    exact ⟨rfl, rfl⟩
  rcases kmalloc_cases hI hn with ⟨-, heq⟩ | ⟨prev, c, -, -, heq⟩ | ⟨hroom, heq, -⟩ <;>
    rw [heq] at hk
  · cases hk
    exact ⟨rfl, rfl⟩
  · cases hk
    have hframe := takeFree_frame h prev c (kmallocTotal n)
    exact ⟨hframe.1, hframe.2.1⟩
  · rw [bumpAlloc, if_neg (by omega)] at hk
    cases hk
    exact ⟨rfl, rfl⟩

theorem blockOf_add_header {b : Nat} (hb : b + 24 < 2 ^ 64) : blockOf (b + 24) = b := by
  rw [blockOf, heapBlockSize_eq, sub_of_le hb (by omega)]
  omega

/-- The block behind the pointer holds the total that was asked for. -/
theorem kmalloc_size (hI : Intact h U fs) (hk : kmalloc h n = some (h', ptr)) (hp : ptr ≠ 0) :
    kmallocTotal n ≤ (h'.hdr (blockOf ptr)).size := by
  have hnext := hI.next_le
  have hend := hI.end_le
  have hn : n ≠ 0 := by
    rintro rfl
    cases hk
    exact hp rfl
  rcases kmalloc_cases hI hn with ⟨-, heq⟩ | ⟨prev, c, hc, hsize, heq⟩ | ⟨hroom, heq, hptr⟩ <;>
    rw [heq] at hk
  · cases hk
    exact absurd rfl hp
  · cases hk
    have hbounds := hI.bounds_free hc
    rw [blockOf_add_header (by omega)]
    rcases (takeFree_frame h prev c (kmallocTotal n)).2.2 with hs | hs
    · exact hs.ge
    · exact hsize.trans hs.ge
  · have hh' : h' = (bumpAlloc h (kmallocTotal n)).1 := by rw [Option.some.inj hk]
    have hptr' : ptr = h.heapNext + 24 := by rw [← hptr, Option.some.inj hk]
    rw [hptr', blockOf_add_header (by omega), hh', bumpAlloc, if_neg (by omega)]
    show _ ≤ ((setHdr h h.heapNext ⟨kmallocTotal n, 0, false⟩).hdr h.heapNext).size
    rw [setHdr_self]

/-- The blocks in use keep their sizes. -/
theorem kmalloc_used (hI : Intact h U fs) (hw : NoWrap h n)
    (hk : kmalloc h n = some (h', ptr)) {b : Nat} (hb : b ∈ U) :
    (h'.hdr b).size = (h.hdr b).size := by
  by_cases hn : n = 0
  · rw [kmalloc, if_pos hn] at hk
    cases hk
    rfl
  have htotal := kmallocTotal_eq hw
  rcases kmalloc_cases hI hn with ⟨-, heq⟩ | ⟨prev, c, hc, hfit, heq⟩ | ⟨hroom, heq, -⟩ <;>
    rw [heq] at hk
  · cases hk
    rfl
  · cases hk
    exact hI.takeFree_used hb hc prev (by omega) hfit
  · rw [bumpAlloc, if_neg (by omega)] at hk
    cases hk
    show ((setHdr h h.heapNext _).hdr b).size = _
    rw [setHdr_of_ne]
    rintro rfl
    exact hI.tiles.end_notMem (Finset.mem_union_left _ hb)

/-- A block of the heap shares no byte with another. -/
theorem Intact.roomFor (hI : Intact h U fs) {b : Nat} (hb : b ∈ U)
    (hsize : 24 + n ≤ (h.hdr b).size) : RoomFor h (U.erase b) (b + 24) n := by
  have hbB : b ∈ U ∪ fs.toFinset := Finset.mem_union_left _ hb
  have hin : h.kernelHeapStart ≤ b ∧ b + (h.hdr b).size ≤ h.heapNext := hI.tiles.inside b hbB
  have hnext := hI.next_le
  have hend := hI.end_le
  have hapart : ∀ c ∈ U ∪ fs.toFinset, c ≠ b →
      c + (h.hdr c).size ≤ b + 24 ∨ b + 24 + n ≤ c := by
    intro c hc hcb
    have hor : c + (h.hdr c).size ≤ b ∨ b + (h.hdr b).size ≤ c :=
      hI.tiles.apart c hc b hbB hcb
    omega
  refine ⟨?_, ⟨?_, ?_⟩, fun c hc => ?_, fun c hc => ?_⟩
  · rw [blockOf_add_header (by omega)]
    exact hsize
  · rw [heapBlockSize_eq]
    omega
  · omega
  · exact hapart c (Finset.mem_union_left _ (Finset.mem_of_mem_erase hc))
      (Finset.ne_of_mem_erase hc)
  · have hc := (hI.onFreeList c).mp hc
    refine hapart c (Finset.mem_union_right _ (List.mem_toFinset.mpr hc)) ?_
    rintro rfl
    exact hI.notMem_list hb hc

/-- A size that wraps is larger than the heap. -/
theorem Intact.wraps_large (hI : Intact h U fs) (hw : ¬ NoWrap h n) : h.kernelHeapEnd < n := by
  have hnext := hI.next_le
  have hend := hI.end_le
  unfold NoWrap at hw
  rw [heapBlockSize_eq] at hw
  omega

/-- A size that does not wrap gets its room. -/
theorem kmalloc_room (hI : Intact h U fs) (hw : NoWrap h n)
    (hk : kmalloc h n = some (h', ptr)) (hp : ptr ≠ 0) :
    ∃ b U' fs', ptr = b + 24 ∧ b ∉ U ∧ U' = insert b U ∧ Intact h' U' fs' ∧
      24 + n ≤ (h'.hdr b).size := by
  obtain ⟨h₁, p₁, U', fs', hk₁, hI', hA⟩ := kmalloc_spec hI hw
  obtain ⟨rfl, rfl⟩ : h₁ = h' ∧ p₁ = ptr := by simpa [hk] using hk₁.symm
  rcases hA with ⟨h0, -⟩ | ⟨b, hb, rfl, rfl⟩
  · exact absurd h0 hp
  · have hsize := kmalloc_size hI hk hp
    have hbounds := hI'.bounds_used (Finset.mem_insert_self b U)
    rw [blockOf_add_header (by omega), kmallocTotal_eq hw] at hsize
    exact ⟨b, _, fs', rfl, hb, rfl, hI', by omega⟩

/-- A size that wraps and is served: the bytes asked for end behind the heap. -/
theorem kmalloc_wrapped (hI : Intact h U fs) (hno : ¬ Fits h n) :
    ∃ h' ptr, kmalloc h n = some (h', ptr) ∧ ptr ≠ 0 ∧ h'.kernelHeapEnd < n := by
  obtain ⟨hw, hr⟩ := not_or.mp hno
  have hlarge := hI.wraps_large hw
  have hn : n ≠ 0 := by omega
  obtain ⟨h', ptr, hk, hp⟩ : ∃ h' ptr, kmalloc h n = some (h', ptr) ∧ ptr ≠ 0 := by
    rcases kmalloc_cases hI hn with ⟨hrefuse, -⟩ | ⟨prev, c, -, -, heq⟩ | ⟨-, heq, hptr⟩
    · exact absurd hrefuse hr
    · exact ⟨_, _, heq, by omega⟩
    · generalize bumpAlloc h (kmallocTotal n) = r at heq hptr
      exact ⟨r.1, r.2, heq, by omega⟩
  exact ⟨h', ptr, hk, hp, by rw [(kmalloc_frame hI hk).1]; exact hlarge⟩

theorem kmalloc_refused (hI : Intact h U fs) (hr : Refuses h n)
    (hk : kmalloc h n = some (h', ptr)) : ptr = 0 := by
  by_cases hn : n = 0
  · rw [kmalloc, if_pos hn] at hk
    cases hk
    rfl
  rcases kmalloc_cases hI hn with ⟨-, heq⟩ | ⟨prev, c, hc, hfit, heq⟩ | ⟨hroom, -, -⟩
  · rw [heq] at hk
    cases hk
    rfl
  · have := hr.1 c ((hI.onFreeList c).mpr hc)
    omega
  · have := hr.2
    omega

/-- **The room behind `kmalloc`.** -/
theorem kmalloc_law_iff (hI : Intact h U fs) (n : Nat) : KmallocLaw h U n ↔ Fits h n := by
  constructor
  · intro hlaw
    by_contra hno
    obtain ⟨h', ptr, hk, hp, hlarge⟩ := kmalloc_wrapped hI hno
    have hin := (hlaw h' ptr hk hp).inside.2
    omega
  · rintro (hw | hr) h' ptr hk hp
    · obtain ⟨b, U', fs', rfl, hb, rfl, hI', hsize⟩ := kmalloc_room hI hw hk hp
      have hroom := hI'.roomFor (Finset.mem_insert_self b U) hsize
      rwa [Finset.erase_insert hb] at hroom
    · exact absurd (kmalloc_refused hI hr hk) hp

-- ---------------------------------------------------------------------------
-- kcalloc and krealloc
-- ---------------------------------------------------------------------------

theorem kcalloc_eq {count size : Nat} (hlt : count * size < 2 ^ 64) :
    kcalloc h count size = (kmalloc h (count * size)).map fun r =>
      (if r.2 ≠ 0 then memZero r.1 r.2 (count * size) else r.1, r.2) := by
  have hno : ¬ (count ≠ 0 ∧ (2 ^ 64 - 1) / count < size) := by
    rintro ⟨h0, hlt'⟩
    have := (Nat.div_lt_iff_lt_mul (Nat.pos_of_ne_zero h0)).mp hlt'
    rw [Nat.mul_comm] at hlt
    omega
  unfold kcalloc
  rw [if_neg hno, mul_of_lt hlt]
  dsimp only
  cases kmalloc h (count * size) <;> rfl

theorem kcalloc_law_iff (hI : Intact h U fs) (count size : Nat) :
    KcallocLaw h U count size ↔ (count * size < 2 ^ 64 → Fits h (count * size)) := by
  by_cases hlt : count * size < 2 ^ 64
  · rw [← kmalloc_law_iff hI]
    unfold KcallocLaw KmallocLaw
    rw [kcalloc_eq hlt]
    have hzeroed : ∀ h' ptr, RoomFor (memZero h' ptr (count * size)) U ptr (count * size) ↔
        RoomFor h' U ptr (count * size) := fun h' ptr =>
      ⟨fun hR => ⟨hR.room, hR.inside, hR.used, hR.free⟩,
        fun hR => ⟨hR.room, hR.inside, hR.used, hR.free⟩⟩
    constructor
    · intro hlaw _ h' ptr hk hp
      have := hlaw (memZero h' ptr (count * size)) ptr (by simp [hk, hp]) hp
      exact (hzeroed h' ptr).mp this.1
    · intro hlaw h' ptr hk hp
      obtain ⟨⟨h₁, p₁⟩, hk₁, heq⟩ := Option.map_eq_some_iff.mp hk
      obtain ⟨rfl, rfl⟩ := Prod.mk.inj heq
      rw [if_pos hp]
      refine ⟨(hzeroed h₁ _).mpr (hlaw hlt h₁ _ hk₁ hp), fun i hi => ?_⟩
      exact if_pos ⟨by omega, by omega⟩
  · refine iff_of_true ?_ fun hlt' => absurd hlt' hlt
    intro h' ptr hk hp
    have hover : count ≠ 0 ∧ (2 ^ 64 - 1) / count < size := by
      by_contra hno
      exact hlt (mul_lt_of_not_overflow hno)
    rw [kcalloc, if_pos hover] at hk
    cases hk
    exact absurd rfl hp

theorem krealloc_null (h : Heap) (n : Nat) : krealloc h 0 n = kmalloc h n := if_pos rfl

/-- The block stays when the header and the new size, added up in 64 bits, fit in it. -/
theorem krealloc_stays {b : Nat} (hb : b + 24 < 2 ^ 64) (hn : n ≠ 0)
    (hfit : add heapBlockSize n ≤ (h.hdr b).size) :
    krealloc h (b + 24) n = some (h, b + 24) := by
  rw [krealloc, if_neg (by omega), if_neg hn, blockOf_add_header hb]
  exact if_pos hfit

theorem krealloc_moves {b : Nat} (hb : b + 24 < 2 ^ 64) (hn : n ≠ 0)
    (hno : ¬ add heapBlockSize n ≤ (h.hdr b).size) :
    krealloc h (b + 24) n = (kmalloc h n).map fun r =>
      if r.2 ≠ 0 then
        (kfree (memCopy r.1 r.2 (b + 24) (sub (r.1.hdr b).size heapBlockSize)) (b + 24), r.2)
      else (r.1, r.2) := by
  rw [krealloc, if_neg (by omega), if_neg hn, blockOf_add_header hb]
  dsimp only
  rw [if_neg hno]
  cases kmalloc h n with
  | none => rfl
  | some r =>
    simp only [Option.map_some]
    split <;> rfl

theorem coalesce_frame (h : Heap) (b : Nat) :
    (coalesce h b).mem = h.mem ∧ (coalesce h b).kernelHeapEnd = h.kernelHeapEnd := by
  unfold coalesce
  dsimp only
  split <;> exact ⟨rfl, rfl⟩

/-- A call of `kfree` that releases the block at `b`. -/
theorem kfree_released {p b : Nat} (hp : p ≠ 0) (hb : blockOf p = b)
    (hfree : ¬ (h.hdr b).free = true) :
    kfree h p =
      let h' := coalesce (setHdr h b { h.hdr b with free := true }) b
      { setHdr h' b { h'.hdr b with next := h'.freeList } with freeList := b } := by
  subst hb
  rw [kfree, if_neg hp, if_neg hfree]

theorem kfree_frame (h : Heap) (p : Nat) :
    (kfree h p).mem = h.mem ∧ (kfree h p).kernelHeapEnd = h.kernelHeapEnd := by
  by_cases hp : p = 0
  · rw [kfree, if_pos hp]
    exact ⟨rfl, rfl⟩
  obtain ⟨b, hb⟩ : ∃ b, blockOf p = b := ⟨_, rfl⟩
  by_cases hfree : (h.hdr b).free = true
  · rw [kfree, if_neg hp, hb, if_pos hfree]
    exact ⟨rfl, rfl⟩
  · rw [kfree_released hp hb hfree]
    exact coalesce_frame (setHdr h b { h.hdr b with free := true }) b

/-- A block that moves has room in its new place and leaves the others alone. -/
theorem krealloc_moved {b : Nat} (hI : Intact h U fs) (hb : b ∈ U) (hw : NoWrap h n)
    (hbig : (h.hdr b).size < 24 + n) (hk : kmalloc h n = some (h', ptr)) (hp : ptr ≠ 0) :
    RoomFor (kfree (memCopy h' ptr (b + 24) (sub (h'.hdr b).size heapBlockSize)) (b + 24))
        (U.erase b) ptr n ∧
      ∀ i < (h.hdr b).size - 24,
        (kfree (memCopy h' ptr (b + 24) (sub (h'.hdr b).size heapBlockSize)) (b + 24)).mem
          (ptr + i) = h.mem (b + 24 + i) := by
  have hbounds := hI.bounds_used hb
  have hkept := kmalloc_used hI hw hk hb
  obtain ⟨c, U', fs', rfl, hc, rfl, hI', hsize⟩ := kmalloc_room hI hw hk hp
  have hbc : c ≠ b := by
    rintro rfl
    exact hc hb
  have hb' : b ∈ insert c U := Finset.mem_insert_of_mem hb
  rw [hkept, heapBlockSize_eq, sub_of_le (by omega) (by omega)]
  have hcopied := hI'.with_mem (memCopy h' (c + 24) (b + 24) ((h.hdr b).size - 24)).mem
  have hfreed := hcopied.free_used hb'
  have hset : ((insert c U).erase b).erase c = U.erase b := by
    rw [Finset.erase_right_comm, Finset.erase_insert hc]
  refine ⟨?_, fun i hi => ?_⟩
  · rw [← hset]
    refine hfreed.roomFor (Finset.mem_erase.mpr ⟨hbc, Finset.mem_insert_self c U⟩) ?_
    rw [hcopied.kfree_size hb']
    exact hsize
  · rw [(kfree_frame _ _).1]
    show (if _ then h'.mem (c + 24 + i - (c + 24) + (b + 24)) else _) = _
    rw [if_pos (by omega), (kmalloc_frame hI hk).2]
    congr 1
    omega

/-- A block that grows in place, or the one that takes its place. -/
theorem krealloc_law_iff (hI : Intact h U fs) {p : Nat} (hp : p = 0 ∨ ∃ b ∈ U, p = b + 24)
    (hn : n < 2 ^ 64) :
    KreallocLaw h U p n ↔ (p ≠ 0 → heapBlockSize + n < 2 ^ 64) ∧ Fits h n := by
  have hend := hI.end_le
  rcases hp with rfl | ⟨b, hb, rfl⟩
  · have hU : U.erase (blockOf 0) = U := by
      refine Finset.erase_eq_of_notMem fun hmem => ?_
      have hbounds := hI.bounds_used hmem
      have : blockOf 0 = 2 ^ 64 - 24 := by decide
      omega
    rw [← kmalloc_law_iff hI, and_iff_right (fun h0 => absurd rfl h0)]
    unfold KreallocLaw KmallocLaw
    rw [krealloc_null, hU]
    have hold : ksize h 0 = 0 := rfl
    refine forall₄_congr fun h' ptr _ _ => and_iff_left fun i hi => ?_
    rw [hold] at hi
    omega
  have hbounds := hI.bounds_used hb
  have hblock : blockOf (b + 24) = b := blockOf_add_header (by omega)
  have hsize : ksize h (b + 24) = (h.hdr b).size - 24 := ksize_used hI hb
  by_cases h0 : n = 0
  · -- the block is released
    subst h0
    refine iff_of_true (fun h' ptr hk hptr => ?_) ⟨fun _ => by simp, .inl ?_⟩
    · rw [krealloc, if_neg (by omega), if_pos rfl] at hk
      cases hk
      exact absurd rfl hptr
    · unfold NoWrap
      rw [heapBlockSize_eq]
      omega
  by_cases hstay : add heapBlockSize n ≤ (h.hdr b).size
  · have hk := krealloc_stays (by omega) h0 hstay
    rw [heapBlockSize_eq] at hstay ⊢
    by_cases hover : 24 + n < 2 ^ 64
    · rw [add_of_lt hover] at hstay
      refine iff_of_true (fun h' ptr hk' _ => ?_) ⟨fun _ => hover, .inl ?_⟩
      · rw [hk] at hk'
        cases hk'
        rw [hblock]
        exact ⟨hI.roomFor hb hstay, fun i _ => rfl⟩
      · unfold NoWrap
        rw [heapBlockSize_eq]
        omega
    · refine iff_of_false (fun hlaw => ?_) fun hf => hover (hf.1 (by omega))
      have hin := (hlaw h _ hk (by omega)).1.inside.2
      omega
  · have hover : 24 + n < 2 ^ 64 := by
      by_contra hover
      rw [heapBlockSize_eq, add] at hstay
      omega
    rw [heapBlockSize_eq, add_of_lt hover] at hstay
    have hk := krealloc_moves (h := h) (b := b) (n := n) (by omega) h0 (by
      rw [heapBlockSize_eq, add_of_lt hover]
      exact hstay)
    rw [heapBlockSize_eq, and_iff_right fun _ => hover]
    constructor
    · intro hlaw
      by_contra hno
      obtain ⟨h₁, ptr, hk₁, hptr, hlarge⟩ := kmalloc_wrapped hI hno
      rw [hk₁, Option.map_some, if_pos hptr] at hk
      have hin := (hlaw _ _ hk hptr).1.inside.2
      rw [(kfree_frame _ _).2] at hin
      simp only [memCopy] at hin
      omega
    · rintro (hw | hr) h' ptr hk' hptr <;> rw [hk] at hk' <;>
        obtain ⟨⟨h₁, p₁⟩, hk₁, heq⟩ := Option.map_eq_some_iff.mp hk'
      · have hp₁ : p₁ ≠ 0 := by
          rintro rfl
          rw [if_neg (by simp)] at heq
          exact hptr (Prod.mk.inj heq).2.symm
        rw [if_pos hp₁] at heq
        obtain ⟨rfl, rfl⟩ := Prod.mk.inj heq
        have hmoved := krealloc_moved hI hb hw (by omega) hk₁ hp₁
        rw [hblock, hsize]
        exact ⟨hmoved.1, fun i hi => hmoved.2 i (by omega)⟩
      · obtain rfl := kmalloc_refused hI hr hk₁
        rw [if_neg (by simp)] at heq
        exact absurd (Prod.mk.inj heq).2.symm hptr

/-- **The allocation size law.** A pointer from `kmalloc`, `kcalloc` or `krealloc` has the bytes
that were asked for, no other block's, exactly for the sizes whose rounding and header do
not wrap, or wrap to a total that is turned down; `krealloc` compares before it allocates,
and there the header must not wrap either. -/
theorem allocation_size_law (hI : Intact h U fs) (n count size : Nat) {p m : Nat}
    (hp : p = 0 ∨ ∃ b ∈ U, p = b + 24) (hm : m < 2 ^ 64) :
    (KmallocLaw h U n ∧ KcallocLaw h U count size ∧ KreallocLaw h U p m) ↔
      Fits h n ∧ (count * size < 2 ^ 64 → Fits h (count * size)) ∧
        (p ≠ 0 → heapBlockSize + m < 2 ^ 64) ∧ Fits h m :=
  and_congr (kmalloc_law_iff hI n)
    (and_congr (kcalloc_law_iff hI count size) (krealloc_law_iff hI hp hm))

/-- The heap right after `heap_init`. -/
def freshHeap : Heap := (heapInit coldHeap (pmmInit smallLayout []) 0).1

theorem freshHeap_bounds : freshHeap.heapNext < 2 ^ 28 ∧
    freshHeap.kernelHeapEnd = freshHeap.heapNext + 2 ^ 29 := by
  have hslide := heapSlide_lt 0
  simp only [kaslrHeapRange] at hslide
  simp only [freshHeap, heapInit, kaslrHeapMin, kernelHeapSize]
  omega

theorem allocation_size_law_fresh :
    KmallocLaw freshHeap ∅ 100 ∧ KcallocLaw freshHeap ∅ 3 8 ∧ KreallocLaw freshHeap ∅ 0 50 := by
  have hfits : ∀ n < 2 ^ 32, Fits freshHeap n := by
    intro n hn
    have hbounds := freshHeap_bounds
    refine .inl ?_
    unfold NoWrap
    rw [heapBlockSize_eq]
    omega
  refine (allocation_size_law (heapInit_intact coldHeap _ 0) 100 3 8 (.inl rfl) (by decide)).mpr ?_
  exact ⟨hfits 100 (by decide), fun _ => hfits _ (by decide), fun h0 => absurd rfl h0,
    hfits 50 (by decide)⟩

/-- The largest size is rounded to 0 and gets a block that is all header. -/
theorem kmalloc_largest_gets_header :
    ¬ ∀ h U fs, Intact h U fs → ∀ n < 2 ^ 64, KmallocLaw h U n := by
  intro hall
  have hI : Intact freshHeap ∅ [] := heapInit_intact coldHeap _ 0
  have hbounds := freshHeap_bounds
  rcases (kmalloc_law_iff hI _).mp (hall _ _ _ hI (2 ^ 64 - 1) (by decide)) with hw | hr
  · unfold NoWrap at hw
    omega
  · have hover := hr.2
    rw [show kmallocTotal (2 ^ 64 - 1) = 24 by decide, add_of_lt (by omega)] at hover
    omega

end Lestra
