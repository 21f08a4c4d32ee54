import Lestra.Lib.Tiling
import Lestra.Lib.LinkedList
import Lestra.Mm.Heap

/-!
# Kernel heap — integrity

`Intact h U fs` is the invariant of the heap: the used blocks `U` and the free
blocks `fs`, in list order, tile the heap up to `heap_next`, and the links and
flags in the headers agree with the two. Every call changes `U` and `fs` in a
simple way (a block moves from one to the other, a free block is cut, a used
block is appended), so each call has one lemma.
-/

namespace Lestra

open Word64 Tiling LinkedList

def blockBytes (h : Heap) (b : Nat) : Nat := (h.hdr b).size

def blockNext (h : Heap) (b : Nat) : Nat := (h.hdr b).next

-- ---------------------------------------------------------------------------
-- The invariant
-- ---------------------------------------------------------------------------

structure Intact (h : Heap) (U : Finset Nat) (fs : List Nat) : Prop where
  tiles : Tiles (blockBytes h) (U ∪ fs.toFinset) h.kernelHeapStart h.heapNext
  header : ∀ b ∈ U ∪ fs.toFinset, heapBlockSize < (h.hdr b).size
  used : ∀ b ∈ U, (h.hdr b).free = false ∧ (h.hdr b).next = 0
  free : ∀ b ∈ fs, (h.hdr b).free = true
  chain : Chain (blockNext h) h.freeList fs
  nodup : fs.Nodup
  start_pos : 0 < h.kernelHeapStart
  next_le : h.heapNext ≤ h.kernelHeapEnd
  end_le : h.kernelHeapEnd ≤ 2 ^ 32

variable {h : Heap} {U : Finset Nat} {fs : List Nat}

theorem Intact.block_bounds (hI : Intact h U fs) {b : Nat} (hb : b ∈ U ∪ fs.toFinset) :
    0 < b ∧ 24 < (h.hdr b).size ∧ b + (h.hdr b).size ≤ h.heapNext ∧ h.heapNext ≤ 2 ^ 32 := by
  have hin : h.kernelHeapStart ≤ b ∧ b + (h.hdr b).size ≤ h.heapNext := hI.tiles.inside b hb
  have hsize := hI.header b hb
  have hstart := hI.start_pos
  have hnext := hI.next_le
  have hend := hI.end_le
  rw [heapBlockSize_eq] at hsize
  omega

/-- A used block is not on the free list. -/
theorem Intact.notMem_list (hI : Intact h U fs) {b : Nat} (hb : b ∈ U) : b ∉ fs := by
  intro hf
  have h1 := (hI.used b hb).1
  rw [hI.free b hf] at h1
  exact Bool.noConfusion h1

theorem Intact.bounds_used (hI : Intact h U fs) {b : Nat} (hb : b ∈ U) :
    0 < b ∧ 24 < (h.hdr b).size ∧ b + (h.hdr b).size ≤ h.heapNext ∧ h.heapNext ≤ 2 ^ 32 :=
  hI.block_bounds (Finset.mem_union_left _ hb)

theorem Intact.bounds_free (hI : Intact h U fs) {b : Nat} (hb : b ∈ fs) :
    0 < b ∧ 24 < (h.hdr b).size ∧ b + (h.hdr b).size ≤ h.heapNext ∧ h.heapNext ≤ 2 ^ 32 :=
  hI.block_bounds (Finset.mem_union_right _ (List.mem_toFinset.mpr hb))

/-- The free list is short enough for the walk to end. -/
theorem Intact.length_lt (hI : Intact h U fs) : fs.length < 2 ^ 64 := by
  have hle : fs.length ≤ 2 ^ 32 := by
    refine length_le_of_nodup hI.nodup fun b hb => ?_
    have := hI.bounds_free hb
    omega
  omega

-- ---------------------------------------------------------------------------
-- The free-list walk
-- ---------------------------------------------------------------------------

/-- On a list that ends, the walk ends, and a block it finds is on the list,
fits, and comes with its predecessor. -/
theorem findFree_spec (h : Heap) (total : Nat) :
    ∀ (fuel prev curr : Nat) (cs : List Nat), Chain (blockNext h) curr cs → cs.length < fuel →
      findFree h total fuel prev curr = some none ∨
      ∃ pre c post, cs = pre ++ c :: post ∧ total ≤ (h.hdr c).size ∧
        findFree h total fuel prev curr = some (some (pre.getLastD prev, c)) := by
  intro fuel
  induction fuel with
  | zero => intro prev curr cs _ hlen; omega
  | succ fuel ih =>
    intro prev curr cs hC hlen
    rw [findFree]
    by_cases h0 : curr = 0
    · exact Or.inl (if_pos h0)
    · rw [if_neg h0]
      obtain ⟨bs, rfl, hC'⟩ := hC.cons_of_ne h0
      by_cases hfit : (h.hdr curr).free = true ∧ total ≤ (h.hdr curr).size
      · rw [if_pos hfit]
        exact Or.inr ⟨[], curr, bs, rfl, hfit.2, rfl⟩
      · rw [if_neg hfit]
        rw [List.length_cons] at hlen
        rcases ih curr (h.hdr curr).next bs hC' (by omega) with hnone | ⟨pre, c, post, rfl, hc, hr⟩
        · exact Or.inl hnone
        · exact Or.inr ⟨curr :: pre, c, post, rfl, hc, by rw [hr, List.getLastD_cons]⟩

-- ---------------------------------------------------------------------------
-- One lemma for each way the heap changes
-- ---------------------------------------------------------------------------

/-- Bump allocation appends a used block. -/
theorem Intact.bump (hI : Intact h U fs) {total : Nat} (ht : 24 < total)
    (hfit : h.heapNext + total ≤ h.kernelHeapEnd) :
    (bumpAlloc h total).2 = h.heapNext + 24 ∧
      Intact (bumpAlloc h total).1 (insert h.heapNext U) fs ∧
      ∀ b ∈ fs, (bumpAlloc h total).1.hdr b = h.hdr b := by
  have hend := hI.end_le
  have hadd : add h.heapNext total = h.heapNext + total := add_of_lt (by omega)
  have hpay : add h.heapNext heapBlockSize = h.heapNext + 24 := add_of_lt (by simp; omega)
  have heq : bumpAlloc h total =
      ({ setHdr h h.heapNext ⟨total, 0, false⟩ with heapNext := h.heapNext + total },
        h.heapNext + 24) := by
    unfold bumpAlloc
    rw [hadd, if_neg (by omega)]
    simp only [setHdr_heapNext, hadd, hpay]
  rw [heq]
  have hold : ∀ b ∈ U ∪ fs.toFinset,
      (setHdr h h.heapNext ⟨total, 0, false⟩).hdr b = h.hdr b := by
    intro b hb
    refine setHdr_of_ne ?_
    rintro rfl
    exact hI.tiles.end_notMem hb
  have holdF : ∀ b ∈ fs, (setHdr h h.heapNext ⟨total, 0, false⟩).hdr b = h.hdr b :=
    fun b hb => hold b (Finset.mem_union_right _ (List.mem_toFinset.mpr hb))
  refine ⟨rfl,
    { tiles := ?_, header := ?_, used := ?_, free := ?_, chain := ?_, nodup := hI.nodup,
      start_pos := hI.start_pos, next_le := hfit, end_le := hend }, holdF⟩
  · rw [Finset.insert_union]
    refine hI.tiles.append (by omega) ?_ fun b hb => ?_
    · simp [blockBytes]
    · simp only [blockBytes, hold b hb]
  · intro b hb
    rw [Finset.insert_union] at hb
    rcases Finset.mem_insert.mp hb with rfl | hb
    · simpa using ht
    · simp only [hold b hb]
      exact hI.header b hb
  · intro b hb
    rcases Finset.mem_insert.mp hb with rfl | hb
    · simp
    · simp only [hold b (Finset.mem_union_left _ hb)]
      exact hI.used b hb
  · intro b hb
    simp only [holdF b hb]
    exact hI.free b hb
  · refine hI.chain.congr fun b hb => ?_
    simp only [blockNext, holdF b hb]

/-- Unlinking a member of the free list keeps every size and flag and leaves
the list without it. -/
theorem unlinkFree_spec {c : Nat} {pre post : List Nat} (hI : Intact h U (pre ++ c :: post)) :
    let h' := unlinkFree h (pre.getLastD 0) c
    (∀ a, (h'.hdr a).size = (h.hdr a).size ∧ (h'.hdr a).free = (h.hdr a).free) ∧
      (∀ a, a ∉ pre → h'.hdr a = h.hdr a) ∧ Chain (blockNext h') h'.freeList (pre ++ post) ∧
      h'.heapNext = h.heapNext ∧ h'.kernelHeapStart = h.kernelHeapStart ∧
      h'.kernelHeapEnd = h.kernelHeapEnd := by
  intro h'
  rcases List.eq_nil_or_concat' pre with rfl | ⟨pre, p, rfl⟩
  · -- the head of the list: the list pointer moves on
    have heq : h' = { h with freeList := (h.hdr c).next } := if_neg (by simp)
    rw [heq]
    exact ⟨fun a => ⟨rfl, rfl⟩, fun a _ => rfl, hI.chain.2.2, rfl, rfl, rfl⟩
  · have hp0 : p ≠ 0 := by
      have := hI.bounds_free (b := p) (by simp)
      omega
    have heq : h' = setHdr h p { h.hdr p with next := (h.hdr c).next } := by
      show unlinkFree h _ c = _
      rw [List.getLastD_concat, unlinkFree, if_pos hp0]
    have hnext : blockNext h' = Function.update (blockNext h) p (blockNext h c) := by
      funext a
      by_cases ha : a = p
      · subst ha
        simp [heq, blockNext]
      · simp only [heq, blockNext, setHdr_of_ne ha, Function.update_of_ne ha]
    refine ⟨fun a => ?_, fun a ha => ?_, ?_, by simp [heq], by simp [heq], by simp [heq]⟩
    · by_cases ha : a = p
      · subst ha
        simp [heq]
      · simp [heq, setHdr_of_ne ha]
    · rw [heq]
      refine setHdr_of_ne ?_
      rintro rfl
      simp at ha
    · have hC := hI.chain
      have hN := hI.nodup
      rw [List.append_assoc, List.singleton_append] at hC hN
      rw [hnext, heq, List.append_assoc, List.singleton_append]
      exact hC.unlink hN

/-- Taking a block off the free list makes it a used block. -/
theorem Intact.unlink {c : Nat} {pre post : List Nat} (hI : Intact h U (pre ++ c :: post)) :
    let h1 := unlinkFree h (pre.getLastD 0) c
    Intact (setHdr h1 c { h1.hdr c with next := 0, free := false }) (insert c U) (pre ++ post) := by
  intro h1
  obtain ⟨hsf, hhdr, hchain, hnx, hst, hen⟩ := unlinkFree_spec hI
  have hnd := hI.nodup
  have hcpre : c ∉ pre := by
    intro hc
    rw [List.nodup_append] at hnd
    exact hnd.2.2 c hc c (by simp) rfl
  have hc : c ∉ pre ++ post := by
    rw [List.nodup_append, List.nodup_cons] at hnd
    simp only [List.mem_append, not_or]
    exact ⟨hcpre, hnd.2.1.1⟩
  have hcU : c ∉ U := fun hcU => hI.notMem_list hcU (by simp)
  have hB : insert c U ∪ (pre ++ post).toFinset = U ∪ (pre ++ c :: post).toFinset := by
    ext b
    simp only [Finset.mem_union, Finset.mem_insert, List.mem_toFinset, List.mem_append,
      List.mem_cons]
    tauto
  set h2 := setHdr h1 c { h1.hdr c with next := 0, free := false } with hh2
  have hsize : ∀ b, (h2.hdr b).size = (h.hdr b).size := by
    intro b
    by_cases hb : b = c
    · subst hb
      rw [hh2, setHdr_self]
      exact (hsf b).1
    · rw [hh2, setHdr_of_ne hb, (hsf b).1]
  have hlist : ∀ b ∈ pre ++ post, h2.hdr b = h1.hdr b := by
    intro b hb
    refine setHdr_of_ne ?_
    rintro rfl
    exact hc hb
  refine
    { tiles := ?_, header := ?_, used := ?_, free := ?_, chain := ?_, nodup := ?_,
      start_pos := ?_, next_le := ?_, end_le := ?_ }
  · rw [hB, show h2.kernelHeapStart = h.kernelHeapStart from hst,
      show h2.heapNext = h.heapNext from hnx]
    exact hI.tiles.congr fun b _ => hsize b
  · intro b hb
    rw [hsize b]
    exact hI.header b (hB ▸ hb)
  · intro b hb
    rcases Finset.mem_insert.mp hb with rfl | hbU
    · simp [hh2]
    · have hbc : b ≠ c := by
        rintro rfl
        exact hcU hbU
      have hbpre : b ∉ pre := fun hbp => hI.notMem_list hbU (by simp [hbp])
      rw [hh2, setHdr_of_ne hbc, hhdr b hbpre]
      exact hI.used b hbU
  · intro b hb
    rw [hlist b hb, (hsf b).2]
    refine hI.free b ?_
    simp only [List.mem_append, List.mem_cons] at hb ⊢
    tauto
  · refine hchain.congr fun b hb => ?_
    simp only [blockNext, hlist b hb]
    rfl
  · exact hnd.sublist (by simp)
  · rw [show h2.kernelHeapStart = h.kernelHeapStart from hst]
    exact hI.start_pos
  · rw [show h2.kernelHeapEnd = h.kernelHeapEnd from hen, show h2.heapNext = h.heapNext from hnx]
    exact hI.next_le
  · rw [show h2.kernelHeapEnd = h.kernelHeapEnd from hen]
    exact hI.end_le

/-- What `split_block` leaves behind when it does cut. -/
theorem splitBlock_eq {c total : Nat} (hc : c + (h.hdr c).size ≤ 2 ^ 32) (ht : 0 < total)
    (hbig : total + 40 ≤ (h.hdr c).size) :
    splitBlock h c total =
      { setHdr (setHdr h (c + total) ⟨(h.hdr c).size - total, h.freeList, true⟩) c
          { h.hdr c with size := total } with freeList := c + total } := by
  have h1 : add total 24 = total + 24 := add_of_lt (by omega)
  have h2 : add (total + 24) 16 = total + 40 := add_of_lt (by omega)
  have h3 : add c total = c + total := add_of_lt (by omega)
  have h4 : sub (h.hdr c).size total = (h.hdr c).size - total := sub_of_le (by omega) (by omega)
  have h5 : c ≠ c + total := by omega
  simp only [splitBlock, heapBlockSize_eq, h1, h2, h3, h4, if_pos hbig, setHdr_of_ne h5]
  rfl

/-- Cutting a used block keeps it used and puts the rest on the free list. -/
theorem Intact.split (hI : Intact h U fs) {c total : Nat} (hc : c ∈ U) (ht : 24 < total)
    (hle : total ≤ (h.hdr c).size) : ∃ fs', Intact (splitBlock h c total) U fs' ∧
      ∀ b ∈ fs', (b ∈ fs ∧ ((splitBlock h c total).hdr b).size = (h.hdr b).size) ∨
        (c < b ∧ b + ((splitBlock h c total).hdr b).size = c + (h.hdr c).size) := by
  obtain ⟨hc0, hcs, hcn, hnx⟩ := hI.bounds_used hc
  have hcB : c ∈ U ∪ fs.toFinset := Finset.mem_union_left _ hc
  rcases Nat.lt_or_ge (h.hdr c).size (total + 40) with hsm | hbig
  · have hkeep : splitBlock h c total = h := by
      unfold splitBlock
      rw [heapBlockSize_eq, add_of_lt (a := total) (b := 24) (by omega), add_of_lt (by omega),
        if_neg (by omega)]
    rw [hkeep]
    exact ⟨fs, hI, fun b hb => .inl ⟨hb, rfl⟩⟩
  rw [splitBlock_eq (by omega) (by omega) hbig]
  set h' : Heap := setHdr (setHdr h (c + total) ⟨(h.hdr c).size - total, h.freeList, true⟩) c
    { h.hdr c with size := total } with hh'
  have hnew : c + total ∉ U ∪ fs.toFinset :=
    hI.tiles.notMem_inside hcB (by omega) (by simp only [blockBytes]; omega)
  have hdrC : h'.hdr c = { h.hdr c with size := total } := setHdr_self _ _ _
  have hdrNew : h'.hdr (c + total) = ⟨(h.hdr c).size - total, h.freeList, true⟩ := by
    rw [hh', setHdr_of_ne (by omega), setHdr_self]
  have hdrOld : ∀ b ∈ U ∪ fs.toFinset, b ≠ c → h'.hdr b = h.hdr b := by
    intro b hb hbc
    rw [hh', setHdr_of_ne hbc, setHdr_of_ne]
    rintro rfl
    exact hnew hb
  have hdrList : ∀ b ∈ fs, h'.hdr b = h.hdr b := by
    intro b hb
    refine hdrOld b (Finset.mem_union_right _ (List.mem_toFinset.mpr hb)) ?_
    rintro rfl
    exact hI.notMem_list hc hb
  have hB : U ∪ ((c + total) :: fs).toFinset = insert (c + total) (U ∪ fs.toFinset) := by
    rw [List.toFinset_cons, Finset.union_insert]
  refine ⟨(c + total) :: fs,
    { tiles := ?_, header := ?_, used := ?_, free := ?_, chain := ?_, nodup := ?_,
      start_pos := hI.start_pos, next_le := hI.next_le, end_le := hI.end_le }, ?_⟩
  · rw [hB]
    refine hI.tiles.split hcB (by omega) (by simp only [blockBytes]; omega) ?_ ?_ ?_
    · simp only [blockBytes, hdrC]
    · simp only [blockBytes, hdrNew]
    · intro b hb hbc
      simp only [blockBytes, hdrOld b hb hbc]
  · intro b hb
    rw [hB] at hb
    rw [heapBlockSize_eq]
    rcases Finset.mem_insert.mp hb with rfl | hb
    · rw [hdrNew]
      show 24 < (h.hdr c).size - total
      omega
    · by_cases hbc : b = c
      · subst hbc
        rw [hdrC]
        exact ht
      · rw [hdrOld b hb hbc]
        exact hI.header b hb
  · intro b hb
    by_cases hbc : b = c
    · subst hbc
      rw [hdrC]
      exact hI.used b hb
    · rw [hdrOld b (Finset.mem_union_left _ hb) hbc]
      exact hI.used b hb
  · intro b hb
    rcases List.mem_cons.mp hb with rfl | hb
    · rw [hdrNew]
    · rw [hdrList b hb]
      exact hI.free b hb
  · refine ⟨rfl, by omega, ?_⟩
    have hn : blockNext { h' with freeList := c + total } (c + total) = h.freeList := by
      simp only [blockNext, hdrNew]
    rw [hn]
    refine hI.chain.congr fun b hb => ?_
    simp only [blockNext, hdrList b hb]
  · rw [List.nodup_cons]
    refine ⟨fun hb => hnew ?_, hI.nodup⟩
    exact Finset.mem_union_right _ (List.mem_toFinset.mpr hb)
  · intro b hb
    rcases List.mem_cons.mp hb with rfl | hb
    · refine .inr ⟨by omega, ?_⟩
      show c + total + (h'.hdr (c + total)).size = _
      rw [hdrNew]
      show c + total + ((h.hdr c).size - total) = _
      omega
    · refine .inl ⟨hb, ?_⟩
      show (h'.hdr b).size = _
      rw [hdrList b hb]

/-- The `next` field of a used block is null, so `kfree` never merges it with the following
block. -/
theorem Intact.kfree_eq (hI : Intact h U fs) {b : Nat} (hb : b ∈ U) : kfree h (b + 24) =
    { setHdr h b ⟨(h.hdr b).size, h.freeList, true⟩ with freeList := b } := by
  obtain ⟨hb0, hbs, hbn, hnx⟩ := hI.bounds_used hb
  obtain ⟨hbf, hbz⟩ := hI.used b hb
  have hblock : blockOf (b + 24) = b := by
    rw [blockOf, sub_of_le (by omega) (by simp)]
    rfl
  have hco : coalesce (setHdr h b { h.hdr b with free := true }) b =
      setHdr h b { h.hdr b with free := true } := by
    unfold coalesce
    simp [hbz]
  unfold kfree
  rw [if_neg (by omega), hblock, if_neg (by simp [hbf])]
  simp only [hco]
  simp [setHdr]

theorem Intact.kfree_size (hI : Intact h U fs) {b : Nat} (hb : b ∈ U) (c : Nat) :
    ((kfree h (b + 24)).hdr c).size = (h.hdr c).size := by
  rw [hI.kfree_eq hb]
  show ((setHdr h b ⟨(h.hdr b).size, h.freeList, true⟩).hdr c).size = _
  by_cases hc : c = b
  · rw [hc, setHdr_self]
  · rw [setHdr_of_ne hc]

/-- Releasing a used block puts it at the head of the free list. -/
theorem Intact.free_used (hI : Intact h U fs) {b : Nat} (hb : b ∈ U) :
    Intact (kfree h (b + 24)) (U.erase b) (b :: fs) := by
  obtain ⟨hb0, hbs, hbn, hnx⟩ := hI.bounds_used hb
  have heq := hI.kfree_eq hb
  rw [heq]
  set h' : Heap := setHdr h b ⟨(h.hdr b).size, h.freeList, true⟩ with hh'
  have hdrB : h'.hdr b = ⟨(h.hdr b).size, h.freeList, true⟩ := setHdr_self _ _ _
  have hdrOld : ∀ c, c ≠ b → h'.hdr c = h.hdr c := fun c hc => setHdr_of_ne hc
  have hsize : ∀ c, (h'.hdr c).size = (h.hdr c).size := by
    intro c
    by_cases hc : c = b
    · subst hc
      rw [hdrB]
    · rw [hdrOld c hc]
  have hbfs : b ∉ fs := hI.notMem_list hb
  have hdrList : ∀ c ∈ fs, h'.hdr c = h.hdr c := by
    intro c hc
    refine hdrOld c ?_
    rintro rfl
    exact hbfs hc
  have hB : U.erase b ∪ (b :: fs).toFinset = U ∪ fs.toFinset := by
    rw [List.toFinset_cons, Finset.union_insert, ← Finset.insert_union, Finset.insert_erase hb]
  refine
    { tiles := ?_, header := ?_, used := ?_, free := ?_, chain := ?_, nodup := ?_,
      start_pos := hI.start_pos, next_le := hI.next_le, end_le := hI.end_le }
  · rw [hB]
    exact hI.tiles.congr fun c _ => hsize c
  · intro c hc
    rw [hB] at hc
    exact (hsize c).symm ▸ hI.header c hc
  · intro c hc
    rw [hdrOld c (Finset.ne_of_mem_erase hc)]
    exact hI.used c (Finset.mem_of_mem_erase hc)
  · intro c hc
    rcases List.mem_cons.mp hc with rfl | hc
    · rw [hdrB]
    · rw [hdrList c hc]
      exact hI.free c hc
  · refine ⟨rfl, by omega, ?_⟩
    have hn : blockNext { h' with freeList := b } b = h.freeList := by
      simp only [blockNext, hdrB]
    rw [hn]
    refine hI.chain.congr fun c hc => ?_
    simp only [blockNext, hdrList c hc]
  · exact List.nodup_cons.mpr ⟨hbfs, hI.nodup⟩

/-- The payload bytes are no part of the invariant. -/
theorem Intact.with_mem (hI : Intact h U fs) (m : Nat → BitVec 8) :
    Intact { h with mem := m } U fs :=
  ⟨hI.tiles, hI.header, hI.used, hI.free, hI.chain, hI.nodup, hI.start_pos, hI.next_le, hI.end_le⟩

-- ---------------------------------------------------------------------------
-- The calls
-- ---------------------------------------------------------------------------

/-- Rounding the request up to 16 bytes, adding the header and bumping
`heap_next` past the block stays below 2^64. -/
def NoWrap (h : Heap) (size : Nat) : Prop :=
  h.heapNext + heapBlockSize + (size + 15) / 16 * 16 < 2 ^ 64

theorem kmallocTotal_eq {size : Nat} (hw : NoWrap h size) :
    kmallocTotal size = 24 + (size + 15) / 16 * 16 := by
  unfold NoWrap at hw
  rw [heapBlockSize_eq] at hw
  rw [kmallocTotal, alignUp_of_lt (by omega), heapBlockSize_eq]
  exact add_of_lt (by omega)

/-- What an allocation call did: it refused, or it made one new used block. -/
def Allocates (U U' : Finset Nat) (ptr : Nat) : Prop :=
  (ptr = 0 ∧ U' = U) ∨ ∃ b, b ∉ U ∧ ptr = b + 24 ∧ U' = insert b U

/-- Every free block of `h'` was one before with the same size, or is the rest of one that
is not free any more. -/
def FreeParts (h h' : Heap) (fs fs' : List Nat) : Prop :=
  ∀ b ∈ fs', (b ∈ fs ∧ (h'.hdr b).size = (h.hdr b).size) ∨
    ∃ c ∈ fs, c ∉ fs' ∧ c < b ∧ b + (h'.hdr b).size = c + (h.hdr c).size

theorem kmalloc_parts (hI : Intact h U fs) {size : Nat} (hw : NoWrap h size) :
    ∃ h' ptr U' fs', kmalloc h size = some (h', ptr) ∧ Intact h' U' fs' ∧
      Allocates U U' ptr ∧ FreeParts h h' fs fs' := by
  unfold kmalloc
  by_cases h0 : size = 0
  · rw [if_pos h0]
    exact ⟨h, 0, U, fs, rfl, hI, Or.inl ⟨rfl, rfl⟩, fun b hb => .inl ⟨hb, rfl⟩⟩
  rw [if_neg h0, kmallocTotal_eq hw]
  have ht : 24 < 24 + (size + 15) / 16 * 16 := by omega
  rcases findFree_spec h (24 + (size + 15) / 16 * 16) (2 ^ 64) 0 h.freeList fs hI.chain
    hI.length_lt with hnone | ⟨pre, c, post, rfl, hc, hr⟩
  · -- no free block fits: bump `heap_next`
    simp only [hnone]
    rcases Nat.lt_or_ge h.kernelHeapEnd (h.heapNext + (24 + (size + 15) / 16 * 16)) with hov | hfit
    · unfold NoWrap at hw
      rw [heapBlockSize_eq] at hw
      refine ⟨h, 0, U, fs, ?_, hI, Or.inl ⟨rfl, rfl⟩, fun b hb => .inl ⟨hb, rfl⟩⟩
      rw [bumpAlloc, add_of_lt (by omega), if_pos hov]
    · obtain ⟨hptr, hI', hold⟩ := hI.bump ht hfit
      refine ⟨_, _, _, fs, rfl, hI', Or.inr ⟨h.heapNext, fun hu => ?_, hptr, rfl⟩,
        fun b hb => .inl ⟨hb, congrArg HeapBlock.size (hold b hb)⟩⟩
      exact hI.tiles.end_notMem (Finset.mem_union_left _ hu)
  · -- the block at `c` is unlinked and cut to size
    simp only [hr]
    obtain ⟨-, -, hcn, hnx⟩ := hI.bounds_free (b := c) (by simp)
    obtain ⟨hsf, -⟩ := unlinkFree_spec hI
    obtain ⟨fs', hI', hparts⟩ := hI.unlink.split (Finset.mem_insert_self c U) ht (by
      rw [setHdr_self]
      exact hc.trans_eq (hsf c).1.symm)
    have hsize : ∀ b, ((setHdr (unlinkFree h (pre.getLastD 0) c) c
        { (unlinkFree h (pre.getLastD 0) c).hdr c with next := 0, free := false }).hdr b).size =
        (h.hdr b).size := fun b => by
      by_cases hb : b = c
      · rw [hb, setHdr_self]
        exact (hsf c).1
      · rw [setHdr_of_ne hb]
        exact (hsf b).1
    have hcU : c ∉ fs' := fun hcf => hI'.notMem_list (Finset.mem_insert_self c U) hcf
    refine ⟨_, _, insert c U, fs', rfl, hI', Or.inr ⟨c, fun hu => ?_, ?_, rfl⟩, fun b hb => ?_⟩
    · exact hI.notMem_list hu (by simp)
    · exact add_of_lt (by rw [heapBlockSize_eq]; omega)
    · rcases hparts b hb with ⟨hbf, hbs⟩ | ⟨hlt, hend⟩
      · refine .inl ⟨?_, hbs.trans (hsize b)⟩
        simp only [List.mem_append, List.mem_cons] at hbf ⊢
        tauto
      · exact .inr ⟨c, by simp, hcU, hlt, by rw [hsize] at hend; exact hend⟩

theorem kmalloc_spec (hI : Intact h U fs) {size : Nat} (hw : NoWrap h size) :
    ∃ h' ptr U' fs', kmalloc h size = some (h', ptr) ∧ Intact h' U' fs' ∧
      Allocates U U' ptr := by
  obtain ⟨h', ptr, U', fs', hk, hI', hA, -⟩ := kmalloc_parts hI hw
  exact ⟨h', ptr, U', fs', hk, hI', hA⟩

/-- The overflow check of `kcalloc`. -/
theorem mul_lt_of_not_overflow {count size : Nat}
    (hov : ¬ (count ≠ 0 ∧ (2 ^ 64 - 1) / count < size)) : count * size < 2 ^ 64 := by
  rcases Nat.eq_zero_or_pos count with rfl | hc
  · omega
  · have hle : size ≤ (2 ^ 64 - 1) / count := by omega
    have hmul := Nat.mul_le_of_le_div count size (2 ^ 64 - 1) hle
    rw [Nat.mul_comm] at hmul
    omega

theorem kcalloc_spec (hI : Intact h U fs) {count size : Nat}
    (hw : count * size < 2 ^ 64 → NoWrap h (count * size)) :
    ∃ h' ptr U' fs', kcalloc h count size = some (h', ptr) ∧ Intact h' U' fs' ∧
      Allocates U U' ptr := by
  unfold kcalloc
  by_cases hov : count ≠ 0 ∧ (2 ^ 64 - 1) / count < size
  · rw [if_pos hov]
    exact ⟨h, 0, U, fs, rfl, hI, Or.inl ⟨rfl, rfl⟩⟩
  rw [if_neg hov]
  have hlt := mul_lt_of_not_overflow hov
  obtain ⟨h', ptr, U', fs', hk, hI', hA⟩ := kmalloc_spec hI (hw hlt)
  rw [mul_of_lt hlt]
  simp only [hk]
  refine ⟨_, ptr, U', fs', rfl, ?_, hA⟩
  split
  · exact hI'.with_mem _
  · exact hI'

/-- `krealloc` of a live block: it stays, it is freed, or a new block takes its place. -/
theorem krealloc_spec (hI : Intact h U fs) {b size : Nat} (hb : b ∈ U) (hw : NoWrap h size) :
    ∃ h' ptr U' fs', krealloc h (b + 24) size = some (h', ptr) ∧ Intact h' U' fs' ∧
      ((ptr = 0 ∧ U' = if size = 0 then U.erase b else U) ∨
        ∃ c, ptr = c + 24 ∧ U' = insert c (U.erase b)) := by
  unfold krealloc
  rw [if_neg (by omega)]
  by_cases h0 : size = 0
  · rw [if_pos h0]
    exact ⟨_, 0, _, _, rfl, hI.free_used hb, Or.inl ⟨rfl, by rw [if_pos h0]⟩⟩
  rw [if_neg h0]
  dsimp only
  split
  · refine ⟨h, b + 24, U, fs, rfl, hI, Or.inr ⟨b, rfl, ?_⟩⟩
    rw [Finset.insert_erase hb]
  · obtain ⟨h', ptr, U', fs', hk, hI', hA⟩ := kmalloc_spec hI hw
    simp only [hk]
    rcases hA with ⟨rfl, rfl⟩ | ⟨c, hc, rfl, rfl⟩
    · rw [if_neg (by simp)]
      exact ⟨h', 0, U', fs', rfl, hI', Or.inl ⟨rfl, rfl⟩⟩
    · rw [if_pos (by omega)]
      refine ⟨_, c + 24, _, _, rfl,
        (hI'.with_mem _).free_used (Finset.mem_insert_of_mem hb), Or.inr ⟨c, rfl, ?_⟩⟩
      refine Finset.erase_insert_of_ne ?_
      rintro rfl
      exact hc hb

end Lestra
