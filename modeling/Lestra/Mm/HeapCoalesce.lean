import Lestra.Mm.HeapRuns

/-!
# Kernel heap — coalescing

A used block has no `next`, and only `next` is looked at by `kfree`: no two blocks are ever
merged. So two free blocks stay apart exactly as long as each block that is released has no
free block beside it.

* `kfree_coalesced_iff` — one `kfree` keeps free blocks from touching exactly then.
* `heap_coalesced` — the same over runs, and what it means when all blocks are released.
-/

namespace Lestra

open Word64 Tiling LinkedList

-- ---------------------------------------------------------------------------
-- Free blocks that touch
-- ---------------------------------------------------------------------------

/-- A block that the walk over the free list meets. -/
def OnFreeList (h : Heap) (b : Nat) : Prop := ∃ fs, Chain (blockNext h) h.freeList fs ∧ b ∈ fs

/-- No free block ends where another one starts. -/
def Coalesced (h : Heap) : Prop :=
  ∀ b c, OnFreeList h b → OnFreeList h c → b + (h.hdr b).size ≠ c

/-- The whole heap is one free block, or nothing was ever handed out. -/
def WholeFree (h : Heap) : Prop :=
  h.heapNext = h.kernelHeapStart ∨ h.freeList = h.kernelHeapStart ∧
    (h.hdr h.kernelHeapStart).free = true ∧
    (h.hdr h.kernelHeapStart).size = h.heapNext - h.kernelHeapStart

/-- No free block lies beside the block whose payload starts at `ptr`. -/
def Alone (h : Heap) (ptr : Nat) : Prop :=
  ∀ c, OnFreeList h c → c ≠ blockOf ptr + (h.hdr (blockOf ptr)).size ∧
    c + (h.hdr c).size ≠ blockOf ptr

variable {h h' : Heap} {U U' : Finset Nat} {fs fs' : List Nat}

theorem Intact.onFreeList (hI : Intact h U fs) (b : Nat) : OnFreeList h b ↔ b ∈ fs := by
  constructor
  · rintro ⟨as, hC, hb⟩
    have huniq := hC.unique hI.chain
    rwa [← huniq]
  · exact fun hb => ⟨fs, hI.chain, hb⟩

theorem Intact.coalesced_iff (hI : Intact h U fs) :
    Coalesced h ↔ ∀ b ∈ fs, ∀ c ∈ fs, b + (h.hdr b).size ≠ c := by
  unfold Coalesced
  simp only [hI.onFreeList]
  exact ⟨fun hc b hb c => hc b c hb, fun hc b c hb => hc b hb c⟩

theorem blockOf_add {b : Nat} (hI : Intact h U fs) (hb : b ∈ U) : blockOf (b + 24) = b := by
  have hbounds := hI.bounds_used hb
  rw [blockOf, sub_of_le (by omega) (by simp)]
  rfl

-- ---------------------------------------------------------------------------
-- One call
-- ---------------------------------------------------------------------------

/-- Two blocks do not share an address. -/
theorem Intact.apart (hI : Intact h U fs) {b c : Nat} (hb : b ∈ fs) (hc : c ∈ fs) (hne : b ≠ c) :
    b + (h.hdr b).size ≤ c ∨ c + (h.hdr c).size ≤ b :=
  hI.tiles.apart b (Finset.mem_union_right _ (List.mem_toFinset.mpr hb)) c
    (Finset.mem_union_right _ (List.mem_toFinset.mpr hc)) hne

/-- An allocation brings no two free blocks together. -/
theorem Coalesced.alloc (hc : Coalesced h) (hI : Intact h U fs) (hI' : Intact h' U' fs')
    (hP : FreeParts h h' fs fs') : Coalesced h' := by
  rw [hI.coalesced_iff] at hc
  rw [hI'.coalesced_iff]
  intro b hb d hd htouch
  rcases hP b hb with ⟨hbf, hbs⟩ | ⟨c, hcf, hcn, hcb, hce⟩ <;>
    rcases hP d hd with ⟨hdf, hds⟩ | ⟨e, hef, hen, hed, hee⟩
  · exact hc b hbf d hdf (by omega)
  · -- `d` starts inside the old block `e`, and `b` would end there
    have hne : b ≠ e := fun heq => hen (heq ▸ hb)
    have hpos := hI'.bounds_free hd
    have hpos' := hI'.bounds_free hb
    have hapart := hI.apart hbf hef hne
    omega
  · exact hc c hcf d hdf (by omega)
  · by_cases hne : c = e
    · subst hne
      have hpos := hI'.bounds_free hd
      omega
    · have hpos := hI'.bounds_free hd
      have hpos' := hI'.bounds_free hb
      have hapart := hI.apart hcf hef hne
      omega

/--
**One `kfree`.** Releasing a live block of an intact heap without touching free blocks leaves
none exactly when no free block lies beside it.
-/
theorem kfree_coalesced_iff (hI : Intact h U fs) (hc : Coalesced h) {b : Nat} (hb : b ∈ U) :
    Coalesced (kfree h (b + 24)) ↔ Alone h (b + 24) := by
  have hsize := hI.kfree_size hb
  rw [hI.coalesced_iff] at hc
  rw [(hI.free_used hb).coalesced_iff, Alone, blockOf_add hI hb]
  simp only [hI.onFreeList, hsize]
  constructor
  · intro h c hcf
    exact ⟨(h b (by simp) c (by simp [hcf])).symm, h c (by simp [hcf]) b (by simp)⟩
  · intro h c hcm d hdm
    have hbb := (hI.bounds_used hb).2.1
    rcases List.mem_cons.mp hcm with hcb | hcf <;> rcases List.mem_cons.mp hdm with hdb | hdf
    · rw [hcb, hdb]
      omega
    · rw [hcb]
      exact (h d hdf).1.symm
    · rw [hdb]
      exact (h c hcf).2
    · exact hc c hcf d hdf

/-- When all blocks are free and none touch, there is only one. -/
theorem Coalesced.whole (hc : Coalesced h) (hI : Intact h ∅ fs) : WholeFree h := by
  rw [hI.coalesced_iff] at hc
  have hle := hI.tiles.le
  have hcover : ∀ x, h.kernelHeapStart ≤ x → x < h.heapNext →
      ∃ b ∈ fs, b ≤ x ∧ x < b + (h.hdr b).size := fun x h1 h2 => by
    obtain ⟨b, hb, hx⟩ := hI.tiles.cover x h1 h2
    exact ⟨b, by simpa using hb, hx⟩
  have hinside : ∀ b ∈ fs, h.kernelHeapStart ≤ b ∧ b + (h.hdr b).size ≤ h.heapNext :=
    fun b hb => hI.tiles.inside b (by simpa using hb)
  rcases Nat.lt_or_ge h.kernelHeapStart h.heapNext with hlt | hge
  · obtain ⟨b, hb, hbs, hbx⟩ := hcover _ (Nat.le_refl _) hlt
    have hfirst : b = h.kernelHeapStart := Nat.le_antisymm hbs (hinside b hb).1
    have hend : b + (h.hdr b).size = h.heapNext := by
      refine Nat.le_antisymm (hinside b hb).2 (not_lt.mp fun hmore => ?_)
      -- the block at the end of `b` is free and touches it
      obtain ⟨d, hd, hdx, hdy⟩ := hcover (b + (h.hdr b).size) (by omega) hmore
      have hne : b ≠ d := fun heq => by
        subst heq
        omega
      have hapart := hI.apart hb hd hne
      exact hc b hb d hd (by omega)
    have hall : ∀ d ∈ fs, d = b := fun d hd => by
      by_contra hne
      have hapart := hI.apart hd hb hne
      have hin := hinside d hd
      have hpos := hI.bounds_free hd
      omega
    refine .inr ⟨?_, ?_, ?_⟩
    · obtain ⟨as, rfl, -⟩ := hI.chain.cons_of_ne (fun h0 => by
        have hC := hI.chain
        rw [h0] at hC
        rw [hC.nil_of_zero] at hb
        exact absurd hb (by simp))
      rw [← hfirst]
      exact hall _ (by simp)
    · rw [← hfirst]
      exact hI.free b hb
    · rw [← hfirst]
      omega
  · exact .inl (by omega)

-- ---------------------------------------------------------------------------
-- Runs
-- ---------------------------------------------------------------------------

/-- Whatever the call releases has no free block beside it at that moment. -/
def HeapLedger.FreesAlone (g : HeapLedger) : HeapOp → Prop
  | .kmalloc _ => True
  | .kcalloc _ _ => True
  | .krealloc ptr size => ptr ≠ 0 →
      if size = 0 then Alone g.heap ptr
      else if add heapBlockSize size ≤ (g.heap.hdr (blockOf ptr)).size then True
      else ∀ h' newPtr, kmalloc g.heap size = some (h', newPtr) → newPtr ≠ 0 → Alone h' ptr
  | .kfree ptr => ptr ≠ 0 → Alone g.heap ptr

def HeapLedger.AllowedAlone (g : HeapLedger) (op : HeapOp) : Prop :=
  g.Allowed NoWrap op ∧ g.FreesAlone op

theorem kmalloc_coalesced (hc : Coalesced h) (hI : Intact h U fs) {size : Nat}
    (hw : NoWrap h size) {ptr : Nat} (hk : kmalloc h size = some (h', ptr)) : Coalesced h' := by
  obtain ⟨h₁, ptr₁, U₁, fs₁, hk₁, hI₁, -, hP⟩ := kmalloc_parts hI hw
  obtain ⟨rfl, rfl⟩ : h₁ = h' ∧ ptr₁ = ptr := by simpa using hk₁.symm.trans hk
  exact hc.alloc hI hI₁ hP

theorem kcalloc_coalesced (hc : Coalesced h) (hI : Intact h U fs) {count size : Nat}
    (hw : count * size < 2 ^ 64 → NoWrap h (count * size)) {ptr : Nat}
    (hk : kcalloc h count size = some (h', ptr)) : Coalesced h' := by
  unfold kcalloc at hk
  split at hk
  · obtain ⟨rfl, rfl⟩ : h = h' ∧ 0 = ptr := by simpa using hk
    exact hc
  next hov =>
  have hlt := mul_lt_of_not_overflow hov
  rw [mul_of_lt hlt] at hk
  obtain ⟨h₁, ptr₁, U₁, fs₁, hk₁, hI₁, -, hP⟩ := kmalloc_parts hI (hw hlt)
  simp only [hk₁, Option.some.injEq, Prod.mk.injEq] at hk
  obtain ⟨rfl, rfl⟩ := hk
  have h₁c := hc.alloc hI hI₁ hP
  split
  · exact h₁c
  · exact h₁c

theorem krealloc_coalesced (hc : Coalesced h) (hI : Intact h U fs) {b size : Nat} (hb : b ∈ U)
    (hw : NoWrap h size) {ptr : Nat} (hk : krealloc h (b + 24) size = some (h', ptr))
    (hzero : size = 0 → Alone h (b + 24))
    (hmove : ∀ h₁ p, ¬ add heapBlockSize size ≤ (h.hdr b).size → kmalloc h size = some (h₁, p) →
      p ≠ 0 → Alone h₁ (b + 24)) : Coalesced h' := by
  unfold krealloc at hk
  rw [if_neg (by omega), blockOf_add hI hb] at hk
  split at hk
  · next h0 =>
    obtain ⟨rfl, rfl⟩ : kfree h (b + 24) = h' ∧ 0 = ptr := by simpa using hk
    exact (kfree_coalesced_iff hI hc hb).mpr (hzero h0)
  dsimp only at hk
  split at hk
  · obtain ⟨rfl, rfl⟩ : h = h' ∧ b + 24 = ptr := by simpa using hk
    exact hc
  next hgrow =>
  obtain ⟨h₁, ptr₁, U₁, fs₁, hk₁, hI₁, hA, hP⟩ := kmalloc_parts hI hw
  have h₁c := hc.alloc hI hI₁ hP
  simp only [hk₁] at hk
  split at hk
  · next hptr =>
    obtain ⟨rfl, rfl⟩ := by simpa only [Option.some.injEq, Prod.mk.injEq] using hk
    have hbU : b ∈ U₁ := by
      rcases hA with ⟨-, rfl⟩ | ⟨c, -, -, rfl⟩
      · exact hb
      · exact Finset.mem_insert_of_mem hb
    exact (kfree_coalesced_iff (hI₁.with_mem
      (memCopy h₁ ptr₁ (b + 24) (sub (h₁.hdr b).size heapBlockSize)).mem) h₁c hbU).mpr
        (hmove h₁ ptr₁ hgrow hk₁ hptr)
  · obtain ⟨rfl, rfl⟩ := by simpa only [Option.some.injEq, Prod.mk.injEq] using hk
    exact h₁c

theorem HeapLedger.coalesced_step (g g' : HeapLedger) (op : HeapOp) (hI : g.Intact)
    (hc : Coalesced g.heap) (hok : g.AllowedAlone op) (hstep : g.step op = some g') :
    Coalesced g'.heap := by
  obtain ⟨U, fs, hI, hlive⟩ := hI
  obtain ⟨hok, halone⟩ := hok
  have hmem : ∀ ptr, ptr ∈ g.live → ∃ b ∈ U, ptr = b + 24 := by
    intro ptr hp
    rw [hlive, Finset.mem_image] at hp
    obtain ⟨b, hb, rfl⟩ := hp
    exact ⟨b, hb, rfl⟩
  cases op with
  | kmalloc size =>
    obtain ⟨⟨h', ptr⟩, hk, rfl⟩ := Option.map_eq_some_iff.mp hstep
    exact kmalloc_coalesced hc hI hok hk
  | kcalloc count size =>
    obtain ⟨⟨h', ptr⟩, hk, rfl⟩ := Option.map_eq_some_iff.mp hstep
    exact kcalloc_coalesced hc hI hok hk
  | krealloc ptr size =>
    obtain ⟨⟨h', ptr'⟩, hk, rfl⟩ := Option.map_eq_some_iff.mp hstep
    have hheap : Coalesced h' := by
      obtain ⟨hptr, hw⟩ := hok
      rcases Nat.eq_zero_or_pos ptr with rfl | hpos
      · rw [krealloc, if_pos rfl] at hk
        exact kmalloc_coalesced hc hI hw hk
      · obtain ⟨b, hb, rfl⟩ := hmem ptr (hptr.resolve_left (by omega))
        have hal := halone (by omega)
        refine krealloc_coalesced hc hI hb hw hk (fun h0 => by rwa [if_pos h0] at hal) ?_
        intro h₁ p hgrow hk₁ hp
        by_cases h0 : size = 0
        · subst h0
          rw [kmalloc, if_pos rfl] at hk₁
          obtain ⟨rfl, rfl⟩ : g.heap = h₁ ∧ 0 = p := by simpa using hk₁
          exact absurd rfl hp
        · rw [if_neg h0, blockOf_add hI hb, if_neg hgrow] at hal
          exact hal h₁ p hk₁ hp
    dsimp only
    split <;> exact hheap
  | kfree ptr =>
    obtain rfl : _ = g' := Option.some.inj hstep
    rcases Nat.eq_zero_or_pos ptr with rfl | hpos
    · exact hc
    · obtain ⟨b, hb, rfl⟩ := hmem ptr (hok.resolve_left (by omega))
      exact (kfree_coalesced_iff hI hc hb).mpr (halone (by omega))

theorem HeapLedger.coalesced_init (h : Heap) (p : Pmm) (tsc : BitVec 64) :
    Coalesced (HeapLedger.init h p tsc).heap := by
  rintro b c ⟨fs, hC, hb⟩ -
  rw [Chain.nil_of_zero hC] at hb
  exact absurd hb (by simp)

/--
**Coalescing over runs.** After every run of `kmalloc`, `kcalloc`, `krealloc` and `kfree` from
`heap_init` in which no request wraps `heap_next` around and every block that is released has
no free block beside it, no two free blocks touch, and if everything was given back the heap
is one free block.
-/
theorem heap_coalesced (h : Heap) (p : Pmm) (tsc : BitVec 64) (ops : List HeapOp)
    (hOps : Run.AllowedOption HeapLedger.step HeapLedger.AllowedAlone
      (HeapLedger.init h p tsc) ops) :
    ∃ g, Run.runOption HeapLedger.step (HeapLedger.init h p tsc) ops = some g ∧
      Coalesced g.heap ∧ (g.live = ∅ → WholeFree g.heap) := by
  obtain ⟨g, hg, hI, hc⟩ := Run.inv_runOption (I := fun g => g.Intact ∧ Coalesced g.heap)
    (fun g op hI hok => by
      obtain ⟨g', hg', hI'⟩ := HeapLedger.intact_step g op hI.1 hok.1
      exact ⟨g', hg', hI', g.coalesced_step g' op hI.1 hI.2 hok hg'⟩) ops
    (HeapLedger.init h p tsc) ⟨HeapLedger.intact_init h p tsc, HeapLedger.coalesced_init h p tsc⟩
    hOps
  refine ⟨g, hg, hc, fun hnone => ?_⟩
  obtain ⟨U, fs, hI, hlive⟩ := hI
  obtain rfl : U = ∅ := by simpa [hlive] using hnone
  exact hc.whole hI

theorem heap_coalesced_one_block :
    ∃ g, Run.runOption HeapLedger.step coldStart [.kmalloc 100, .kfree 0x4000018] = some g ∧
      Coalesced g.heap ∧ (g.live = ∅ → WholeFree g.heap) := by
  have hfacts : (Run.runOption HeapLedger.step coldStart [.kmalloc 100]).map
      (fun g => (g.live, g.heap.freeList)) = some ({0x4000018}, 0) := by
    decide
  refine heap_coalesced coldHeap (pmmInit smallLayout []) 0 _ ⟨⟨?_, trivial⟩, fun s hs => ?_⟩
  · show NoWrap coldStart.heap 100
    unfold NoWrap
    decide
  have hs' : coldStart.step (.kmalloc 100) = some s := hs
  simp only [Run.runOption, hs', Option.bind_some, Option.map_some, Option.some.injEq,
    Prod.mk.injEq] at hfacts
  refine ⟨⟨Or.inr (by rw [hfacts.1]; simp), fun _ c hc => ?_⟩, fun _ _ => trivial⟩
  obtain ⟨fs, hC, hcf⟩ := hc
  rw [hfacts.2] at hC
  rw [hC.nil_of_zero] at hcf
  exact absurd hcf (by simp)

/-- Two blocks side by side, both released: they stay two blocks. -/
theorem heap_never_merges :
    ∃ g, Run.runOption HeapLedger.step coldStart
        [.kmalloc 16, .kmalloc 16, .kfree 0x4000018, .kfree 0x4000040] = some g ∧
      g.live = ∅ ∧ ¬ Coalesced g.heap ∧ ¬ WholeFree g.heap := by
  have hrun : ∃ g, Run.runOption HeapLedger.step coldStart
      [.kmalloc 16, .kmalloc 16, .kfree 0x4000018, .kfree 0x4000040] = some g :=
    Option.isSome_iff_exists.mp (by decide)
  obtain ⟨g, hg⟩ := hrun
  have hfacts : (Run.runOption HeapLedger.step coldStart
      [.kmalloc 16, .kmalloc 16, .kfree 0x4000018, .kfree 0x4000040]).map
      (fun g => (g.live, g.heap.freeList, g.heap.heapNext, g.heap.kernelHeapStart)) =
      some (∅, 0x4000028, 0x4000050, 0x4000000) := by
    decide
  have hblocks : (Run.runOption HeapLedger.step coldStart
      [.kmalloc 16, .kmalloc 16, .kfree 0x4000018, .kfree 0x4000040]).map
      (fun g => (g.heap.hdr 0x4000028, g.heap.hdr 0x4000000)) =
      some (⟨40, 0x4000000, true⟩, ⟨40, 0, true⟩) := by
    decide
  rw [hg] at hfacts hblocks
  simp only [Option.map_some, Option.some.injEq, Prod.mk.injEq] at hfacts hblocks
  obtain ⟨hlive, hlist, hnext, hstart⟩ := hfacts
  have hchain : Chain (blockNext g.heap) g.heap.freeList [0x4000028, 0x4000000] := by
    refine ⟨hlist, by decide, ?_, by decide, ?_⟩
    · rw [blockNext, hblocks.1]
    · rw [blockNext, hblocks.2]
      rfl
  refine ⟨g, hg, hlive, fun hc => ?_, fun hw => ?_⟩
  · refine hc 0x4000000 0x4000028 ⟨_, hchain, by simp⟩ ⟨_, hchain, by simp⟩ ?_
    rw [hblocks.2]
    rfl
  · rcases hw with hw | ⟨hw, -⟩
    · rw [hnext, hstart] at hw
      exact absurd hw (by decide)
    · rw [hlist, hstart] at hw
      exact absurd hw (by decide)

end Lestra
