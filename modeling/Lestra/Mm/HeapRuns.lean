import Mathlib.Order.Interval.Finset.Nat
import Lestra.Lib.Run
import Lestra.Mm.HeapIntegrity
import Lestra.Mm.PmmOwnership

/-!
# Kernel heap — runs

A `HeapLedger` is the heap together with the pointers its callers hold. The
side conditions on a call are those of its callers: only live pointers are
given back, and the requested size leaves room for the header and the
rounding.

* `heap_integrity` — along every run in which no request wraps `heap_next`
  around, every call returns and the heap stays tiled, with disjoint payloads
  and a free list that holds exactly the free blocks.
* `kmalloc_wrap_breaks_heap` — a request that passes the callers' condition but
  wraps `heap_next` is granted.
-/

namespace Lestra

open Word64 Tiling LinkedList

-- ---------------------------------------------------------------------------
-- Runs
-- ---------------------------------------------------------------------------

/-- A call into the heap. -/
inductive HeapOp where
  | kmalloc (size : Nat)
  | kcalloc (count size : Nat)
  | krealloc (ptr size : Nat)
  | kfree (ptr : Nat)
deriving DecidableEq, Repr

/-- The heap and the pointers its callers hold: returned and not given back. -/
structure HeapLedger where
  heap : Heap
  live : Finset Nat

def HeapLedger.init (h : Heap) (p : Pmm) (tsc : BitVec 64) : HeapLedger :=
  { heap := (heapInit h p tsc).1, live := ∅ }

/-- The ledger after an allocation call returned `ptr`. -/
def HeapLedger.grant (live : Finset Nat) (res : Heap × Nat) : HeapLedger :=
  { heap := res.1, live := if res.2 = 0 then live else insert res.2 live }

/-- One call; `none` if it never returns. -/
def HeapLedger.step (g : HeapLedger) : HeapOp → Option HeapLedger
  | .kmalloc size => (kmalloc g.heap size).map (HeapLedger.grant g.live)
  | .kcalloc count size => (kcalloc g.heap count size).map (HeapLedger.grant g.live)
  | .krealloc ptr size => (krealloc g.heap ptr size).map fun res =>
      if res.2 = 0 ∧ size ≠ 0 then { heap := res.1, live := g.live }
      else HeapLedger.grant (g.live.erase ptr) res
  | .kfree ptr => some { heap := kfree g.heap ptr, live := g.live.erase ptr }

/-- The side conditions on a call, for `fits` the condition on a requested size:
only live pointers, or null, are given back. -/
def HeapLedger.Allowed (fits : Heap → Nat → Prop) (g : HeapLedger) : HeapOp → Prop
  | .kmalloc size => fits g.heap size
  | .kcalloc count size => count * size < 2 ^ 64 → fits g.heap (count * size)
  | .krealloc ptr size => (ptr = 0 ∨ ptr ∈ g.live) ∧ fits g.heap size
  | .kfree ptr => ptr = 0 ∨ ptr ∈ g.live

/-- The live pointers are the payload addresses of the used blocks of an intact heap. -/
def HeapLedger.Intact (g : HeapLedger) : Prop :=
  ∃ U fs, Lestra.Intact g.heap U fs ∧ g.live = U.image (· + 24)

theorem heapSlide_lt (tsc : BitVec 64) : heapSlide tsc < kaslrHeapRange := by
  unfold heapSlide
  rw [BitVec.toNat_and, BitVec.toNat_and]
  refine Nat.lt_of_le_of_lt (Nat.and_le_left.trans Nat.and_le_right) ?_
  decide

theorem heapInit_intact (h : Heap) (p : Pmm) (tsc : BitVec 64) :
    Lestra.Intact (heapInit h p tsc).1 ∅ [] := by
  have hs := heapSlide_lt tsc
  simp only [kaslrHeapRange] at hs
  refine
    { tiles := tiles_empty _ _, header := by simp, used := by simp, free := by simp, chain := rfl,
      nodup := List.nodup_nil, start_pos := ?_, next_le := ?_, end_le := ?_ } <;>
    simp only [heapInit, kaslrHeapMin, kernelHeapSize] <;> omega

theorem HeapLedger.intact_init (h : Heap) (p : Pmm) (tsc : BitVec 64) :
    (HeapLedger.init h p tsc).Intact :=
  ⟨∅, [], heapInit_intact h p tsc, rfl⟩

/-- The ledger follows an allocation. -/
theorem HeapLedger.intact_grant {h' : Heap} {U U' : Finset Nat} {fs' : List Nat} {ptr : Nat}
    (hI : Lestra.Intact h' U' fs') (hA : Allocates U U' ptr) :
    (HeapLedger.grant (U.image (· + 24)) (h', ptr)).Intact := by
  refine ⟨U', fs', hI, ?_⟩
  rcases hA with ⟨rfl, rfl⟩ | ⟨b, -, rfl, rfl⟩
  · simp [HeapLedger.grant]
  · simp [HeapLedger.grant, Finset.image_insert]

theorem HeapLedger.intact_step (g : HeapLedger) (op : HeapOp) (hI : g.Intact)
    (hok : g.Allowed NoWrap op) : ∃ g', g.step op = some g' ∧ g'.Intact := by
  obtain ⟨U, fs, hI, hlive⟩ := hI
  have hinj : Function.Injective (· + 24 : Nat → Nat) := add_left_injective 24
  have hmem : ∀ ptr, ptr ∈ g.live → ∃ b ∈ U, ptr = b + 24 := by
    intro ptr hp
    rw [hlive, Finset.mem_image] at hp
    obtain ⟨b, hb, rfl⟩ := hp
    exact ⟨b, hb, rfl⟩
  cases op with
  | kmalloc size =>
    obtain ⟨h', ptr, U', fs', hk, hI', hA⟩ := kmalloc_spec hI hok
    refine ⟨_, by rw [HeapLedger.step, hk]; rfl, ?_⟩
    rw [hlive]
    exact HeapLedger.intact_grant hI' hA
  | kcalloc count size =>
    obtain ⟨h', ptr, U', fs', hk, hI', hA⟩ := kcalloc_spec hI hok
    refine ⟨_, by rw [HeapLedger.step, hk]; rfl, ?_⟩
    rw [hlive]
    exact HeapLedger.intact_grant hI' hA
  | krealloc ptr size =>
    obtain ⟨hptr, hw⟩ := hok
    have h0 : (0 : Nat) ∉ g.live := by
      intro h0
      obtain ⟨b, -, hb⟩ := hmem 0 h0
      omega
    rcases hptr with rfl | hptr
    · obtain ⟨h', ptr, U', fs', hk, hI', hA⟩ := kmalloc_spec hI hw
      have hk' : krealloc g.heap 0 size = some (h', ptr) := by
        rw [krealloc, if_pos rfl, hk]
      refine ⟨_, by rw [HeapLedger.step, hk']; rfl, ?_⟩
      have hG := HeapLedger.intact_grant hI' hA
      rw [← hlive] at hG
      rw [Finset.erase_eq_of_notMem h0]
      dsimp only
      split
      · next hz =>
        simpa [HeapLedger.grant, hz.1] using hG
      · exact hG
    · obtain ⟨b, hb, rfl⟩ := hmem ptr hptr
      obtain ⟨h', ptr, U', fs', hk, hI', hA⟩ := krealloc_spec hI hb hw
      refine ⟨_, by rw [HeapLedger.step, hk]; rfl, U', fs', ?_, ?_⟩
      · dsimp only
        split <;> exact hI'
      · rcases hA with ⟨rfl, rfl⟩ | ⟨c, rfl, rfl⟩
        · by_cases hz : size = 0
          · simp [hz, HeapLedger.grant, hlive, Finset.image_erase hinj]
          · simp [hz, hlive]
        · simp [HeapLedger.grant, hlive, Finset.image_insert, Finset.image_erase hinj]
  | kfree ptr =>
    rcases hok with rfl | hptr
    · refine ⟨_, rfl, U, fs, hI, ?_⟩
      rw [Finset.erase_eq_of_notMem, hlive]
      intro h0
      obtain ⟨b, -, hb⟩ := hmem 0 h0
      omega
    · obtain ⟨b, hb, rfl⟩ := hmem ptr hptr
      refine ⟨_, rfl, U.erase b, b :: fs, hI.free_used hb, ?_⟩
      rw [hlive, Finset.image_erase hinj]

-- ---------------------------------------------------------------------------
-- Integrity
-- ---------------------------------------------------------------------------

/-- The bytes behind a pointer returned by `kmalloc`. -/
def payload (h : Heap) (ptr : Nat) : Finset Nat := Finset.Ico ptr (ptr + ksize h ptr)

/-- The headers tile the heap up to `heap_next`, the live pointers are the
blocks in use, their payloads are disjoint, and the free list ends and visits
each block marked free once. -/
def HeapIntegrity (h : Heap) (live : Finset Nat) : Prop :=
  ∃ B : Finset Nat, Tiles (blockBytes h) B h.kernelHeapStart h.heapNext ∧
    (∀ p, p ∈ live ↔ ∃ b ∈ B, (h.hdr b).free = false ∧ p = b + heapBlockSize) ∧
    (∀ p ∈ live, ∀ q ∈ live, p ≠ q → Disjoint (payload h p) (payload h q)) ∧
    ∃ fs, Chain (blockNext h) h.freeList fs ∧ fs.Nodup ∧
      ∀ b, b ∈ fs ↔ b ∈ B ∧ (h.hdr b).free = true

theorem ksize_used {h : Heap} {U : Finset Nat} {fs : List Nat} (hI : Intact h U fs) {b : Nat}
    (hb : b ∈ U) : ksize h (b + 24) = (h.hdr b).size - 24 := by
  obtain ⟨hb0, hbs, hbn, hnx⟩ := hI.bounds_used hb
  have hblock : blockOf (b + 24) = b := by
    rw [blockOf, sub_of_le (by omega) (by simp)]
    rfl
  rw [ksize, if_neg (by omega), hblock, heapBlockSize_eq]
  exact sub_of_le (by omega) (by omega)

theorem HeapLedger.Intact.integrity {g : HeapLedger} (hg : g.Intact) :
    HeapIntegrity g.heap g.live := by
  obtain ⟨U, fs, hI, hlive⟩ := hg
  refine ⟨U ∪ fs.toFinset, hI.tiles, fun p => ?_, fun p hp q hq hpq => ?_,
    fs, hI.chain, hI.nodup, fun b => ?_⟩
  · rw [hlive, Finset.mem_image]
    constructor
    · rintro ⟨b, hb, rfl⟩
      exact ⟨b, Finset.mem_union_left _ hb, (hI.used b hb).1, rfl⟩
    · rintro ⟨b, hb, hfree, rfl⟩
      rcases Finset.mem_union.mp hb with hb | hb
      · exact ⟨b, hb, rfl⟩
      · rw [hI.free b (List.mem_toFinset.mp hb)] at hfree
        exact absurd hfree (by simp)
  · rw [hlive, Finset.mem_image] at hp hq
    obtain ⟨b, hb, rfl⟩ := hp
    obtain ⟨c, hc, rfl⟩ := hq
    have hbc : b ≠ c := by
      rintro rfl
      exact hpq rfl
    have hapart : b + (g.heap.hdr b).size ≤ c ∨ c + (g.heap.hdr c).size ≤ b :=
      hI.tiles.apart b (Finset.mem_union_left _ hb) c (Finset.mem_union_left _ hc) hbc
    obtain ⟨-, hbs, -⟩ := hI.bounds_used hb
    obtain ⟨-, hcs, -⟩ := hI.bounds_used hc
    rw [payload, payload, ksize_used hI hb, ksize_used hI hc, Finset.disjoint_left]
    intro x hx hx'
    rw [Finset.mem_Ico] at hx hx'
    omega
  · constructor
    · intro hb
      exact ⟨Finset.mem_union_right _ (List.mem_toFinset.mpr hb), hI.free b hb⟩
    · rintro ⟨hb, hfree⟩
      rcases Finset.mem_union.mp hb with hb | hb
      · rw [(hI.used b hb).1] at hfree
        exact absurd hfree (by simp)
      · exact List.mem_toFinset.mp hb

/--
**Kernel heap integrity.** After every run of `kmalloc`, `kcalloc`, `krealloc`
and `kfree` from `heap_init` that gives back only live pointers and in which no
request wraps `heap_next` around, every call has returned, the block headers
tile `[kernel_heap_start, heap_next)`, the payloads of the live pointers are
disjoint, and the free list ends and visits exactly the free blocks.
-/
theorem heap_integrity (h : Heap) (p : Pmm) (tsc : BitVec 64) (ops : List HeapOp)
    (hOps : Run.AllowedOption HeapLedger.step (HeapLedger.Allowed NoWrap)
      (HeapLedger.init h p tsc) ops) :
    ∃ g, Run.runOption HeapLedger.step (HeapLedger.init h p tsc) ops = some g ∧
      HeapIntegrity g.heap g.live := by
  obtain ⟨g, hg, hI⟩ := Run.inv_runOption (I := HeapLedger.Intact) HeapLedger.intact_step ops
    (HeapLedger.init h p tsc) (HeapLedger.intact_init h p tsc) hOps
  exact ⟨g, hg, hI.integrity⟩

/-- A heap before `heap_init`. -/
def coldHeap : Heap where
  freeList := 0
  heapNext := 0x10000000
  kernelHeapStart := 0x10000000
  kernelHeapEnd := 0x30000000
  hdr := fun _ => ⟨0, 0, false⟩
  mem := fun _ => 0

/-- `heap_init` on a cold heap with the time-stamp counter at 0: the heap starts at 64 MiB. -/
def coldStart : HeapLedger :=
  HeapLedger.init coldHeap (pmmInit smallLayout []) 0

theorem heap_integrity_reuse :
    ∃ g, Run.runOption HeapLedger.step coldStart
        [.kmalloc 100, .kfree 0x4000018, .kmalloc 10] = some g ∧
      HeapIntegrity g.heap g.live := by
  have hlive : (Run.runOption HeapLedger.step coldStart [.kmalloc 100]).map HeapLedger.live =
      some {0x4000018} := by
    decide
  have hnext : (Run.runOption HeapLedger.step coldStart [.kmalloc 100, .kfree 0x4000018]).map
      (fun g => g.heap.heapNext) = some 0x4000088 := by
    decide
  refine heap_integrity coldHeap (pmmInit smallLayout []) 0 _ ⟨?_, fun s hs => ?_⟩
  · show NoWrap coldStart.heap 100
    unfold NoWrap
    decide
  have hs' : coldStart.step (.kmalloc 100) = some s := hs
  simp only [Run.runOption, hs', Option.bind_some, Option.map_some, Option.some.injEq] at hlive
  refine ⟨Or.inr (by rw [hlive]; simp), fun t ht => ⟨?_, fun _ _ => trivial⟩⟩
  simp only [Run.runOption, hs', ht, Option.bind_some, Option.map_some, Option.some.injEq] at hnext
  show NoWrap t.heap 10
  unfold NoWrap
  rw [hnext]
  decide

/-- The callers' condition on a size: it leaves room for the header and the rounding. -/
def SizeInRange (_ : Heap) (size : Nat) : Prop := size + heapBlockSize + 15 ≤ 2 ^ 64

/-- `heap_next + total` is computed in 64 bits: on a fresh heap a request of
2^64 - 48 bytes is granted, and `heap_next` moves back below the start of the
heap. -/
theorem kmalloc_wrap_breaks_heap :
    Run.AllowedOption HeapLedger.step (HeapLedger.Allowed SizeInRange) coldStart
        [.kmalloc (2 ^ 64 - 48)] ∧
      ∃ g, Run.runOption HeapLedger.step coldStart [.kmalloc (2 ^ 64 - 48)] = some g ∧
        ¬ HeapIntegrity g.heap g.live := by
  refine ⟨⟨by unfold HeapLedger.Allowed SizeInRange; decide, fun _ _ => trivial⟩, ?_⟩
  have hrun : ∃ g, Run.runOption HeapLedger.step coldStart [.kmalloc (2 ^ 64 - 48)] = some g :=
    Option.isSome_iff_exists.mp (by decide)
  obtain ⟨g, hg⟩ := hrun
  have hfacts : (Run.runOption HeapLedger.step coldStart [.kmalloc (2 ^ 64 - 48)]).map
      (fun g => (g.live, g.heap.heapNext)) = some ({0x4000018}, 0x3ffffe8) := by
    decide
  rw [hg] at hfacts
  simp only [Option.map_some, Option.some.injEq, Prod.mk.injEq] at hfacts
  refine ⟨g, hg, ?_⟩
  rintro ⟨B, hT, hlive, -⟩
  obtain ⟨b, hb, -, hp⟩ := (hlive 0x4000018).mp (by rw [hfacts.1]; simp)
  have hin := (hT.inside b hb).2
  rw [heapBlockSize_eq] at hp
  rw [hfacts.2] at hin
  omega

end Lestra
