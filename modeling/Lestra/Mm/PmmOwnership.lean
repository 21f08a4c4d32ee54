import Mathlib.Order.Interval.Finset.Nat
import Lestra.Lib.Run
import Lestra.Mm.PmmInit

/-!
# Physical memory manager — who owns a frame

A `Ledger` is the allocator together with the bookkeeping its callers do in
their heads: the frames handed out and not yet freed, and the frames fenced off
by `pmm_mark_used` or `pmm_reserve_region`. Fencing off is not forever: it ends
when the frame's owner frees it, which is what happens to the page-table frames
that `deep_copy_user_pages` marks and `vmm_destroy_address_space` later frees.

* `pmm_frame_ownership` — along every run in which callers free only what they
  own, both searches grant only frames nobody owns or fenced off, and refuse
  only when there is no suitable run.
* `pmm_freed_mark_is_granted` — a frame that was marked and then freed by its
  owner is granted again.
-/

namespace Lestra

open Word64 RunScan

-- ---------------------------------------------------------------------------
-- Operations and the ledger
-- ---------------------------------------------------------------------------

/-- A call into the allocator. -/
inductive PmmOp where
  | allocPage
  | allocPages (count : Nat)
  | freePage (addr : Nat)
  | freePages (addr count : Nat)
  | markUsed (phys : Nat)
  | reserveRegion (start fin : Nat)
deriving DecidableEq, Repr

/-- The allocator after one call. -/
def pmmStep (p : Pmm) : PmmOp → Pmm
  | .allocPage => (pmmAllocPage p).1
  | .allocPages count => (pmmAllocPages p count).1
  | .freePage addr => pmmFreePage p addr
  | .freePages addr count => pmmFreePages p addr count
  | .markUsed phys => pmmMarkUsed p phys
  | .reserveRegion start fin => pmmReserveRegion p start fin

/-- The allocator and what its callers know about its frames. `marked` is the
history of every mark and reservation; `fenced` forgets a frame when its owner
frees it. -/
structure Ledger where
  pmm : Pmm
  handed : Finset Nat
  fenced : Finset Nat
  marked : Finset Nat

/-- The frames with a byte in `[start, end)`. -/
def regionFrames (start fin : Nat) : Finset Nat :=
  if start < fin then Finset.Ico (start / 4096) ((fin + 4095) / 4096) else ∅

/-- The frames of an allocation result. -/
def grantFrames (addr count : Nat) : Finset Nat :=
  if addr = 0 then ∅ else Finset.Ico (addr / 4096) (addr / 4096 + count)

def Ledger.init (L : Layout) (mmap : List MmapEntry) : Ledger :=
  { pmm := pmmInit L mmap, handed := ∅, fenced := ∅, marked := ∅ }

def Ledger.step (g : Ledger) (op : PmmOp) : Ledger :=
  let pmm := pmmStep g.pmm op
  match op with
  | .allocPage => { g with pmm, handed := g.handed ∪ grantFrames (pmmAllocPage g.pmm).2 1 }
  | .allocPages count =>
    { g with pmm, handed := g.handed ∪ grantFrames (pmmAllocPages g.pmm count).2 count }
  | .freePage addr =>
    { g with pmm, handed := g.handed.erase (addr / 4096), fenced := g.fenced.erase (addr / 4096) }
  | .freePages addr count =>
    let freed := Finset.Ico (addr / 4096) (addr / 4096 + count)
    { g with pmm, handed := g.handed \ freed, fenced := g.fenced \ freed }
  | .markUsed phys =>
    { g with
      pmm
      fenced := insert (phys / 4096) g.fenced
      marked := insert (phys / 4096) g.marked }
  | .reserveRegion start fin =>
    { g with
      pmm
      fenced := g.fenced ∪ regionFrames start fin
      marked := g.marked ∪ regionFrames start fin }

/-- Callers free only page-aligned frames they own, and reserve regions whose
end can be rounded up to a page in 64 bits. -/
def Ledger.Allowed (g : Ledger) : PmmOp → Prop
  | .freePage addr => addr % 4096 = 0 ∧ addr / 4096 ∈ g.handed
  | .freePages addr count => addr % 4096 = 0 ∧ ∀ i < count, addr / 4096 + i ∈ g.handed
  | .reserveRegion _ fin => fin + 4095 < 2 ^ 64
  | _ => True

-- ---------------------------------------------------------------------------
-- The invariant
-- ---------------------------------------------------------------------------

/-- Frame 0, the frames handed out and the frames fenced off are all marked in
the bitmap, and the frames handed out are managed frames other than 0. -/
structure Ledger.Owns (G : PmmGeometry) (g : Ledger) : Prop where
  geo : g.pmm.geo = G
  zero : bitmapTest g.pmm 0 = true
  handed : ∀ f ∈ g.handed, bitmapTest g.pmm f = true ∧ f < G.highestPfn ∧ f ≠ 0
  fenced : ∀ f ∈ g.fenced, bitmapTest g.pmm f = true

theorem Ledger.owns_init (L : Layout) (mmap : List MmapEntry) :
    (Ledger.init L mmap).Owns (pmmGeometry L mmap) where
  geo := pmmInit_geo L mmap
  zero := bitmapTest_pmmInit_zero L mmap
  handed := by simp [Ledger.init]
  fenced := by simp [Ledger.init]

/-- An operation that only marks frames keeps the invariant. -/
theorem Ledger.Owns.grow {G : PmmGeometry} {g g' : Ledger} (h : g.Owns G)
    (hgeo : g'.pmm.geo = g.pmm.geo)
    (hgrow : ∀ f, bitmapTest g.pmm f = true → bitmapTest g'.pmm f = true)
    (hhand : ∀ f ∈ g'.handed, f ∈ g.handed ∨
      (bitmapTest g'.pmm f = true ∧ f < G.highestPfn ∧ f ≠ 0))
    (hfence : ∀ f ∈ g'.fenced, f ∈ g.fenced ∨ bitmapTest g'.pmm f = true) : g'.Owns G where
  geo := hgeo.trans h.geo
  zero := hgrow 0 h.zero
  handed := by
    intro f hf
    rcases hhand f hf with hold | hnew
    · obtain ⟨hb, hlt, h0⟩ := h.handed f hold
      exact ⟨hgrow f hb, hlt, h0⟩
    · exact hnew
  fenced := by
    intro f hf
    rcases hfence f hf with hold | hnew
    · exact hgrow f (h.fenced f hold)
    · exact hnew

/-- An allocation grants managed frames other than 0 and marks them. -/
theorem grant_cases {G : PmmGeometry} {p : Pmm} (hG : G.Covers) (hgeo : p.geo = G)
    (h0 : bitmapTest p 0 = true) (n : Nat) :
    (pmmAllocPages p n).1.geo = G ∧
    (∀ f, bitmapTest p f = true → bitmapTest (pmmAllocPages p n).1 f = true) ∧
    (∀ f ∈ grantFrames (pmmAllocPages p n).2 n,
      bitmapTest (pmmAllocPages p n).1 f = true ∧ f < G.highestPfn ∧ f ≠ 0) := by
  subst hgeo
  rcases Nat.eq_zero_or_pos n with rfl | hn
  · exact ⟨rfl, fun f hf => hf, fun f hf => by simp [pmmAllocPages, grantFrames] at hf⟩
  rcases pmmAllocPages_spec hG (not_avail_of_test h0) hn with
    ⟨s, hs, hle, -, hr, hT⟩ | ⟨hr, hH, -⟩
  · refine ⟨hT.geo, fun f hf => hT.grows f (Or.inl hf), fun f hf => ?_⟩
    rw [hr, grantFrames, if_neg (by omega), Finset.mem_Ico] at hf
    exact ⟨hT.grows f (Or.inr (by omega)), by omega, by omega⟩
  · refine ⟨hH.balanced.geo, fun f hf => hH.grows hf, fun f hf => ?_⟩
    rw [hr] at hf
    simp [grantFrames] at hf

theorem Ledger.Owns.grant {G : PmmGeometry} {g : Ledger} (hG : G.Covers) (h : g.Owns G)
    (n : Nat) :
    ({ g with
        pmm := (pmmAllocPages g.pmm n).1
        handed := g.handed ∪ grantFrames (pmmAllocPages g.pmm n).2 n } : Ledger).Owns G := by
  obtain ⟨hgeo, hgrow, hnew⟩ := grant_cases hG h.geo h.zero n
  refine h.grow (hgeo.trans h.geo.symm) hgrow (fun f hf => ?_) (fun f hf => Or.inl hf)
  rcases Finset.mem_union.mp hf with hold | hf
  · exact Or.inl hold
  · exact Or.inr (hnew f hf)

/-- An operation that releases owned frames keeps the invariant, since the
ledger forgets them. -/
theorem Ledger.Owns.release {G : PmmGeometry} {g : Ledger} {q : Pmm} {S : Nat → Prop}
    {handed fenced : Finset Nat} (h : g.Owns G) (hS : ∀ f, S f → f ≠ 0)
    (hR : Releases S g.pmm q) (hhand : ∀ f ∈ handed, f ∈ g.handed ∧ ¬ S f)
    (hfence : ∀ f ∈ fenced, f ∈ g.fenced ∧ ¬ S f) :
    ({ g with pmm := q, handed := handed, fenced := fenced } : Ledger).Owns G where
  geo := hR.geo.trans h.geo
  zero := (hR.bits 0).mpr ⟨h.zero, fun hz => hS 0 hz.1 rfl⟩
  handed := by
    intro f hf
    obtain ⟨hold, hnot⟩ := hhand f hf
    obtain ⟨hb, hlt, h0⟩ := h.handed f hold
    exact ⟨(hR.bits f).mpr ⟨hb, fun hs => hnot hs.1⟩, hlt, h0⟩
  fenced := by
    intro f hf
    obtain ⟨hold, hnot⟩ := hfence f hf
    exact (hR.bits f).mpr ⟨h.fenced f hold, fun hs => hnot hs.1⟩

/-- The frames a caller frees with `pmm_free_pages` are released by it. -/
theorem pmmFreePages_releases {G : PmmGeometry} {g : Ledger} (hG : G.Covers) (h : g.Owns G)
    {addr count : Nat} (hal : addr % 4096 = 0)
    (hown : ∀ i < count, addr / 4096 + i ∈ g.handed) :
    Releases (fun f => addr / 4096 ≤ f ∧ f < addr / 4096 + count) g.pmm
      (pmmFreePages g.pmm addr count) := by
  unfold pmmFreePages
  rcases Nat.eq_zero_or_pos count with rfl | hc
  · rw [if_pos (Or.inr rfl)]
    exact Releases.of_empty fun f _ hf => by omega
  · have hpos : addr / 4096 ≠ 0 := (h.handed _ (hown 0 hc)).2.2
    have hhigh := (h.handed _ (hown (count - 1) (by omega))).2.1
    have haddr := hG.addr
    have hR := freePagesFrom_spec (f := addr / 4096) (by omega) count g.pmm 0 (by omega)
    rw [if_neg (by omega), ← show addr / 4096 * 4096 = addr by omega]
    rw [show addr / 4096 * 4096 / 4096 = addr / 4096 by omega]
    exact hR

theorem Ledger.owns_step {G : PmmGeometry} (hG : G.Covers) (g : Ledger) (op : PmmOp)
    (h : g.Owns G) (hok : g.Allowed op) : (g.step op).Owns G := by
  cases op with
  | allocPage => exact h.grant hG 1
  | allocPages count => exact h.grant hG count
  | freePage addr =>
    obtain ⟨hal, hown⟩ := hok
    have h0 := (h.handed _ hown).2.2
    refine h.release (S := fun f => f = addr / 4096 ∧ addr ≠ 0) (fun f hf => ?_)
      (pmmFreePage_spec g.pmm addr) (fun f hf => ?_) (fun f hf => ?_)
    · rw [hf.1]
      exact h0
    · exact ⟨Finset.mem_of_mem_erase hf, fun hs => Finset.ne_of_mem_erase hf hs.1⟩
    · exact ⟨Finset.mem_of_mem_erase hf, fun hs => Finset.ne_of_mem_erase hf hs.1⟩
  | freePages addr count =>
    obtain ⟨hal, hown⟩ := hok
    refine h.release (S := fun f => addr / 4096 ≤ f ∧ f < addr / 4096 + count) (fun f hf => ?_)
      (pmmFreePages_releases hG h hal hown) (fun f hf => ?_) (fun f hf => ?_)
    · have := hown (f - addr / 4096) (by omega)
      rw [show addr / 4096 + (f - addr / 4096) = f by omega] at this
      exact (h.handed f this).2.2
    · rw [Finset.mem_sdiff, Finset.mem_Ico] at hf
      exact hf
    · rw [Finset.mem_sdiff, Finset.mem_Ico] at hf
      exact hf
  | markUsed phys =>
    obtain ⟨hB, hbits, -⟩ := pmmMarkUsed_spec g.pmm phys
    refine h.grow hB.geo (fun f hf => (hbits f).mpr (Or.inl hf)) (fun f hf => Or.inl hf)
      (fun f hf => ?_)
    rcases Finset.mem_insert.mp hf with hnew | hold
    · exact Or.inr ((hbits f).mpr (Or.inr hnew))
    · exact Or.inl hold
  | reserveRegion start fin =>
    have hM := markRegion_spec g.pmm start fin
    refine h.grow hM.geo (fun f hf => (hM.bits f).mpr (Or.inl hf)) (fun f hf => Or.inl hf)
      (fun f hf => ?_)
    rcases Finset.mem_union.mp hf with hold | hnew
    · exact Or.inl hold
    · right
      unfold regionFrames at hnew
      split at hnew
      · next hlt =>
        rw [Finset.mem_Ico] at hnew
        rcases Nat.lt_or_ge f g.pmm.geo.highestPfn with hf | hf
        · refine (hM.bits f).mpr (Or.inr ⟨⟨hlt, hnew.1, ?_⟩, hf⟩)
          have hok : fin + 4095 < 2 ^ 64 := hok
          rw [alignUp_of_lt (by rw [pageSize_eq]; omega), pageSize_eq]
          omega
        · exact bitmapTest_of_le (hM.geo.symm ▸ hf)
      · simp at hnew

-- ---------------------------------------------------------------------------
-- What an allocation grants
-- ---------------------------------------------------------------------------

/-- The byte at `a` belongs to the kernel image, the bitmap or the refcount array. -/
def InMetadata (G : PmmGeometry) (a : Nat) : Prop :=
  (G.kernelStart ≤ a ∧ a < G.kernelEnd) ∨ (G.bitmapStart ≤ a ∧ a < G.bitmapEnd) ∨
    (G.refcountStart ≤ a ∧ a < G.refcountEnd)

theorem pmmIsProtected_eq_false {G : PmmGeometry} {a : Nat} :
    pmmIsProtected G a = false ↔ ¬ InMetadata G a := by
  unfold pmmIsProtected InMetadata
  split_ifs <;> simp_all

/-- The ranges are page-aligned, so a frame whose first byte is outside them
has no byte inside. -/
theorem frame_not_metadata {G : PmmGeometry} (hP : G.Placed) {f a : Nat}
    (hf : pmmIsProtected G (f * 4096) = false) (h1 : f * 4096 ≤ a) (h2 : a < (f + 1) * 4096) :
    ¬ InMetadata G a := by
  rw [pmmIsProtected_eq_false] at hf
  obtain ⟨hks, hke, hbs, ⟨hbe, -⟩, hrs, ⟨hre, -⟩⟩ := hP
  unfold InMetadata at *
  omega

/-- The result of asking for `n` frames in the state `g` is as it should be,
for `fence` the frames that count as reserved or marked. -/
structure GrantOk (g : Ledger) (fence : Finset Nat) (n : Nat) (res : Pmm × Nat) : Prop where
  granted : res.2 ≠ 0 → ∃ s, res.2 = s * 4096 ∧ 0 < n ∧ s + n ≤ g.pmm.geo.highestPfn ∧
    ∀ f, s ≤ f → f < s + n → f ≠ 0 ∧
      (∀ a, f * 4096 ≤ a → a < (f + 1) * 4096 → ¬ InMetadata g.pmm.geo a) ∧
      f ∉ fence ∧ f ∉ g.handed ∧ res.1.physRefcount f = 1
  refused : res.2 = 0 → 0 < n → ¬ ∃ s, s + n ≤ g.pmm.geo.highestPfn ∧
    ∀ f, s ≤ f → f < s + n →
      bitmapTest g.pmm f = false ∧ pmmIsProtected g.pmm.geo (f * 4096) = false

theorem Ledger.Owns.grantOk {G : PmmGeometry} (hG : G.Covers) (hP : G.Placed) {g : Ledger}
    (h : g.Owns G) (n : Nat) : GrantOk g g.fenced n (pmmAllocPages g.pmm n) := by
  have hgeo := h.geo
  subst hgeo
  rcases Nat.eq_zero_or_pos n with rfl | hn
  · exact ⟨fun hr => absurd rfl hr, fun _ h0 => absurd h0 (by omega)⟩
  rcases pmmAllocPages_spec hG (not_avail_of_test h.zero) hn with
    ⟨s, hs, hle, -, hr, hT⟩ | ⟨hr, -, hNone⟩
  · refine ⟨fun _ => ⟨s, hr, hn, hle, fun f h1 h2 => ?_⟩, fun hr' => by omega⟩
    have hA : Avail g.pmm f := by
      rw [show f = s + (f - s) by omega]
      exact hT.run (f - s) (by omega)
    have hclear : ¬ bitmapTest g.pmm f = true := by simp [hA.1]
    have hprot : pmmIsProtected g.pmm.geo (f * 4096) = false := by
      rw [← pfn_mul_pageSize hG hA.lt]
      exact hA.2
    refine ⟨by omega, fun a => frame_not_metadata hP hprot, ?_, ?_, ?_⟩
    · exact fun hf => hclear (h.fenced f hf)
    · exact fun hf => hclear (h.handed f hf).1
    · rw [hT.refcount, if_pos ⟨h1, h2⟩]
  · refine ⟨fun hr' => absurd hr hr', fun _ _ => ?_⟩
    rintro ⟨s, hle, hrun⟩
    refine hNone s fun i hi => ?_
    obtain ⟨hclear, hprot⟩ := hrun (s + i) (by omega) (by omega)
    refine ⟨hclear, ?_⟩
    rw [pfn_mul_pageSize hG (by omega)]
    exact hprot

/--
**Physical frame ownership.** After every run from `pmm_init` in which callers
free only page-aligned frames they own and reserve only regions whose end can
be rounded up, whatever `pmm_alloc_page` and `pmm_alloc_pages(n)` return next is
a contiguous run of managed frames, none of them frame 0, metadata, owned by
someone, or marked or reserved since it was last freed, each with reference
count 1; and for `n > 0` they return 0 only if no run of `n` clear, unprotected
frames exists.
-/
theorem pmm_frame_ownership (L : Layout) (mmap : List MmapEntry)
    (hBits : (pmmGeometry L mmap).highestPfn ≤ 8 * (pmmGeometry L mmap).bitmapSize)
    (ops : List PmmOp)
    (hOps : Run.Allowed Ledger.step Ledger.Allowed (Ledger.init L mmap) ops) :
    let g := Run.run Ledger.step (Ledger.init L mmap) ops
    GrantOk g g.fenced 1 (pmmAllocPage g.pmm) ∧
      ∀ n, GrantOk g g.fenced n (pmmAllocPages g.pmm n) := by
  intro g
  have hG := pmmGeometry_covers hBits
  have hOwns : g.Owns (pmmGeometry L mmap) :=
    Run.inv_run (I := Ledger.Owns (pmmGeometry L mmap)) (Ledger.owns_step hG) ops
      (Ledger.init L mmap) (Ledger.owns_init L mmap) hOps
  have hP := pmmGeometry_placed L mmap
  exact ⟨hOwns.grantOk hG hP 1, hOwns.grantOk hG hP⟩

theorem smallEnd_aligned : 0x200000 % 4096 = 0 := by decide

theorem start_le_smallEnd : 0x100000 ≤ 0x200000 := by decide

theorem smallEnd_le : 0x200000 ≤ 2 ^ 32 := by decide

/-- A kernel image of 1 MiB. -/
def smallLayout : Layout where
  kernelEnd := 0x200000
  aligned := smallEnd_aligned
  start_le := start_le_smallEnd
  end_le := smallEnd_le

theorem pmm_frame_ownership_small :
    let g := Run.run Ledger.step (Ledger.init smallLayout [⟨0, 0x10000, 1⟩])
      [.allocPage, .markUsed 0x2000]
    GrantOk g g.fenced 1 (pmmAllocPage g.pmm) ∧
      ∀ n, GrantOk g g.fenced n (pmmAllocPages g.pmm n) :=
  pmm_frame_ownership smallLayout [⟨0, 0x10000, 1⟩] (by decide) [.allocPage, .markUsed 0x2000]
    ⟨trivial, trivial, trivial⟩

/-- Fencing off ends with the free: frame 1 is allocated, marked with
`pmm_mark_used` and freed by its owner, and the next allocation grants it
although it lies in a marked range. -/
theorem pmm_freed_mark_is_granted :
    let ops := [.allocPage, .markUsed 0x1000, .freePage 0x1000]
    let g := Run.run Ledger.step (Ledger.init smallLayout [⟨0, 0x10000, 1⟩]) ops
    Run.Allowed Ledger.step Ledger.Allowed (Ledger.init smallLayout [⟨0, 0x10000, 1⟩]) ops ∧
      ¬ GrantOk g g.marked 1 (pmmAllocPage g.pmm) := by
  refine ⟨⟨trivial, trivial, ⟨by decide, by decide⟩, trivial⟩, fun h => ?_⟩
  have hr : (pmmAllocPage (Run.run Ledger.step (Ledger.init smallLayout [⟨0, 0x10000, 1⟩])
      [.allocPage, .markUsed 0x1000, .freePage 0x1000]).pmm).2 = 0x1000 := by decide
  obtain ⟨s, hs, -, -, hall⟩ := h.granted (by rw [hr]; decide)
  have hs1 : s = 1 := by omega
  subst hs1
  exact (hall 1 (by omega) (by omega)).2.2.1 (by decide)

end Lestra
