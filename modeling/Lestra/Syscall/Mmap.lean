import Lestra.Exec.Futex
import Lestra.Mm.FaultLaw
import Lestra.Mm.VmmRange
import Lestra.Syscall.Brk

/-!
# Memory system calls — anonymous mappings

`sys_mmap` hands out ranges of addresses from a cursor that only moves up, and
maps a zeroed frame at every page of the range. The cursor moves before the first
frame is taken, and `vmm_map_page` does not report that it had no frame for a
table; `MmapAllowed` is what a call needs so that neither shows.
-/

namespace Lestra

open Word64 Radix

-- ---------------------------------------------------------------------------
-- The system call
-- ---------------------------------------------------------------------------

def mmapAnonymous : BitVec 32 := 0x20#32

/-- `MAP_FIXED` -/
def mapFixed : BitVec 32 := 0x10#32

def mmapRegionBase : BitVec 64 := 0x60000000#64

def mmapRegionEnd : BitVec 64 := 0x7FFFFFFFFFFF#64

/-- The first call places the cursor at a random page of a 1 MB window; `rnd` is
`csprng_u64()`. -/
def mmapInit (rnd : BitVec 64) (p : Process) : Process :=
  if p.mmapNextAddr = 0#64 then
    let slide := (rnd &&& 0xFF#64) <<< 12
    { p with mmapNextAddr := mmapRegionBase + slide }
  else p

/-- `mmap_alloc_vaddr`: the start of the range, or 0 if it leaves the region. -/
def mmapAllocVaddr (rnd : BitVec 64) (p : Process) (numPages : BitVec 64) :
    Process × BitVec 64 :=
  let p := mmapInit rnd p
  let start := p.mmapNextAddr
  let next := start + numPages * 0x1000#64
  if next > mmapRegionEnd ∨ next < start then (p, 0#64)
  else ({ p with mmapNextAddr := next }, start)

def mmapPageFlags (prot : BitVec 32) : BitVec 64 :=
  let flags := pagePresent ||| pageWritable ||| pageUser
  let flags := if prot &&& 2#32 = 0#32 then flags &&& ~~~pageWritable else flags
  if prot &&& 4#32 = 0#32 then flags ||| pageNx else flags

/-- One page of the rollback. -/
def rollbackPage (pml4 : Nat) (m : Machine) (va : BitVec 64) : Machine :=
  let phys := vmmGetPhys m pml4 va
  let m := if phys = 0#64 then m else { m with pmm := pmmFreePage m.pmm phys.toNat }
  vmmUnmapPage m pml4 va

/-- The loop of `sys_mmap`, at page `i` with `n` pages to go. -/
def mmapPages (pml4 : Nat) (vaddr pageFlags : BitVec 64) : Machine → Nat → Nat → Machine × Bool
  | m, _, 0 => (m, true)
  | m, i, n + 1 =>
    let (m, phys) := m.allocPage
    if phys = 0 then ((pagesFrom vaddr i).foldl (rollbackPage pml4) m, false)
    else
      let m := m.zeroPage phys
      let m := vmmMapPage m pml4 (vaddr + BitVec.ofNat 64 (i * pageSize)) (BitVec.ofNat 64 phys)
        pageFlags
      mmapPages pml4 vaddr pageFlags m (i + 1) n

/-- `sys_mmap`. The result is the start of the range as a signed number, or an error. -/
def sysMmap (rnd : BitVec 64) (m : Machine) (cur : Option Process) (addr length : BitVec 64)
    (prot flags : BitVec 32) : Machine × Option Process × Int :=
  if flags &&& mmapAnonymous = 0#32 then (m, cur, errNoSys)
  else if length = 0#64 then (m, cur, errInval)
  else if addr ≠ 0#64 ∧ flags &&& mapFixed ≠ 0#32 then (m, cur, errNoSys)
  else
    match cur with
    | none => (m, none, errFault)
    | some p =>
      if p.pml4 = 0 then (m, some p, errFault)
      else
        let numPages := (length + 0xFFF#64) / 0x1000#64
        let (p, vaddr) := mmapAllocVaddr rnd p numPages
        if vaddr = 0#64 then (m, some p, errNoMemory)
        else
          match mmapPages p.pml4 vaddr (mmapPageFlags prot) m 0 numPages.toNat with
          | (m, true) => (m, some p, vaddr.toInt)
          | (m, false) => (m, some p, errNoMemory)

-- ---------------------------------------------------------------------------
-- Runs of calls
-- ---------------------------------------------------------------------------

/-- A process and its memory between calls; `handed` are the ranges that earlier calls returned,
each with its length. -/
structure MmapState where
  machine : Machine
  proc : Process
  handed : List (Nat × Nat)

/-- A call of `sys_mmap`, or whatever others do to the memory and to the heap in between. -/
inductive MmapOp where
  | mmap (rnd addr length : BitVec 64) (prot flags : BitVec 32)
  | elsewhere (m : Machine) (brkBase brk : BitVec 64)

def mmapStep (s : MmapState) : MmapOp → MmapState
  | .mmap rnd addr length prot flags =>
    let (m, cur, res) := sysMmap rnd s.machine (some s.proc) addr length prot flags
    { machine := m
      proc := cur.getD s.proc
      handed := if 0 ≤ res then (res.toNat, length.toNat) :: s.handed else s.handed }
  | .elsewhere m brkBase brk =>
    { s with machine := m, proc := { s.proc with brkBase := brkBase, brk := brk } }

/-- No address is in both ranges. -/
def RangesApart (a l b k : Nat) : Prop := ∀ x, a ≤ x → x < a + l → ¬ (b ≤ x ∧ x < b + k)

/-- A success that returned `a`: every page of the range shows a zeroed frame of its own, and the
range meets neither an earlier one nor the heap. -/
structure MmapServed (s : MmapState) (m' : Machine) (a length : Nat) : Prop where
  pages : ∀ w : BitVec 64, a ≤ w.toNat → w.toNat < a + length →
    FreshPage s.machine m' s.proc.pml4 w fun _ => 0#64
  own : ∀ w w' : BitVec 64, a ≤ w.toNat → w.toNat < a + length → a ≤ w'.toNat →
    w'.toNat < a + length → frameAt m' s.proc.pml4 w = frameAt m' s.proc.pml4 w' →
    w.toNat / pageSize = w'.toNat / pageSize
  handed : ∀ b k, (b, k) ∈ s.handed → RangesApart a length b k
  heap : RangesApart a length s.proc.brkBase.toNat (s.proc.brk.toNat - s.proc.brkBase.toNat)

/-- A failure that left no trace. -/
structure MmapRefused (s : MmapState) (m' : Machine) (p' : Process) : Prop where
  cursor : p'.mmapNextAddr = s.proc.mmapNextAddr
  tables : ∀ t, IsTable s.machine s.proc.pml4 t → m'.mem t = s.machine.mem t
  frames : ∀ f, Avail m'.pmm f ↔ Avail s.machine.pmm f

/-- What one call owes its caller. -/
structure MmapCallOk (s : MmapState) (rnd addr length : BitVec 64) (prot flags : BitVec 32) :
    Prop where
  success : 0 ≤ (sysMmap rnd s.machine (some s.proc) addr length prot flags).2.2 →
    MmapServed s (sysMmap rnd s.machine (some s.proc) addr length prot flags).1
      (sysMmap rnd s.machine (some s.proc) addr length prot flags).2.2.toNat length.toNat
  failure : (sysMmap rnd s.machine (some s.proc) addr length prot flags).2.2 < 0 →
    MmapRefused s (sysMmap rnd s.machine (some s.proc) addr length prot flags).1
      ((sysMmap rnd s.machine (some s.proc) addr length prot flags).2.1.getD s.proc)

/-- The call is refused for its arguments. -/
def MmapRejects (p : Process) (addr length : BitVec 64) (flags : BitVec 32) : Prop :=
  flags &&& mmapAnonymous = 0#32 ∨ length = 0#64 ∨
    (addr ≠ 0#64 ∧ flags &&& mapFixed ≠ 0#32) ∨ p.pml4 = 0

/-- The number of pages of a length that does not wrap. -/
def mmapPageCount (length : BitVec 64) : Nat := (length.toNat + 4095) / pageSize

/-- The range from `start` can be mapped: there is a frame for every page and every missing table,
no page is a user page or below a 1 GB page, and the range does not meet the heap. -/
structure MmapRoom (s : MmapState) (start length : BitVec 64) : Prop where
  frames : HasFrames s.machine.pmm (mmapPageCount length +
    (missingTables s.machine s.proc.pml4 (pagesFrom start (mmapPageCount length))).card)
  clear : ∀ va ∈ pagesFrom start (mmapPageCount length),
    PageClear (walk s.machine s.proc.pml4 va)
  heap : RangesApart start.toNat length.toNat s.proc.brkBase.toNat
    (s.proc.brk.toNat - s.proc.brkBase.toNat)

/-- What a step has to meet. A call for a range beyond the region is refused without a trace if
the cursor was set. -/
def MmapAllowed (s : MmapState) : MmapOp → Prop
  | .mmap rnd addr length _ flags =>
    let start := (mmapInit rnd s.proc).mmapNextAddr
    MmapRejects s.proc addr length flags ∨
      (length.toNat ≤ 2 ^ 64 - 4096 ∧
        if start.toNat + mmapPageCount length * pageSize ≤ mmapRegionEnd.toNat then
          MmapRoom s start length
        else s.proc.mmapNextAddr ≠ 0#64)
  | .elsewhere m _ _ => Steady m s.proc.pml4 ∧ ∀ w, AlignedWalk (walk m s.proc.pml4 w)

-- ---------------------------------------------------------------------------
-- The loop
-- ---------------------------------------------------------------------------

theorem mmapPageFlags_bits (prot : BitVec 32) :
    mmapPageFlags prot &&& ptePhysMask = 0#64 ∧ isHuge (mmapPageFlags prot) = false := by
  unfold mmapPageFlags
  dsimp only
  split <;> split <;> decide

/-- The pages `i`, `i + 1` and so on of a range: `n` of them. -/
def pagesAt (start : BitVec 64) (i n : Nat) : List (BitVec 64) :=
  (List.range' i n).map fun j => start + BitVec.ofNat 64 (j * pageSize)

theorem pagesAt_zero (start : BitVec 64) (n : Nat) : pagesAt start 0 n = pagesFrom start n := by
  rw [pagesAt, pagesFrom, List.range_eq_range']

theorem pagesAt_succ (start : BitVec 64) (i n : Nat) : pagesAt start i (n + 1) =
    (start + BitVec.ofNat 64 (i * pageSize)) :: pagesAt start (i + 1) n := by
  rw [pagesAt, List.range'_succ, List.map_cons, pagesAt]

section Loop

variable {r : Nat} {start flags : BitVec 64}

/-- With a frame for every page and every missing table the loop reaches its end. -/
theorem mmapPages_fills (hmask : flags &&& ptePhysMask = 0#64) (hsmall : isHuge flags = false) :
    ∀ (n i : Nat) (m : Machine), Steady m r → (∀ w, AlignedWalk (walk m r w)) →
      (∀ va ∈ pagesAt start i n, PageClear (walk m r va)) →
      (pagesAt start i n).Pairwise (fun a b => pageNumber a ≠ pageNumber b) →
      HasFrames m.pmm (n + (missingTables m r (pagesAt start i n)).card) →
      ∃ m', mmapPages r start flags m i n = (m', true) ∧
        RangeFilled m m' r (pagesAt start i n) fun _ _ => 0#64 := by
  intro n
  induction n with
  | zero =>
    intro i m hS hal _ _ _
    exact ⟨m, rfl, .nil hS hal⟩
  | succ n ih =>
    intro i m hS hal hclear hdist hframes
    rw [pagesAt_succ] at hclear hdist hframes ⊢
    generalize hv : start + BitVec.ofNat 64 (i * pageSize) = v at hclear hdist hframes ⊢
    rw [List.pairwise_cons] at hdist
    obtain ⟨c, hc⟩ := Nat.exists_eq_add_of_le
      (card_missingTables_le (r := r) m v (pagesAt start (i + 1) n))
    rw [hc, show n + 1 + ((missingTables m r [v]).card + c) = (missingTables m r [v]).card + (n + c) + 1 by
      omega] at hframes
    obtain ⟨f, hg⟩ := (pmmAllocPage_cases hS.covers).resolve_right hframes.ne_zero
    have hview : SameView m (m.takeFilled f fun _ => 0#64) r := (takeFilled_view hS hal hg).1
    have hwalk : ∀ w, walk (m.takeFilled f fun _ => 0#64) r w = walk m r w :=
      (takeFilled_view hS hal hg).2.1
    obtain ⟨hfill, hspare⟩ := vmmMapPage_fills hview.steady hview.aligned
      (by rw [hwalk]; exact hclear v List.mem_cons_self) (hg.lt (hS.ready 0)) hmask hsmall
      (hframes.takeFilled hS hal hg)
    generalize hm₁ : vmmMapPage (m.takeFilled f fun _ => 0#64) r v (BitVec.ofNat 64 (f * 4096)) flags =
      m₁ at hfill hspare
    obtain ⟨hP, hdata, hzero⟩ := hfill.of_filled hS hal hg
    have hcard : (missingTables m r (v :: pagesAt start (i + 1) n)).card =
        (missingTables m r [v]).card + (missingTables m₁ r (pagesAt start (i + 1) n)).card :=
      card_missingTables_cons hP
    have hskip : ¬ InPages (pagesAt start (i + 1) n) v := fun ⟨va, hva, h⟩ => hdist.1 va hva h
    obtain ⟨m', hm', hR⟩ := ih (i + 1) m₁ hP.steady hP.aligned
      (fun va hva => ⟨hP.small va (hclear va (List.mem_cons_of_mem _ hva)).small,
        hP.kernel va (Ne.symm (hdist.1 va hva)) (hclear va (List.mem_cons_of_mem _ hva)).kernel⟩)
      hdist.2 (by rw [show (missingTables m₁ r (pagesAt start (i + 1) n)).card = c by omega]; exact hspare)
    refine ⟨m', ?_, hR.cons hP hg.avail hdata hzero hskip⟩
    have h0 : f * 4096 ≠ 0 := by
      have := hg.pos
      omega
    simp only [mmapPages, Machine.allocPage_grant hg, h0, if_false, hv]
    show mmapPages r start flags (vmmMapPage (m.takeFilled f fun _ => 0#64) r v
      (BitVec.ofNat 64 (f * 4096)) flags) (i + 1) n = _
    rw [hm₁, hm']

end Loop

-- ---------------------------------------------------------------------------
-- The pages of a range
-- ---------------------------------------------------------------------------

theorem pageNumber_low {v : BitVec 64} (h : v.toNat < 2 ^ 48) : pageNumber v = v.toNat / 4096 := by
  rw [pageNumber]
  omega

/-- A range in the mmap region. -/
structure InRegion47 (start : BitVec 64) (n : Nat) : Prop where
  aligned : PageAligned start
  room : start.toNat + n * pageSize ≤ mmapRegionEnd.toNat

section Range

variable {start : BitVec 64} {n : Nat}

theorem InRegion47.toNat (h : InRegion47 start n) {j : Nat} (hj : j < n) :
    (start + BitVec.ofNat 64 (j * pageSize)).toNat = start.toNat + j * 4096 := by
  have hroom := h.room
  rw [show mmapRegionEnd.toNat = 2 ^ 47 - 1 from rfl, pageSize_eq] at hroom
  rw [BitVec.toNat_add, BitVec.toNat_ofNat, pageSize_eq, Nat.mod_eq_of_lt (a := j * 4096) (by omega),
    Nat.mod_eq_of_lt (by omega)]

theorem InRegion47.pageNumber (h : InRegion47 start n) {j : Nat} (hj : j < n) :
    Lestra.pageNumber (start + BitVec.ofNat 64 (j * pageSize)) = start.toNat / 4096 + j := by
  have hroom := h.room
  rw [show mmapRegionEnd.toNat = 2 ^ 47 - 1 from rfl, pageSize_eq] at hroom
  have hto := h.toNat hj
  rw [pageNumber_low (by omega), hto]
  omega

theorem InRegion47.pairwise (h : InRegion47 start n) :
    (pagesFrom start n).Pairwise fun a b => Lestra.pageNumber a ≠ Lestra.pageNumber b := by
  rw [pagesFrom, List.pairwise_map]
  refine List.Pairwise.imp_of_mem ?_ List.pairwise_lt_range
  intro a b ha hb hab
  rw [h.pageNumber (List.mem_range.mp ha), h.pageNumber (List.mem_range.mp hb)]
  omega

/-- Every address of the range is on one of its pages. -/
theorem InRegion47.inPages (h : InRegion47 start n) {w : BitVec 64} (hlo : start.toNat ≤ w.toNat)
    (hhi : w.toNat < start.toNat + n * 4096) : InPages (pagesFrom start n) w := by
  have hroom := h.room
  rw [show mmapRegionEnd.toNat = 2 ^ 47 - 1 from rfl, pageSize_eq] at hroom
  have hal := (pageAligned_iff start).mp h.aligned
  have hj : (w.toNat - start.toNat) / 4096 < n := by omega
  refine ⟨_, List.mem_map.mpr ⟨(w.toNat - start.toNat) / 4096, List.mem_range.mpr hj, rfl⟩, ?_⟩
  rw [h.pageNumber hj, pageNumber_low (by omega)]
  omega

end Range

-- ---------------------------------------------------------------------------
-- One call
-- ---------------------------------------------------------------------------

/-- What every allowed call keeps: the page tables are in order, and the ranges that were handed
out end at or below the cursor. -/
structure MmapInv (s : MmapState) : Prop where
  steady : Steady s.machine s.proc.pml4
  aligned : ∀ w, AlignedWalk (walk s.machine s.proc.pml4 w)
  cursor : PageAligned s.proc.mmapNextAddr
  handed : ∀ b k, (b, k) ∈ s.handed → b + k ≤ s.proc.mmapNextAddr.toNat

theorem mmapInit_fields (rnd : BitVec 64) (p : Process) : (mmapInit rnd p).pml4 = p.pml4 ∧
    (mmapInit rnd p).brkBase = p.brkBase ∧ (mmapInit rnd p).brk = p.brk := by
  unfold mmapInit
  split <;> exact ⟨rfl, rfl, rfl⟩

theorem pageAligned_mmapInit (rnd : BitVec 64) {p : Process} (h : PageAligned p.mmapNextAddr) :
    PageAligned (mmapInit rnd p).mmapNextAddr := by
  unfold mmapInit
  split
  · rw [pageAligned_iff]
    show (mmapRegionBase + (rnd &&& 0xFF#64) <<< 12).toNat % 4096 = 0
    rw [BitVec.toNat_add, BitVec.toNat_shiftLeft, show mmapRegionBase.toNat = 0x60000000 from rfl,
      Nat.shiftLeft_eq]
    omega
  · exact h

theorem mmapInit_pos (rnd : BitVec 64) (p : Process) : (mmapInit rnd p).mmapNextAddr ≠ 0#64 := by
  unfold mmapInit
  split
  · have hslide : ((rnd &&& 0xFF#64) <<< 12).toNat < 2 ^ 20 := by
      rw [BitVec.toNat_shiftLeft, BitVec.toNat_and, show (0xFF#64).toNat = 2 ^ 8 - 1 from rfl,
        Nat.and_two_pow_sub_one_eq_mod, Nat.shiftLeft_eq]
      omega
    intro h
    have := congrArg BitVec.toNat h
    rw [BitVec.toNat_add, show mmapRegionBase.toNat = 0x60000000 from rfl] at this
    simp only [BitVec.toNat_ofNat] at this
    omega
  · next h => exact h

/-- The cursor moves by the pages of the range, or the range leaves the region. -/
theorem mmapAllocVaddr_eq (rnd : BitVec 64) (p : Process) {length : BitVec 64}
    (hlen : length.toNat ≤ 2 ^ 64 - 4096) :
    let start := (mmapInit rnd p).mmapNextAddr
    let numPages := (length + 0xFFF#64) / 0x1000#64
    numPages.toNat = mmapPageCount length ∧
    ((start.toNat + mmapPageCount length * pageSize ≤ mmapRegionEnd.toNat ∧
      ∃ next : BitVec 64, next.toNat = start.toNat + mmapPageCount length * pageSize ∧
        mmapAllocVaddr rnd p numPages = ({ mmapInit rnd p with mmapNextAddr := next }, start)) ∨
    (¬ start.toNat + mmapPageCount length * pageSize ≤ mmapRegionEnd.toNat ∧
      mmapAllocVaddr rnd p numPages = (mmapInit rnd p, 0#64))) := by
  intro start numPages
  have hnum : numPages.toNat = mmapPageCount length := by
    show ((length + 0xFFF#64) / 0x1000#64).toNat = _
    rw [BitVec.toNat_udiv, BitVec.toNat_add, show (0xFFF#64).toNat = 4095 from rfl,
      show (0x1000#64).toNat = 4096 from rfl, Nat.mod_eq_of_lt (by omega), mmapPageCount, pageSize_eq]
  refine ⟨hnum, ?_⟩
  have hbytes : mmapPageCount length * 4096 < 2 ^ 64 := by
    rw [mmapPageCount, pageSize_eq]
    omega
  have hmul : (numPages * 0x1000#64).toNat = mmapPageCount length * 4096 := by
    rw [BitVec.toNat_mul, hnum, show (0x1000#64).toNat = 4096 from rfl, Nat.mod_eq_of_lt hbytes]
  have hnext : (start + numPages * 0x1000#64).toNat =
      (start.toNat + mmapPageCount length * 4096) % 2 ^ 64 := by
    rw [BitVec.toNat_add, hmul]
  have hstart := start.isLt
  have hend : mmapRegionEnd.toNat = 2 ^ 47 - 1 := rfl
  -- the sum wraps at most once, and then it is below the start
  by_cases hroom : start.toNat + mmapPageCount length * pageSize ≤ mmapRegionEnd.toNat
  · left
    rw [pageSize_eq, hend] at hroom
    have hsmall : (start.toNat + mmapPageCount length * 4096) % 2 ^ 64 =
        start.toNat + mmapPageCount length * 4096 := Nat.mod_eq_of_lt (by omega)
    have hno : ¬ (start + numPages * 0x1000#64 > mmapRegionEnd ∨ start + numPages * 0x1000#64 < start) := by
      rintro (h | h)
      · have h' : mmapRegionEnd.toNat < (start + numPages * 0x1000#64).toNat := h
        omega
      · have h' : (start + numPages * 0x1000#64).toNat < start.toNat := h
        omega
    refine ⟨by rw [pageSize_eq, hend]; exact hroom, start + numPages * 0x1000#64,
      by rw [hnext, hsmall, pageSize_eq], ?_⟩
    unfold mmapAllocVaddr
    dsimp only
    rw [if_neg hno]
  · right
    refine ⟨hroom, ?_⟩
    rw [pageSize_eq, hend] at hroom
    have hyes : start + numPages * 0x1000#64 > mmapRegionEnd ∨ start + numPages * 0x1000#64 < start := by
      rcases Nat.lt_or_ge (start.toNat + mmapPageCount length * 4096) (2 ^ 64) with h | h
      · left
        show mmapRegionEnd.toNat < (start + numPages * 0x1000#64).toNat
        rw [hnext, Nat.mod_eq_of_lt h, hend]
        omega
      · right
        show (start + numPages * 0x1000#64).toNat < start.toNat
        omega
    unfold mmapAllocVaddr
    dsimp only
    rw [if_pos hyes]

section Call

variable {s : MmapState} {rnd addr length : BitVec 64} {prot flags : BitVec 32}

/-- A call that is not refused for its arguments asks for a range. -/
theorem sysMmap_accepted (h : ¬ MmapRejects s.proc addr length flags) :
    sysMmap rnd s.machine (some s.proc) addr length prot flags =
      let numPages := (length + 0xFFF#64) / 0x1000#64
      let (p, vaddr) := mmapAllocVaddr rnd s.proc numPages
      if vaddr = 0#64 then (s.machine, some p, errNoMemory)
      else
        match mmapPages p.pml4 vaddr (mmapPageFlags prot) s.machine 0 numPages.toNat with
        | (m, true) => (m, some p, vaddr.toInt)
        | (m, false) => (m, some p, errNoMemory) := by
  simp only [MmapRejects, not_or] at h
  obtain ⟨h1, h2, h3, h4⟩ := h
  rw [sysMmap, if_neg h1, if_neg h2, if_neg h3]
  dsimp only
  rw [if_neg h4]

theorem sysMmap_rejected (h : MmapRejects s.proc addr length flags) :
    ∃ e < 0, sysMmap rnd s.machine (some s.proc) addr length prot flags =
      (s.machine, some s.proc, e) := by
  unfold sysMmap
  by_cases h1 : flags &&& mmapAnonymous = 0#32
  · exact ⟨errNoSys, by decide, if_pos h1⟩
  by_cases h2 : length = 0#64
  · exact ⟨errInval, by decide, by rw [if_neg h1, if_pos h2]⟩
  by_cases h3 : addr ≠ 0#64 ∧ flags &&& mapFixed ≠ 0#32
  · exact ⟨errNoSys, by decide, by rw [if_neg h1, if_neg h2, if_pos h3]⟩
  have h4 : s.proc.pml4 = 0 := ((h.resolve_left h1).resolve_left h2).resolve_left h3
  refine ⟨errFault, by decide, ?_⟩
  rw [if_neg h1, if_neg h2, if_neg h3]
  dsimp only
  rw [if_pos h4]

/-- A call that served its caller. -/
structure MmapServes (s : MmapState) (rnd length : BitVec 64) (m' : Machine) (next : BitVec 64) :
    Prop where
  range : InRegion47 (mmapInit rnd s.proc).mmapNextAddr (mmapPageCount length)
  next : next.toNat =
    (mmapInit rnd s.proc).mmapNextAddr.toNat + mmapPageCount length * pageSize
  room : MmapRoom s (mmapInit rnd s.proc).mmapNextAddr length
  filled : RangeFilled s.machine m' s.proc.pml4
    (pagesFrom (mmapInit rnd s.proc).mmapNextAddr (mmapPageCount length)) fun _ _ => 0#64

/-- **One call.** An allowed call is refused and changes nothing, or it maps its range. -/
theorem sysMmap_cases (hI : MmapInv s) (hA : MmapAllowed s (.mmap rnd addr length prot flags)) :
    (∃ e < 0, sysMmap rnd s.machine (some s.proc) addr length prot flags =
      (s.machine, some s.proc, e)) ∨
    ∃ m' next, sysMmap rnd s.machine (some s.proc) addr length prot flags =
      (m', some { mmapInit rnd s.proc with mmapNextAddr := next },
        (mmapInit rnd s.proc).mmapNextAddr.toInt) ∧ MmapServes s rnd length m' next := by
  by_cases hrej : MmapRejects s.proc addr length flags
  · exact Or.inl (sysMmap_rejected hrej)
  obtain ⟨hlen, hroom⟩ := hA.resolve_left hrej
  obtain ⟨hnum, ⟨hin, next, hnext, halloc⟩ | ⟨hout, halloc⟩⟩ := mmapAllocVaddr_eq rnd s.proc hlen
  · right
    rw [if_pos hin] at hroom
    have hrange : InRegion47 (mmapInit rnd s.proc).mmapNextAddr (mmapPageCount length) :=
      ⟨pageAligned_mmapInit rnd hI.cursor, hin⟩
    obtain ⟨hmask, hsmall⟩ := mmapPageFlags_bits prot
    obtain ⟨m', hm', hR⟩ := mmapPages_fills hmask hsmall (mmapPageCount length) 0 s.machine hI.steady
      hI.aligned (by rw [pagesAt_zero]; exact hroom.clear)
      (by rw [pagesAt_zero]; exact hrange.pairwise) (by rw [pagesAt_zero]; exact hroom.frames)
    rw [pagesAt_zero] at hR
    refine ⟨m', next, ?_, hrange, hnext, hroom, hR⟩
    rw [sysMmap_accepted hrej]
    simp only [halloc, mmapInit_pos, if_false, hnum, (mmapInit_fields rnd s.proc).1, hm']
  · left
    rw [if_neg hout] at hroom
    refine ⟨errNoMemory, by decide, ?_⟩
    have hsame : mmapInit rnd s.proc = s.proc := if_neg hroom
    rw [sysMmap_accepted hrej]
    simp only [halloc, if_true, hsame]

theorem MmapServes.toInt {m' : Machine} {next : BitVec 64} (h : MmapServes s rnd length m' next) :
    (mmapInit rnd s.proc).mmapNextAddr.toInt = (mmapInit rnd s.proc).mmapNextAddr.toNat := by
  have hroom := h.range.room
  rw [show mmapRegionEnd.toNat = 2 ^ 47 - 1 from rfl] at hroom
  exact BitVec.toInt_eq_toNat_of_lt (by omega)

theorem length_le_pages (length : BitVec 64) : length.toNat ≤ mmapPageCount length * 4096 := by
  rw [mmapPageCount, pageSize_eq]
  omega

/-- The cursor of a process that has handed out a range is set. -/
theorem mmapInit_ge (rnd : BitVec 64) (p : Process) :
    p.mmapNextAddr.toNat ≤ (mmapInit rnd p).mmapNextAddr.toNat := by
  unfold mmapInit
  split
  · next h =>
    rw [h]
    exact Nat.zero_le _
  · exact Nat.le_refl _

theorem MmapServes.served {m' : Machine} {next : BitVec 64} (hI : MmapInv s)
    (h : MmapServes s rnd length m' next) :
    MmapServed s m' (mmapInit rnd s.proc).mmapNextAddr.toNat length.toNat := by
  have hlen := length_le_pages length
  have hroom := h.range.room
  rw [show mmapRegionEnd.toNat = 2 ^ 47 - 1 from rfl, pageSize_eq] at hroom
  have hin : ∀ w : BitVec 64, (mmapInit rnd s.proc).mmapNextAddr.toNat ≤ w.toNat →
      w.toNat < (mmapInit rnd s.proc).mmapNextAddr.toNat + length.toNat →
      InPages (pagesFrom (mmapInit rnd s.proc).mmapNextAddr (mmapPageCount length)) w :=
    fun w hlo hhi => h.range.inPages hlo (by omega)
  refine ⟨fun w hlo hhi => h.filled.fresh w (hin w hlo hhi), ?_, fun b k hbk x hx _ hb => ?_,
    h.room.heap⟩
  · intro w w' hlo hhi hlo' hhi' heq
    have hpn := h.filled.own w w' (hin w hlo hhi) (hin w' hlo' hhi') heq
    rw [pageNumber_low (by omega), pageNumber_low (by omega)] at hpn
    rw [pageSize_eq]
    exact hpn
  · have hend := hI.handed b k hbk
    have hge := mmapInit_ge rnd s.proc
    omega

theorem mmap_callOk (hI : MmapInv s) (hA : MmapAllowed s (.mmap rnd addr length prot flags)) :
    MmapCallOk s rnd addr length prot flags := by
  rcases sysMmap_cases hI hA with ⟨e, he, hres⟩ | ⟨m', next, hres, hserves⟩
  · refine ⟨fun h => ?_, fun _ => ?_⟩
    · rw [hres] at h
      exact absurd (show 0 ≤ e from h) (by omega)
    · rw [hres]
      exact ⟨rfl, fun _ _ => rfl, fun _ => Iff.rfl⟩
  · have hint := hserves.toInt
    refine ⟨fun _ => ?_, fun h => ?_⟩
    · rw [hres]
      dsimp only
      rw [hint, Int.toNat_natCast]
      exact hserves.served hI
    · rw [hres] at h
      dsimp only at h
      omega

theorem mmapStep_inv (s : MmapState) (op : MmapOp) (hI : MmapInv s) (hA : MmapAllowed s op) :
    MmapInv (mmapStep s op) := by
  cases op with
  | elsewhere m brkBase brk => exact ⟨hA.1, hA.2, hI.cursor, hI.handed⟩
  | mmap rnd addr length prot flags =>
    rcases sysMmap_cases hI hA with ⟨e, he, hres⟩ | ⟨m', next, hres, hserves⟩
    · have hstep : mmapStep s (.mmap rnd addr length prot flags) = s := by
        have hno : ¬ 0 ≤ e := by omega
        simp only [mmapStep, hres, Option.getD_some, hno, if_false]
      rw [hstep]
      exact hI
    · have hpml4 := (mmapInit_fields rnd s.proc).1
      have hint := hserves.toInt
      have hstep : mmapStep s (.mmap rnd addr length prot flags) =
          { machine := m'
            proc := { mmapInit rnd s.proc with mmapNextAddr := next }
            handed := ((mmapInit rnd s.proc).mmapNextAddr.toNat, length.toNat) :: s.handed } := by
        simp only [mmapStep, hres, Option.getD_some, hint, Int.natCast_nonneg, if_true,
          Int.toNat_natCast]
      have hlen := length_le_pages length
      have hnext := hserves.next
      rw [pageSize_eq] at hnext
      rw [hstep]
      refine ⟨?_, ?_, ?_, fun b k hbk => ?_⟩
      · show Steady m' (mmapInit rnd s.proc).pml4
        rw [hpml4]
        exact hserves.filled.steady
      · intro w
        show AlignedWalk (walk m' (mmapInit rnd s.proc).pml4 w)
        rw [hpml4]
        exact hserves.filled.aligned w
      · show PageAligned next
        have hal := (pageAligned_iff _).mp hserves.range.aligned
        rw [pageAligned_iff, hnext]
        omega
      · show b + k ≤ next.toNat
        rcases List.mem_cons.mp hbk with heq | hbk
        · obtain ⟨rfl, rfl⟩ := Prod.mk.inj heq
          omega
        · have hend := hI.handed b k hbk
          have hge := mmapInit_ge rnd s.proc
          omega

end Call

-- ---------------------------------------------------------------------------
-- Runs
-- ---------------------------------------------------------------------------

/-- A process with page tables and frames that has not called `sys_mmap` yet. -/
def mmapStart : MmapState := ⟨stackedMachine, stackedProcess, []⟩

/-- After a call for six kilobytes at the start of the region. -/
def mmapSecond : MmapState := mmapStep mmapStart (.mmap 0#64 0#64 0x1800#64 3#32 0x22#32)

theorem pageClear_single {e : BitVec 64} : PageClear [e] :=
  ⟨fun _ h => by simp at h, fun _ h => by simp at h⟩

/-- The memory of that process with no frame left. -/
def fullMachine : Machine := { stackedMachine with pmm := pmmInit smallLayout [⟨0, 0x1000, 1⟩] }

end Lestra
