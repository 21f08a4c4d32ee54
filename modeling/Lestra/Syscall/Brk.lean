import Lestra.Mm.VmmGrow
import Lestra.Syscall.Unmap

/-!
# Memory system calls — the program break

The heap of a process over runs of `sys_brk`. `BrkInv` is what every allowed
call keeps: the break is at or above its base, and every page that the heap has
mapped is still a heap page below the break or is gone. `BrkAllowed` lists what
a call has to avoid, because `sys_brk` records the address it was asked for and
not the one it computed.
-/

namespace Lestra

open Word64 Radix

-- ---------------------------------------------------------------------------
-- Page arithmetic
-- ---------------------------------------------------------------------------

theorem toNat_pageFloor (a : BitVec 64) : (pageFloor a).toNat = a.toNat / 4096 * 4096 :=
  Word64.toNat_and_not_mask (k := 12) rfl

theorem toNat_pageCeil {a : BitVec 64} (h : a.toNat + 4095 < 2 ^ 64) :
    (pageCeil a).toNat = (a.toNat + 4095) / 4096 * 4096 := by
  have h1 : pageCeil a = pageFloor (a + 0xFFF#64) := rfl
  rw [h1, toNat_pageFloor, BitVec.toNat_add, show (0xFFF#64).toNat = 4095 from rfl,
    Nat.mod_eq_of_lt h]

theorem mem_pagesBetween {lo hi w : BitVec 64} (hlo : PageAligned lo) (hhi : PageAligned hi) :
    w ∈ pagesBetween lo hi ↔ PageAligned w ∧ lo.toNat ≤ w.toNat ∧ w.toNat < hi.toNat := by
  have h1 := (pageAligned_iff _).mp hlo
  have h2 := (pageAligned_iff _).mp hhi
  unfold pagesBetween
  split
  · next hlt =>
    have hlt' : lo.toNat < hi.toNat := hlt
    have hsub : (hi - lo).toNat = hi.toNat - lo.toNat := BitVec.toNat_sub_of_le (BitVec.le_of_lt hlt)
    simp only [pagesFrom, List.mem_map, List.mem_range, pageSize_eq, hsub, pageAligned_iff]
    have hhi64 := hi.isLt
    constructor
    · rintro ⟨i, hi', rfl⟩
      have hno : lo.toNat + i * 4096 < 2 ^ 64 := by omega
      rw [BitVec.toNat_add, BitVec.toNat_ofNat, Nat.mod_eq_of_lt (a := i * 4096) (by omega),
        Nat.mod_eq_of_lt hno]
      omega
    · rintro ⟨h3, h4, h5⟩
      refine ⟨(w.toNat - lo.toNat) / 4096, by omega, BitVec.eq_of_toNat_eq ?_⟩
      rw [BitVec.toNat_add, BitVec.toNat_ofNat, Nat.mod_eq_of_lt (a := _ / _ * 4096) (by omega),
        Nat.mod_eq_of_lt (by omega)]
      omega
  · next hlt =>
    have hlt' : ¬ lo.toNat < hi.toNat := hlt
    simp only [List.not_mem_nil, false_iff]
    omega

theorem pairwise_pagesBetween (lo hi : BitVec 64) :
    (pagesBetween lo hi).Pairwise fun a b => a.toNat < b.toNat := by
  unfold pagesBetween
  split
  · next hlt =>
    have hsub : (hi - lo).toNat = hi.toNat - lo.toNat := BitVec.toNat_sub_of_le (BitVec.le_of_lt hlt)
    have hlt' : lo.toNat < hi.toNat := hlt
    have hhi64 := hi.isLt
    rw [pagesFrom, List.pairwise_map]
    refine List.Pairwise.imp_of_mem ?_ (List.pairwise_lt_range)
    intro a b _ hb hab
    rw [List.mem_range, hsub, pageSize_eq] at hb
    rw [BitVec.toNat_add, BitVec.toNat_add, BitVec.toNat_ofNat, BitVec.toNat_ofNat, pageSize_eq,
      Nat.mod_eq_of_lt (a := a * 4096) (by omega), Nat.mod_eq_of_lt (a := b * 4096) (by omega),
      Nat.mod_eq_of_lt (by omega), Nat.mod_eq_of_lt (by omega)]
    omega
  · exact List.Pairwise.nil

/-- Below 2^48 a page number names one page. -/
theorem eq_of_pageNumber {v w : BitVec 64} (hv : PageAligned v) (hw : PageAligned w)
    (hv48 : v.toNat < 2 ^ 48) (hw48 : w.toNat < 2 ^ 48) (h : pageNumber v = pageNumber w) : v = w := by
  rw [pageAligned_iff] at hv hw
  rw [pageNumber, pageNumber] at h
  exact BitVec.eq_of_toNat_eq (by omega)

-- ---------------------------------------------------------------------------
-- Heap pages
-- ---------------------------------------------------------------------------

/-- User code may write to the page. -/
def UserWritable (es : List (BitVec 64)) : Prop :=
  ∀ e ∈ es, isPresent e = true ∧ isUser e = true ∧ isWritable e = true

/-- A 4 KB page as `sys_brk` maps it. -/
def HeapPage (es : List (BitVec 64)) : Prop :=
  UserWritable es ∧ es.length = 4 ∧ ∃ e, es[3]? = some e ∧ isHuge e = false ∧ frameOf e ≠ 0

theorem UserWritable.not_broken {es : List (BitVec 64)} (h : UserWritable es) : ¬ Broken es := by
  rintro ⟨e, he, hP⟩
  rw [(h e he).1] at hP
  exact Bool.noConfusion hP

theorem UserWritable.addsUser {es es' : List (BitVec 64)} (h : UserWritable es)
    (hadd : List.Forall₂ AddsUser es es') : UserWritable es' := by
  intro e' he'
  obtain ⟨k, hk⟩ := List.mem_iff_getElem?.mp he'
  have hlt : k < es.length := by
    rw [hadd.length_eq]
    exact (List.getElem?_eq_some_iff.mp hk).1
  obtain ⟨u, hu⟩ := hadd.get hlt (hadd.length_eq ▸ hlt)
  have he := h _ (List.get_mem es ⟨k, hlt⟩)
  have hee : e' = markUser u (es.get ⟨k, hlt⟩) := by
    rw [← hu]
    exact (List.getElem?_eq_some_iff.mp hk).2.symm
  rw [hee, isPresent_markUser, isUser_markUser, isWritable_markUser, he.2.1]
  exact ⟨he.1, Bool.or_true _, he.2.2⟩

theorem HeapPage.grows {es es' : List (BitVec 64)} (h : HeapPage es) (hg : Grows es es') :
    HeapPage es' := by
  have hadd := hg.walk.resolve_right fun hb => h.1.not_broken hb.1
  obtain ⟨e, he, hH, hf⟩ := h.2.2
  refine ⟨h.1.addsUser hadd, hadd.length_eq ▸ h.2.1, ?_⟩
  match es, es', hadd, he with
  | [_, _, _, _], [_, _, _, _], .cons _ (.cons _ (.cons _ (.cons ⟨u, hu⟩ .nil))), he =>
    obtain rfl := Option.some.inj he
    refine ⟨_, rfl, ?_, ?_⟩
    · rw [hu, isHuge_markUser, hH]
    · rw [hu, frameOf_markUser]
      exact hf

theorem HeapPage.smallPage {es : List (BitVec 64)} (h : HeapPage es) : smallPage es = true := by
  obtain ⟨hW, hlen, e, he, hH, -⟩ := h
  match es, hlen with
  | [a, b, c, d], _ =>
    obtain rfl := Option.some.inj he
    simp [Lestra.smallPage, (hW d (by simp)).1, hH]

theorem HeapPage.walkPhys_ne_zero {es : List (BitVec 64)} (h : HeapPage es) (va : BitVec 64) :
    walkPhys es va ≠ 0#64 := by
  obtain ⟨e, he, hfr⟩ := smallPage_frame h.smallPage
  obtain ⟨-, -, e', he', -, hf⟩ := h
  intro h0
  have hframe := (hfr va).1
  rw [h0, Option.some.inj (he.symm.trans he')] at hframe
  exact hf hframe.symm

theorem HeapPage.clean {es : List (BitVec 64)} (h : HeapPage es) : CleanWalk es :=
  fun e he => ⟨fun _ => (h.1 e he).2.2, fun _ => (h.1 e he).1⟩

/-- The new leaf entry of a heap page. -/
theorem heapPage_of_mappedAs {es : List (BitVec 64)} {f : Nat} (hf : f ≠ 0) (hlt : f < 2 ^ 40)
    (h : MappedAs es (BitVec.ofNat 64 (f * 4096) ||| heapPageFlags ||| pagePresent)) :
    HeapPage es := by
  obtain ⟨a, b, c, rfl, hup⟩ := h
  have hframe : frameOf (BitVec.ofNat 64 (f * 4096) ||| heapPageFlags ||| pagePresent) = f := by
    rw [BitVec.or_assoc]
    exact frameOf_ofNat_or hlt (by decide)
  refine ⟨fun e he => ?_, rfl, _, rfl, ?_, by rw [hframe]; exact hf⟩
  · rcases List.mem_append.mp (show e ∈ [a, b, c] ++ [_] from he) with he | he
    · exact hup e he
    · rw [List.mem_singleton.mp he]
      simp only [isPresent_or, isUser_or, isWritable_or]
      refine ⟨by simp [show isPresent pagePresent = true by decide],
        by simp [show isUser heapPageFlags = true by decide],
        by simp [show isWritable heapPageFlags = true by decide]⟩
  · rw [isHuge_or, isHuge_or, isHuge_ofNat_frame]
    decide

-- ---------------------------------------------------------------------------
-- The growing loop
-- ---------------------------------------------------------------------------

/-- A page that the loop may visit: it translates to nothing only if it is not
mapped, and it is not below a read-only table. -/
def HeapReady (es : List (BitVec 64)) (va : BitVec 64) : Prop :=
  CleanWalk es ∧ (walkPhys es va = 0#64 → Broken es)

theorem HeapReady.grows {es es' : List (BitVec 64)} {va : BitVec 64} (h : HeapReady es va)
    (hg : Grows es es') : HeapReady es' va := by
  refine ⟨hg.clean h.1, fun h0 => ?_⟩
  rcases hg.walk with hw | ⟨-, hb⟩
  · rw [walkPhys_of_forall₂ hw] at h0
    exact hg.broken_iff.mpr (h.2 h0)
  · exact hb

theorem HeapPage.ready {es : List (BitVec 64)} (h : HeapPage es) (va : BitVec 64) :
    HeapReady es va := ⟨h.clean, fun h0 => absurd h0 (h.walkPhys_ne_zero va)⟩

/-- The machine `m'` is `m` with some of the pages `vas` mapped. -/
structure Grown (m m' : Machine) (r : Nat) (vas : List (BitVec 64)) : Prop where
  steady : Steady m' r
  other : ∀ w, (∀ va ∈ vas, pageNumber w ≠ pageNumber va) → Grows (walk m r w) (walk m' r w)
  pages : ∀ w, Grows (walk m r w) (walk m' r w) ∨
    (Broken (walk m r w) ∧ HeapPage (walk m' r w))

section Grow

variable {m : Machine} {r : Nat} {va : BitVec 64}

theorem Grown.none (hS : Steady m r) : Grown m m r [] :=
  ⟨hS, fun _ _ => Grows.refl _, fun _ => Or.inl (Grows.refl _)⟩

theorem Grown.cons {m₁ m₂ : Machine} {vas : List (BitVec 64)} (h₁ : Grown m m₁ r [va])
    (h₂ : Grown m₁ m₂ r vas) : Grown m m₂ r (va :: vas) := by
  refine ⟨h₂.steady, fun w hw => ?_, fun w => ?_⟩
  · exact (h₁.other w (by simpa using hw va (by simp))).trans
      (h₂.other w fun v hv => hw v (List.mem_cons_of_mem va hv))
  · rcases h₁.pages w with h | ⟨hb, hp⟩
    · rcases h₂.pages w with h' | ⟨hb', hp'⟩
      · exact Or.inl (h.trans h')
      · exact Or.inr ⟨h.broken_iff.mp hb', hp'⟩
    · rcases h₂.pages w with h' | ⟨hb', -⟩
      · exact Or.inr ⟨hb, hp.grows h'⟩
      · exact absurd hb' hp.1.not_broken

theorem Grown.ready {m' : Machine} {vas : List (BitVec 64)} (h : Grown m m' r vas) {w : BitVec 64}
    (hw : HeapReady (walk m r w) w) : HeapReady (walk m' r w) w := by
  rcases h.pages w with hg | ⟨-, hp⟩
  · exact hw.grows hg
  · exact hp.ready w

/-- The page that one round of the loop maps. -/
theorem mapHeapPage_grown {f : Nat} (hS : Steady m r) (hg : Grants m.pmm f)
    (hb : Broken (walk m r va)) (hc : CleanWalk (walk m r va)) :
    Grown m (vmmMapPage (m.starved.zeroPage (f * 4096)) r va (BitVec.ofNat 64 (f * 4096))
      heapPageFlags) r [va] := by
  have hft : ¬ IsTable m r f := hS.fresh f hg.avail
  have hmem : ∀ t, IsTable m r t → (m.starved.zeroPage (f * 4096)).mem t = m.mem t := by
    intro t ht
    show Function.update m.mem (f * 4096 / pageSize) (fun _ => 0#64) t = m.mem t
    rw [pageSize_eq, Nat.mul_div_cancel f (show 0 < 4096 by decide)]
    exact update_congr hft t ht
  have hS₁ : Steady (m.starved.zeroPage (f * 4096)) r := hS.alloc hmem
  have hwalk : ∀ w, walk (m.starved.zeroPage (f * 4096)) r w = walk m r w := fun w =>
    trail_congr hmem (vpath w)
  obtain ⟨hS₂, hother, hpage⟩ := map_page_grows (f := f) (v := va) hS₁
    (by rw [hwalk]; exact hb) (by rw [hwalk]; exact hc)
    (show isUser heapPageFlags = true by decide)
  rw [hwalk] at hpage
  have hlt : f < 2 ^ 40 := Nat.lt_of_lt_of_le hg.avail.lt hS.physical
  refine ⟨hS₂, fun w hw => ?_, fun w => ?_⟩
  · rw [← hwalk w]
    exact hother w (hw va (by simp))
  · by_cases hw : pageNumber w = pageNumber va
    · rw [walk_congr hw, walk_congr hw]
      exact hpage.imp_right fun hmap => ⟨hb, heapPage_of_mappedAs hg.pos hlt hmap⟩
    · rw [← hwalk w]
      exact Or.inl (hother w hw)

/-- The loop maps pages in order and stops at the first one without a frame. -/
theorem growPages_spec : ∀ {vas : List (BitVec 64)} {m : Machine}, Steady m r →
    (∀ v ∈ vas, HeapReady (walk m r v) v) →
    (∃ m', growPages r m vas = (m', none) ∧ Grown m m' r vas) ∨
    ∃ m' va before after, growPages r m vas = (m', some va) ∧ vas = before ++ va :: after ∧
      Grown m m' r before ∧ vmmGetPhys m' r va = 0#64
  | [], m, hS, _ => Or.inl ⟨m, rfl, Grown.none hS⟩
  | va :: vas, m, hS, hready => by
    -- the rest of the loop, from the machine after this round
    have hrest : ∀ m₁, Grown m m₁ r [va] → growPages r m (va :: vas) = growPages r m₁ vas →
        (∃ m', growPages r m (va :: vas) = (m', none) ∧ Grown m m' r (va :: vas)) ∨
        ∃ m' v before after, growPages r m (va :: vas) = (m', some v) ∧
          va :: vas = before ++ v :: after ∧ Grown m m' r before ∧ vmmGetPhys m' r v = 0#64 := by
      intro m₁ h₁ heq
      rw [heq]
      have hready₁ : ∀ v ∈ vas, HeapReady (walk m₁ r v) v := fun v hv =>
        h₁.ready (hready v (List.mem_cons_of_mem va hv))
      rcases growPages_spec h₁.steady hready₁ with
        ⟨m', hm', h₂⟩ | ⟨m', v, before, after, hm', hsplit, h₂, h0⟩
      · exact Or.inl ⟨m', hm', h₁.cons h₂⟩
      · exact Or.inr ⟨m', v, va :: before, after, hm', by rw [hsplit]; rfl, h₁.cons h₂, h0⟩
    by_cases h0 : vmmGetPhys m r va = 0#64
    · have hva := hready va (by simp)
      have hb : Broken (walk m r va) := hva.2 (by rw [← vmmGetPhys_eq]; exact h0)
      rcases pmmAllocPage_cases hS.covers with ⟨f, hg⟩ | hfail
      · have hf : f * 4096 ≠ 0 := by
          have := hg.pos
          omega
        refine hrest _ (mapHeapPage_grown hS hg hb hva.1) ?_
        rw [growPages, if_neg (by simp [h0]), Machine.allocPage_grant hg]
        simp only [hf, if_false]
      · refine Or.inr ⟨m.starved, va, [], vas, ?_, rfl, ⟨hS.starved, fun _ _ => Grows.refl _,
          fun _ => Or.inl (Grows.refl _)⟩, h0⟩
        rw [growPages, if_neg (by simp [h0]), Machine.allocPage_fail hfail]
        simp
    · refine hrest m ⟨hS, fun _ _ => Grows.refl _, fun _ => Or.inl (Grows.refl _)⟩ ?_
      rw [growPages, if_pos h0]

end Grow

-- ---------------------------------------------------------------------------
-- Runs of the system call
-- ---------------------------------------------------------------------------

/-- A process and its memory between calls; `heap` is the set of pages that some
call of `sys_brk` has mapped. -/
structure BrkState where
  machine : Machine
  proc : Process
  heap : BitVec 64 → Prop

/-- A call of `sys_brk`, or frames taken and returned by others in between. -/
inductive BrkOp where
  | brk (rnd addr : BitVec 64)
  | elsewhere (pmm : Pmm)

/-- The pages that a call has mapped. -/
def NewlyMapped (m m' : Machine) (r : Nat) (w : BitVec 64) : Prop :=
  PageAligned w ∧ w.toNat < 2 ^ 48 ∧ vmmGetPhys m r w = 0#64 ∧ vmmGetPhys m' r w ≠ 0#64

def brkStep (s : BrkState) : BrkOp → BrkState
  | .brk rnd addr =>
    let (m, cur, _) := sysBrk rnd s.machine (some s.proc) addr
    { machine := m
      proc := cur.getD s.proc
      heap := fun w => s.heap w ∨ NewlyMapped s.machine m s.proc.pml4 w }
  | .elsewhere pmm => { s with machine := { s.machine with pmm := pmm } }

/-- A page of the heap range as it may be found: reachable through writable
tables, and if it is a 4 KB page then a user page. -/
def HeapClear (m : Machine) (r : Nat) (va : BitVec 64) : Prop :=
  HeapReady (walk m r va) va ∧
    ((walk m r va).length = 4 → ¬ Broken (walk m r va) → UserWalk (walk m r va))

/-- The new break of a call that is not a query: at or above the base, below
2^48, at most `BRK_MAX_GROW` and a page above the old one; and when it gives up
the last page, that page is not in use: the old break is a page boundary or the
page is not mapped. -/
structure BrkTargetOk (m : Machine) (p : Process) (addr : BitVec 64) : Prop where
  base : p.brkBase.toNat ≤ addr.toNat
  canonical : addr.toNat ≤ 2 ^ 48
  growth : addr.toNat ≤ p.brk.toNat + brkMaxGrow.toNat + pageSize
  last : (addr.toNat + 4095) / 4096 < (p.brk.toNat + 4095) / 4096 →
    PageAligned p.brk ∨ Broken (walk m p.pml4 (pageFloor p.brk))

def BrkAllowed (s : BrkState) : BrkOp → Prop
  | .brk rnd addr =>
    let p := brkInit rnd s.proc
    (addr ≠ 0#64 → BrkTargetOk s.machine p addr) ∧
      (∀ va, PageAligned va → p.brkBase.toNat ≤ va.toNat →
        va.toNat < (if addr = 0#64 then p.brk else addr).toNat →
        HeapClear s.machine s.proc.pml4 va) ∧
      (BrkShrinks rnd s.proc addr → ∀ va ∈ brkRange rnd s.proc addr,
        ¬ IsTable s.machine s.proc.pml4 (frameAt s.machine s.proc.pml4 va))
  | .elsewhere pmm => pmm.geo.Covers ∧ pmm.geo.highestPfn ≤ 2 ^ 40 ∧
      ∀ f, Avail pmm f → ¬ IsTable s.machine s.proc.pml4 f

/-- A page that the heap mapped is a heap page below the break, or gone. -/
def HeapFate (m : Machine) (r : Nat) (brk w : BitVec 64) : Prop :=
  PageAligned w ∧ w.toNat < 2 ^ 48 ∧
    (Broken (walk m r w) ∨ (w.toNat < brk.toNat ∧ HeapPage (walk m r w)))

/-- The state of the break itself. -/
structure BreakOk (p : Process) : Prop where
  aligned : PageAligned p.brkBase
  base : p.brkBase.toNat ≤ p.brk.toNat
  canonical : p.brk.toNat ≤ 2 ^ 48
  unset : p.brkBase = 0#64 → p.brk = 0#64

structure BrkInv (s : BrkState) : Prop where
  pml4 : s.proc.pml4 ≠ 0
  steady : Steady s.machine s.proc.pml4
  break_ok : BreakOk s.proc
  fate : ∀ w, s.heap w → HeapFate s.machine s.proc.pml4 s.proc.brk w

/-- What one call owes its caller. -/
structure BrkCallOk (s : BrkState) (rnd : BitVec 64) (s' : BrkState) : Prop where
  base : s'.proc.brkBase ≤ s'.proc.brk
  growth : s'.proc.brk.toNat ≤ (brkInit rnd s.proc).brk.toNat + brkMaxGrow.toNat + pageSize
  served : ∀ a, s'.proc.brkBase ≤ a → a < s'.proc.brk →
    UserWritable (walk s'.machine s'.proc.pml4 a) ∨ heapFaultServed s'.machine s'.proc a = true
  released : ∀ w, s'.heap w → s'.proc.brk ≤ w → ¬ UserPage s'.machine s'.proc.pml4 w

-- ---------------------------------------------------------------------------
-- The break
-- ---------------------------------------------------------------------------

theorem brkInit_pml4 (rnd : BitVec 64) (p : Process) : (brkInit rnd p).pml4 = p.pml4 := by
  unfold brkInit
  split <;> rfl

/-- The first call sets a break that is in order. -/
theorem breakOk_brkInit (rnd : BitVec 64) {p : Process} (h : BreakOk p) :
    BreakOk (brkInit rnd p) ∧ (brkInit rnd p).brkBase ≠ 0#64 ∧ p.brk.toNat ≤ (brkInit rnd p).brk.toNat := by
  have hal := pageAligned_brkInit rnd h.aligned
  unfold brkInit at hal ⊢
  split
  · next h0 =>
    rw [if_pos h0] at hal
    have hslide : ((rnd &&& 0xFF#64) <<< 12).toNat < 2 ^ 20 := by
      rw [BitVec.toNat_shiftLeft, BitVec.toNat_and, show (0xFF#64).toNat = 2 ^ 8 - 1 from rfl,
        Nat.and_two_pow_sub_one_eq_mod, Nat.shiftLeft_eq]
      omega
    have hsum : (brkHeapBase + (rnd &&& 0xFF#64) <<< 12).toNat =
        0x40000000 + ((rnd &&& 0xFF#64) <<< 12).toNat := by
      rw [BitVec.toNat_add, show brkHeapBase.toNat = 0x40000000 from rfl]
      omega
    refine ⟨⟨hal, Nat.le_refl _, ?_, fun hz => ?_⟩, fun hz => ?_, ?_⟩
    · show (brkHeapBase + (rnd &&& 0xFF#64) <<< 12).toNat ≤ 2 ^ 48
      omega
    · have := congrArg BitVec.toNat hz
      rw [hsum] at this
      simp at this
    · have := congrArg BitVec.toNat hz
      rw [hsum] at this
      simp at this
    · rw [h.unset h0]
      exact Nat.zero_le _
  · next h0 => exact ⟨h, h0, Nat.le_refl _⟩

theorem toNat_brkTarget {p : Process} {addr : BitVec 64} (hp : BreakOk p)
    (haddr : addr.toNat ≤ 2 ^ 48) :
    (brkTarget p addr).toNat = max p.brkBase.toNat
      (min ((addr.toNat + 4095) / 4096 * 4096) (p.brk.toNat / 4096 * 4096 + 2 ^ 24)) := by
  have hceil := toNat_pageCeil (a := addr) (by omega)
  have hfloor := toNat_pageFloor p.brk
  have hc := hp.canonical
  have hcap : (pageFloor p.brk + brkMaxGrow).toNat = p.brk.toNat / 4096 * 4096 + 2 ^ 24 := by
    rw [BitVec.toNat_add, hfloor, show brkMaxGrow.toNat = 2 ^ 24 from rfl]
    omega
  have hmin : (if pageCeil addr > pageFloor p.brk + brkMaxGrow then pageFloor p.brk + brkMaxGrow
      else pageCeil addr).toNat =
      min ((addr.toNat + 4095) / 4096 * 4096) (p.brk.toNat / 4096 * 4096 + 2 ^ 24) := by
    split
    · next h =>
      have h' : (pageFloor p.brk + brkMaxGrow).toNat < (pageCeil addr).toNat := h
      omega
    · next h =>
      have h' : ¬ (pageFloor p.brk + brkMaxGrow).toNat < (pageCeil addr).toNat := h
      omega
  unfold brkTarget
  dsimp only
  generalize (if pageCeil addr > pageFloor p.brk + brkMaxGrow then pageFloor p.brk + brkMaxGrow
    else pageCeil addr) = x at hmin ⊢
  split
  · next h =>
    have h' : x.toNat < p.brkBase.toNat := h
    omega
  · next h =>
    have h' : ¬ x.toNat < p.brkBase.toNat := h
    omega

-- ---------------------------------------------------------------------------
-- Faults on the heap
-- ---------------------------------------------------------------------------

/-- The handler finds no present leaf entry, or the walk is complete. -/
theorem getPteInPml4_cases (m : Machine) (r : Nat) (a : BitVec 64) :
    getPteInPml4 m r a = none ∨
      ∃ pt, getPteInPml4 m r a = some (pt, ptIdx a) ∧
        ∃ x y z, walk m r a = [x, y, z, m.mem pt (ptIdx a)] := by
  unfold getPteInPml4 walk vpath
  cases h4 : isPresent (m.mem r (pml4Idx a)) with
  | false => simp
  | true =>
    have hc4 := tableChild_present (n := 3) (by decide) h4 (Or.inl (by decide))
    simp only [trail, hc4]
    generalize frameOf (m.mem r (pml4Idx a)) = pdpt
    cases h3 : isPresent (m.mem pdpt (pdptIdx a)) with
    | false => simp
    | true =>
      cases hh3 : isHuge (m.mem pdpt (pdptIdx a)) with
      | true => simp
      | false =>
        have hc3 := tableChild_present (n := 2) (by decide) h3 (Or.inr hh3)
        simp only [hc3]
        generalize frameOf (m.mem pdpt (pdptIdx a)) = pd
        cases h2 : isPresent (m.mem pd (pdIdx a)) with
        | false => simp
        | true =>
          cases hh2 : isHuge (m.mem pd (pdIdx a)) with
          | true => simp
          | false =>
            have hc2 := tableChild_present (n := 1) (by decide) h2 (Or.inr hh2)
            simp [hc2]

theorem served_or_mapped {m : Machine} {p : Process} {a : BitVec 64} (h0 : p.brkBase ≠ 0#64)
    (hlo : p.brkBase ≤ a) (hhi : a < p.brk) :
    heapFaultServed m p a = true ∨
      ((walk m p.pml4 a).length = 4 ∧ ¬ Broken (walk m p.pml4 a)) := by
  have hguard : (p.brkBase != 0#64 && decide (p.brkBase ≤ a) && decide (a < p.brk)) = true := by
    simp [h0, hlo, hhi]
  unfold heapFaultServed
  rw [hguard, Bool.true_and]
  rcases getPteInPml4_cases m p.pml4 a with h | ⟨pt, h, x, y, z, hw⟩
  · exact Or.inl (by rw [h])
  · rw [h]
    cases hP : isPresent (m.mem pt (ptIdx a)) with
    | false => exact Or.inl (by simp [hP])
    | true =>
      refine Or.inr ⟨by rw [hw]; rfl, not_broken_of_last [x, y, z] hw hP⟩

-- ---------------------------------------------------------------------------
-- The outcomes of a call
-- ---------------------------------------------------------------------------

/-- What the memory looks like after a call that set the break to `brk`. -/
structure Outcome (s : BrkState) (m' : Machine) (base brk : BitVec 64) : Prop where
  steady : Steady m' s.proc.pml4
  fate : ∀ w, s.heap w ∨ NewlyMapped s.machine m' s.proc.pml4 w → HeapFate m' s.proc.pml4 brk w
  writable : ∀ va, PageAligned va → base.toNat ≤ va.toNat → va.toNat < brk.toNat →
    (walk m' s.proc.pml4 va).length = 4 → ¬ Broken (walk m' s.proc.pml4 va) →
    UserWritable (walk m' s.proc.pml4 va)

section Outcome

variable {s : BrkState} {m' : Machine} {r : Nat} {base brk : BitVec 64}

theorem HeapClear.writable {m : Machine} {va : BitVec 64} (h : HeapClear m r va)
    (hlen : (walk m r va).length = 4) (hb : ¬ Broken (walk m r va)) : UserWritable (walk m r va) := by
  intro e he
  have hU := h.2 hlen hb e he
  exact ⟨hU.1, hU.2, (h.1.1 e he).1 hU.1⟩

/-- A call that leaves the memory alone. -/
theorem outcome_quiet (hS : Steady s.machine s.proc.pml4)
    (hfate : ∀ w, s.heap w → HeapFate s.machine s.proc.pml4 brk w)
    (hclear : ∀ va, PageAligned va → base.toNat ≤ va.toNat → va.toNat < brk.toNat →
      HeapClear s.machine s.proc.pml4 va) : Outcome s s.machine base brk := by
  refine ⟨hS, fun w hw => hfate w (hw.resolve_right fun hn => hn.2.2.2 hn.2.2.1), ?_⟩
  intro va hal hlo hhi hlen hb
  exact (hclear va hal hlo hhi).writable hlen hb

/-- A call that grew the heap by some of the pages `vas`, all below the new break. -/
theorem outcome_grown {vas : List (BitVec 64)} (hG : Grown s.machine m' s.proc.pml4 vas)
    (hvas : ∀ va ∈ vas, PageAligned va ∧ va.toNat < brk.toNat) (hbrk : brk.toNat ≤ 2 ^ 48)
    (hfate : ∀ w, s.heap w → PageAligned w ∧ w.toNat < 2 ^ 48 ∧
      (Broken (walk s.machine s.proc.pml4 w) ∨ HeapPage (walk s.machine s.proc.pml4 w)))
    (hkept : ∀ w, s.heap w → HeapPage (walk s.machine s.proc.pml4 w) →
      HeapPage (walk m' s.proc.pml4 w) → ¬ w ∈ vas → w.toNat < brk.toNat)
    (hclear : ∀ va, PageAligned va → base.toNat ≤ va.toNat → va.toNat < brk.toNat →
      HeapClear s.machine s.proc.pml4 va) : Outcome s m' base brk := by
  -- a page outside `vas` has only grown
  have hout : ∀ w, PageAligned w → w.toNat < 2 ^ 48 → w ∉ vas →
      Grows (walk s.machine s.proc.pml4 w) (walk m' s.proc.pml4 w) := by
    intro w hal h48 hw
    refine hG.other w fun va hva hpn => hw ?_
    obtain ⟨hal', hlt⟩ := hvas va hva
    rw [eq_of_pageNumber hal hal' h48 (by omega) hpn]
    exact hva
  refine ⟨hG.steady, fun w hw => ?_, fun va hal hlo hhi hlen hb => ?_⟩
  · rcases hw with hw | ⟨hal, h48, h0, hne⟩
    · obtain ⟨hal, h48, hfw⟩ := hfate w hw
      refine ⟨hal, h48, ?_⟩
      by_cases hin : w ∈ vas
      · rcases hG.pages w with hg | ⟨-, hp⟩
        · rcases hfw with hbw | hpw
          · exact Or.inl (hg.broken_iff.mpr hbw)
          · exact Or.inr ⟨(hvas w hin).2, hpw.grows hg⟩
        · exact Or.inr ⟨(hvas w hin).2, hp⟩
      · have hg := hout w hal h48 hin
        rcases hfw with hbw | hpw
        · exact Or.inl (hg.broken_iff.mpr hbw)
        · exact Or.inr ⟨hkept w hw hpw (hpw.grows hg) hin, hpw.grows hg⟩
    · -- a page that was mapped by the call is one of `vas`
      have hng : ¬ Grows (walk s.machine s.proc.pml4 w) (walk m' s.proc.pml4 w) := by
        intro hg
        rcases hg.walk with hadd | ⟨-, hb⟩
        · rw [vmmGetPhys_eq, walkPhys_of_forall₂ hadd, ← vmmGetPhys_eq] at hne
          exact hne h0
        · exact hne (getPhys_broken hb)
      have hin : w ∈ vas := by
        by_contra hin
        exact hng (hout w hal h48 hin)
      exact ⟨hal, h48, Or.inr ⟨(hvas w hin).2, ((hG.pages w).resolve_left hng).2⟩⟩
  · rcases hG.pages va with hg | ⟨-, hp⟩
    · have hb₀ : ¬ Broken (walk s.machine s.proc.pml4 va) := fun h => hb (hg.broken_iff.mpr h)
      have hadd := hg.walk.resolve_right fun h => hb h.2
      exact ((hclear va hal hlo hhi).writable (hadd.length_eq.trans hlen) hb₀).addsUser hadd
    · exact hp.1

/-- A call that gave the pages `vas` back. -/
theorem outcome_shrunk {vas : List (BitVec 64)} (hS : Steady s.machine s.proc.pml4)
    (hR : Released s.machine m' s.proc.pml4 vas)
    (htab : ∀ va ∈ vas, ¬ IsTable s.machine s.proc.pml4 (frameAt s.machine s.proc.pml4 va))
    (hfate : ∀ w, s.heap w → PageAligned w ∧ w.toNat < 2 ^ 48 ∧
      (Broken (walk s.machine s.proc.pml4 w) ∨ HeapPage (walk s.machine s.proc.pml4 w)))
    (hkept : ∀ w, s.heap w → HeapPage (walk s.machine s.proc.pml4 w) → ¬ w ∈ vas →
      w.toNat < brk.toNat)
    (hclear : ∀ va, PageAligned va → base.toNat ≤ va.toNat → va.toNat < brk.toNat →
      HeapClear s.machine s.proc.pml4 va) : Outcome s m' base brk := by
  have hcleared : ∀ w, Cleared s.machine s.proc.pml4 vas w → Broken (walk m' s.proc.pml4 w) := by
    intro w hc
    rw [hR.cleared w hc]
    match hw : walk s.machine s.proc.pml4 w, hc.1 with
    | [a, b, c, e], _ => exact ⟨0#64, by simp, by decide⟩
  have hsteady : Steady m' s.proc.pml4 := by
    refine ⟨by rw [hR.geo]; exact hS.covers, by rw [hR.geo]; exact hS.physical, hR.distinct, ?_⟩
    rintro f ⟨hbit, hprot⟩ ⟨q, hq⟩
    rw [hR.tables q] at hq
    have hnot := mt (hR.bits f).mpr (by rw [hbit]; simp)
    by_cases hvis : Visited s.machine s.proc.pml4 vas f
    · obtain ⟨va, hva, -, rfl⟩ := hvis
      exact htab va hva ⟨q, hq⟩
    · refine hS.fresh f ⟨?_, by rw [← hR.geo]; exact hprot⟩ ⟨q, hq⟩
      cases hb : bitmapTest s.machine.pmm f with
      | false => rfl
      | true => exact absurd ⟨hb, fun h => hvis h.1⟩ hnot
  refine ⟨hsteady, fun w hw => ?_, fun va hal hlo hhi hlen hb => ?_⟩
  · rcases hw with hw | ⟨-, -, h0, hne⟩
    · obtain ⟨hal, h48, hfw⟩ := hfate w hw
      refine ⟨hal, h48, ?_⟩
      by_cases hc : Cleared s.machine s.proc.pml4 vas w
      · exact Or.inl (hcleared w hc)
      · rw [hR.kept w hc]
        rcases hfw with hbw | hpw
        · exact Or.inl hbw
        · refine Or.inr ⟨hkept w hw hpw fun hin => hc ?_, hpw⟩
          refine ⟨hpw.smallPage, w, hin, rfl, ?_⟩
          rw [vmmGetPhys_eq]
          exact hpw.walkPhys_ne_zero w
    · by_cases hc : Cleared s.machine s.proc.pml4 vas w
      · exact absurd (getPhys_broken (hcleared w hc)) hne
      · rw [vmmGetPhys_eq, hR.kept w hc, ← vmmGetPhys_eq] at hne
        exact absurd h0 hne
  · have hc : ¬ Cleared s.machine s.proc.pml4 vas va := fun hc => hb (hcleared va hc)
    rw [hR.kept va hc] at hlen hb ⊢
    exact (hclear va hal hlo hhi).writable hlen hb

end Outcome

-- ---------------------------------------------------------------------------
-- One call
-- ---------------------------------------------------------------------------

/-- A call sets the break to `b` and leaves the memory `m'`. -/
structure BrkSets (s : BrkState) (p : Process) (m' : Machine) (b : BitVec 64) : Prop where
  base : p.brkBase.toNat ≤ b.toNat
  canonical : b.toNat ≤ 2 ^ 48
  growth : b.toNat ≤ p.brk.toNat + brkMaxGrow.toNat + pageSize
  memory : Outcome s m' p.brkBase b

section Call

variable {s : BrkState} {p : Process} {addr : BitVec 64}

/-- The heap pages that are still mapped lie below the old break. -/
theorem BrkInv.lt_brk (hI : BrkInv s) {w : BitVec 64} (hw : s.heap w)
    (hp : HeapPage (walk s.machine s.proc.pml4 w)) : PageAligned w ∧ w.toNat < s.proc.brk.toNat := by
  obtain ⟨hal, -, hb | ⟨hlt, -⟩⟩ := hI.fate w hw
  · exact absurd hb hp.1.not_broken
  · exact ⟨hal, hlt⟩

theorem BrkInv.kind (hI : BrkInv s) {w : BitVec 64} (hw : s.heap w) :
    PageAligned w ∧ w.toNat < 2 ^ 48 ∧
      (Broken (walk s.machine s.proc.pml4 w) ∨ HeapPage (walk s.machine s.proc.pml4 w)) := by
  obtain ⟨hal, h48, hf⟩ := hI.fate w hw
  exact ⟨hal, h48, hf.imp_right fun h => h.2⟩

/-- A query. -/
theorem brkSets_query (hI : BrkInv s) (hp : BreakOk p) (hle : s.proc.brk.toNat ≤ p.brk.toNat)
    (hclear : ∀ va, PageAligned va → p.brkBase.toNat ≤ va.toNat → va.toNat < p.brk.toNat →
      HeapClear s.machine s.proc.pml4 va) : BrkSets s p s.machine p.brk := by
  refine ⟨hp.base, hp.canonical, by omega, outcome_quiet hI.steady (fun w hw => ?_) hclear⟩
  obtain ⟨hal, h48, hf⟩ := hI.fate w hw
  exact ⟨hal, h48, hf.imp_right fun h => ⟨by omega, h.2⟩⟩

/-- No page of the heap at or above the new break is kept at the end of the old one. -/
theorem BrkInv.lt_of_heapPage (hI : BrkInv s) (hle : s.proc.brk.toNat ≤ p.brk.toNat)
    (hok : BrkTargetOk s.machine p addr) (hpml4 : p.pml4 = s.proc.pml4) {w : BitVec 64}
    (hw : s.heap w) (hpage : HeapPage (walk s.machine s.proc.pml4 w))
    (hge : p.brk.toNat / 4096 * 4096 ≤ w.toNat) : w.toNat < addr.toNat := by
  obtain ⟨hal, hlt⟩ := hI.lt_brk hw hpage
  have hal' := (pageAligned_iff _).mp hal
  have hfl := toNat_pageFloor p.brk
  by_contra hnot
  rcases hok.last (by omega) with h | h
  · rw [pageAligned_iff] at h
    omega
  · have hwb : w = pageFloor p.brk := BitVec.eq_of_toNat_eq (by omega)
    rw [← hwb, hpml4] at h
    exact hpage.1.not_broken h

variable (hI : BrkInv s) (hp : BreakOk p) (hle : s.proc.brk.toNat ≤ p.brk.toNat)
  (hok : BrkTargetOk s.machine p addr)
  (hclear : ∀ va, PageAligned va → p.brkBase.toNat ≤ va.toNat → va.toNat < addr.toNat →
    HeapClear s.machine s.proc.pml4 va)

include hI hp hle hok hclear

/-- A call that stays on the page of the old break. -/
theorem brkSets_same (hpml4 : p.pml4 = s.proc.pml4)
    (heq : (brkTarget p addr).toNat = (pageFloor p.brk).toNat) :
    BrkSets s p s.machine addr := by
  refine ⟨hok.base, hok.canonical, hok.growth, outcome_quiet hI.steady (fun w hw => ?_) hclear⟩
  obtain ⟨hal, h48, hf⟩ := hI.fate w hw
  refine ⟨hal, h48, hf.imp_right fun h => ⟨?_, h.2⟩⟩
  have ht := toNat_brkTarget hp hok.canonical
  rw [heq, toNat_pageFloor] at ht
  by_cases hlo : p.brk.toNat / 4096 * 4096 ≤ w.toNat
  · exact hI.lt_of_heapPage hle hok hpml4 hw h.2 hlo
  · have hbase := hok.base
    have hal' := (pageAligned_iff _).mp hal
    have hb := (pageAligned_iff _).mp hp.aligned
    omega

/-- A call that gives pages back. -/
theorem brkSets_shrink (hpml4 : p.pml4 = s.proc.pml4)
    (hlt : (brkTarget p addr).toNat < (pageFloor p.brk).toNat)
    (htab : ∀ va ∈ pagesBetween (brkTarget p addr) (pageFloor p.brk),
      ¬ IsTable s.machine s.proc.pml4 (frameAt s.machine s.proc.pml4 va)) :
    BrkSets s p (releasePages s.proc.pml4 s.machine (pagesBetween (brkTarget p addr) (pageFloor p.brk)))
      addr := by
  have hT := pageAligned_brkTarget hp.aligned addr
  have ht := toNat_brkTarget hp hok.canonical
  rw [toNat_pageFloor] at hlt
  have hbase := hok.base
  have hR := releasePages_spec (r := s.proc.pml4) hI.steady.distinct
    fun v (hv : v ∈ pagesBetween (brkTarget p addr) (pageFloor p.brk)) =>
      pageAligned_pagesBetween hT hv
  refine ⟨hok.base, hok.canonical, hok.growth,
    outcome_shrunk hI.steady hR htab (fun w hw => hI.kind hw) (fun w hw hpage hout => ?_) hclear⟩
  rw [mem_pagesBetween hT (pageAligned_pageFloor _), toNat_pageFloor] at hout
  obtain ⟨hal, -⟩ := hI.lt_brk hw hpage
  by_cases hlo : p.brk.toNat / 4096 * 4096 ≤ w.toNat
  · exact hI.lt_of_heapPage hle hok hpml4 hw hpage hlo
  have hal' := (pageAligned_iff _).mp hal
  have hb := (pageAligned_iff _).mp hp.aligned
  have hout' : ¬ ((brkTarget p addr).toNat ≤ w.toNat ∧ w.toNat < p.brk.toNat / 4096 * 4096) :=
    fun h => hout ⟨hal, h⟩
  omega

/-- A call that asks for more pages: all of them, or those below the first one
that finds no frame. -/
theorem brkSets_grow (hgt : (pageFloor p.brk).toNat < (brkTarget p addr).toNat) :
    (∃ m', growPages s.proc.pml4 s.machine (pagesBetween (pageFloor p.brk) (brkTarget p addr)) =
      (m', none) ∧ BrkSets s p m' addr) ∨
    ∃ m' va, growPages s.proc.pml4 s.machine (pagesBetween (pageFloor p.brk) (brkTarget p addr)) =
      (m', some va) ∧ BrkSets s p m' va := by
  have hT := pageAligned_brkTarget hp.aligned addr
  have ht := toNat_brkTarget hp hok.canonical
  have hF := pageAligned_pageFloor p.brk
  have hb := (pageAligned_iff _).mp hp.aligned
  have hpb := hp.base
  have hcan := hok.canonical
  have hmem : ∀ va ∈ pagesBetween (pageFloor p.brk) (brkTarget p addr),
      PageAligned va ∧ p.brk.toNat / 4096 * 4096 ≤ va.toNat ∧ va.toNat < addr.toNat ∧
        va.toNat < p.brk.toNat / 4096 * 4096 + 2 ^ 24 := by
    intro va hva
    rw [mem_pagesBetween hF hT] at hva
    rw [toNat_pageFloor] at hgt hva
    have hal := (pageAligned_iff _).mp hva.1
    exact ⟨hva.1, by omega⟩
  rw [toNat_pageFloor] at hgt
  have hgrow : brkMaxGrow.toNat = 2 ^ 24 := rfl
  rcases growPages_spec hI.steady (fun va hva => by
      obtain ⟨hal, hlo, hhi, -⟩ := hmem va hva
      exact (hclear va hal (by omega) hhi).1) with
    ⟨m', hm', hG⟩ | ⟨m', va, before, after, hm', hsplit, hG, h0⟩
  · refine Or.inl ⟨m', hm', hok.base, hok.canonical, hok.growth,
      outcome_grown hG (fun va hva => ⟨(hmem va hva).1, (hmem va hva).2.2.1⟩) hok.canonical
        (fun w hw => hI.kind hw) (fun w hw hpage _ _ => ?_) hclear⟩
    obtain ⟨hal, hltw⟩ := hI.lt_brk hw hpage
    have hal' := (pageAligned_iff _).mp hal
    omega
  · obtain ⟨hal, hlo, hhi, hcap⟩ := hmem va (by rw [hsplit]; simp)
    have hbefore : ∀ v ∈ before, PageAligned v ∧ v.toNat < va.toNat := by
      intro v hv
      refine ⟨(hmem v (by rw [hsplit]; simp [hv])).1, ?_⟩
      have hpw := pairwise_pagesBetween (pageFloor p.brk) (brkTarget p addr)
      rw [hsplit, List.pairwise_append] at hpw
      exact hpw.2.2 v hv va (by simp)
    refine Or.inr ⟨m', va, hm', by omega, by omega, by omega,
      outcome_grown hG hbefore (by omega) (fun w hw => hI.kind hw) (fun w hw hpage hpage' _ => ?_)
        fun v hv hlo' hhi' => hclear v hv hlo' (by omega)⟩
    obtain ⟨halw, hltw⟩ := hI.lt_brk hw hpage
    -- a heap page at or above `va` can only be `va` itself, and that one is not mapped
    by_contra hge
    have hw' := (pageAligned_iff _).mp halw
    have hva' := (pageAligned_iff _).mp hal
    have hwva : w = va := BitVec.eq_of_toNat_eq (by omega)
    subst hwva
    rw [vmmGetPhys_eq] at h0
    exact hpage'.walkPhys_ne_zero w h0

end Call

/-- **One call.** Every allowed call sets a break and memory that are in order. -/
theorem sysBrk_sets {s : BrkState} {rnd addr : BitVec 64} (hI : BrkInv s)
    (hA : BrkAllowed s (.brk rnd addr)) :
    ∃ m' b v, sysBrk rnd s.machine (some s.proc) addr =
        (m', some { brkInit rnd s.proc with brk := b }, v) ∧
      BrkSets s (brkInit rnd s.proc) m' b := by
  obtain ⟨hok, hclear, htab⟩ := hA
  obtain ⟨hp, -, hle⟩ := breakOk_brkInit rnd hI.break_ok
  have hpml4 := brkInit_pml4 rnd s.proc
  simp only [BrkShrinks, brkRange] at htab
  simp only [sysBrk, if_neg hI.pml4]
  generalize brkInit rnd s.proc = p at *
  by_cases h0 : addr = 0#64
  · rw [if_pos h0]
    rw [if_pos h0] at hclear
    exact ⟨s.machine, p.brk, p.brk.toInt, rfl, brkSets_query hI hp hle hclear⟩
  · rw [if_neg h0]
    rw [if_neg h0] at hclear
    by_cases hgt : (pageFloor p.brk).toNat < (brkTarget p addr).toNat
    · rw [if_pos (show brkTarget p addr > pageFloor p.brk from hgt), hpml4]
      rcases brkSets_grow hI hp hle (hok h0) hclear hgt with ⟨m', hm', hset⟩ | ⟨m', va, hm', hset⟩
      · rw [hm']
        exact ⟨m', addr, addr.toInt, rfl, hset⟩
      · rw [hm']
        exact ⟨m', va, va.toInt, rfl, hset⟩
    · rw [if_neg (show ¬ brkTarget p addr > pageFloor p.brk from hgt)]
      by_cases hlt : brkTarget p addr < pageFloor p.brk
      · rw [if_pos hlt, hpml4]
        exact ⟨_, addr, addr.toInt, rfl,
          brkSets_shrink hI hp hle (hok h0) hclear hpml4 hlt (htab ⟨h0, hlt⟩)⟩
      · rw [if_neg hlt]
        have hlt' : ¬ (brkTarget p addr).toNat < (pageFloor p.brk).toNat := hlt
        exact ⟨s.machine, addr, addr.toInt, rfl,
          brkSets_same hI hp hle (hok h0) hclear hpml4 (by omega)⟩

-- ---------------------------------------------------------------------------
-- Runs
-- ---------------------------------------------------------------------------

theorem brkStep_inv (s : BrkState) (op : BrkOp) (hI : BrkInv s) (hA : BrkAllowed s op) :
    BrkInv (brkStep s op) := by
  cases op with
  | brk rnd addr =>
    obtain ⟨m', b, v, heq, hset⟩ := sysBrk_sets hI hA
    obtain ⟨hp, hne, -⟩ := breakOk_brkInit rnd hI.break_ok
    have hpml4 := brkInit_pml4 rnd s.proc
    simp only [brkStep, heq, Option.getD_some]
    refine ⟨?_, ?_, ⟨hp.aligned, hset.base, hset.canonical, fun h => absurd h hne⟩, ?_⟩
    · show (brkInit rnd s.proc).pml4 ≠ 0
      rw [hpml4]
      exact hI.pml4
    · show Steady m' (brkInit rnd s.proc).pml4
      rw [hpml4]
      exact hset.memory.steady
    · intro w hw
      show HeapFate m' (brkInit rnd s.proc).pml4 b w
      rw [hpml4]
      exact hset.memory.fate w hw
  | elsewhere pmm =>
    obtain ⟨hcov, hphys, hfresh⟩ := hA
    exact ⟨hI.pml4, ⟨hcov, hphys, hI.steady.distinct, hfresh⟩, hI.break_ok, hI.fate⟩

theorem brkStep_callOk {s : BrkState} {rnd addr : BitVec 64} (hI : BrkInv s)
    (hA : BrkAllowed s (.brk rnd addr)) : BrkCallOk s rnd (brkStep s (.brk rnd addr)) := by
  obtain ⟨m', b, v, heq, hset⟩ := sysBrk_sets hI hA
  obtain ⟨hp, hne, -⟩ := breakOk_brkInit rnd hI.break_ok
  have hpml4 := brkInit_pml4 rnd s.proc
  simp only [brkStep, heq, Option.getD_some]
  obtain ⟨p, hpd⟩ : ∃ p, brkInit rnd s.proc = p := ⟨_, rfl⟩
  rw [hpd] at hset hp hne hpml4 ⊢
  refine ⟨hset.base, by rw [hpd]; exact hset.growth, fun a hlo hhi => ?_, fun w hw hge => ?_⟩
  · rcases served_or_mapped (m := m') (p := { p with brk := b }) hne hlo hhi with h | ⟨hlen, hb⟩
    · exact Or.inr h
    · left
      have hfl := toNat_pageFloor a
      have hpn : pageNumber a = pageNumber (pageFloor a) := by
        rw [pageNumber, pageNumber, hfl]
        omega
      have hlo' : p.brkBase.toNat ≤ a.toNat := hlo
      have hhi' : a.toNat < b.toNat := hhi
      have hal := (pageAligned_iff _).mp hp.aligned
      rw [show ({ p with brk := b } : Process).pml4 = s.proc.pml4 from hpml4] at hlen hb ⊢
      rw [walk_congr hpn] at hlen hb ⊢
      exact hset.memory.writable (pageFloor a) (pageAligned_pageFloor a) (by omega) (by omega) hlen hb
  · obtain ⟨-, -, hb | ⟨hlt, -⟩⟩ := hset.memory.fate w hw
    · show ¬ UserPage m' p.pml4 w
      rw [hpml4]
      exact hb.not_userWalk
    · have hge' : b.toNat ≤ w.toNat := hge
      omega

/-- A process that has not called `sys_brk` yet. -/
theorem brkInv_fresh {m : Machine} {p : Process} (hp : p.pml4 ≠ 0) (hS : Steady m p.pml4)
    (hbase : p.brkBase = 0#64) (hbrk : p.brk = 0#64) : BrkInv ⟨m, p, fun _ => False⟩ := by
  refine ⟨hp, hS, ⟨?_, ?_, ?_, fun _ => hbrk⟩, fun _ h => h.elim⟩
  · rw [hbase]
    decide
  · rw [hbase, hbrk]
  · rw [hbrk]
    decide

/--
**The program break.** Start from a process that has not called `sys_brk` yet
and run any sequence of calls, with frames taken and returned by others in
between and any call meeting a full memory. If every call was allowed, then
after each of them the break is at or above its base, at most `BRK_MAX_GROW`
and a page above the last one, every page below it is writable by the user or
served on first touch, and every page the heap mapped at or above it is gone.
-/
theorem brk_run_ok {m : Machine} {p : Process} (hp : p.pml4 ≠ 0) (hS : Steady m p.pml4)
    (hbase : p.brkBase = 0#64) (hbrk : p.brk = 0#64) (ops : List BrkOp)
    (hops : Run.Allowed brkStep BrkAllowed ⟨m, p, fun _ => False⟩ ops) (rnd addr : BitVec 64)
    (hcall : BrkAllowed (Run.run brkStep ⟨m, p, fun _ => False⟩ ops) (.brk rnd addr)) :
    BrkCallOk (Run.run brkStep ⟨m, p, fun _ => False⟩ ops) rnd
      (Run.run brkStep ⟨m, p, fun _ => False⟩ (ops ++ [.brk rnd addr])) := by
  have hI := Run.inv_run brkStep_inv ops _ (brkInv_fresh hp hS hbase hbrk) hops
  rw [Run.run_append]
  exact brkStep_callOk hI hcall

theorem lowMachine_steady : Steady lowMachine 20 := by
  obtain ⟨-, hT, hp⟩ := lowTables_tree
  have hch : tableChild (3 - [(0 : Fin 512), 0].length) 0x83#64 =
      tableChild (3 - [(0 : Fin 512), 0].length) (lowTables 22 0) := by decide
  refine ⟨lowMachine_ready.covers, by decide, lowMachine_ready.distinct, ?_⟩
  rintro f hf ⟨q, hq⟩
  have hlt : f < 16 := Nat.lt_of_lt_of_le hf.lt (by decide)
  have hq' : tableAt tableChild lowTables 3 20 q = some f := by
    rw [← lowTables_tree.1.tableAt_relabel hp hch q]
    exact hq
  have := (hT f).mp ⟨q, hq'⟩
  omega

/-- The first call, a query, and then half a page of heap. -/
theorem brk_run_ok_low :
    BrkCallOk (Run.run brkStep ⟨lowMachine, lowProcess, fun _ => False⟩ [.brk 0#64 0#64]) 0#64
      (Run.run brkStep ⟨lowMachine, lowProcess, fun _ => False⟩
        [.brk 0#64 0#64, .brk 0#64 0x40000800#64]) := by
  refine brk_run_ok (by decide) lowMachine_steady rfl rfl [.brk 0#64 0#64] ⟨⟨?_, ?_, ?_⟩, trivial⟩
    0#64 0x40000800#64 ⟨?_, ?_, ?_⟩
  · exact fun h => absurd rfl h
  · intro va _ hlo hhi
    exact absurd (Nat.lt_of_le_of_lt hlo hhi) (by decide)
  · exact fun h => absurd rfl h.1
  · exact fun _ => ⟨by decide, by decide, by decide, fun h => absurd h (by decide)⟩
  · intro va hal hlo hhi
    have hlo' : 0x40000000 ≤ va.toNat := hlo
    have hhi' : va.toNat < 0x40000800 := hhi
    rw [pageAligned_iff] at hal
    obtain rfl : va = 0x40000000#64 := BitVec.eq_of_toNat_eq (by simp; omega)
    have hwalk : walk lowMachine 20 0x40000000#64 = [0x15003#64, 0#64] := by decide
    show HeapClear lowMachine 20 0x40000000#64
    have hb : Broken [0x15003#64, 0#64] := ⟨0#64, by simp, by decide⟩
    rw [HeapClear, hwalk]
    refine ⟨⟨fun e he => ?_, fun _ => hb⟩, fun _ h => absurd hb h⟩
    rcases List.mem_cons.mp he with rfl | he
    · exact ⟨by decide, by decide⟩
    · rw [List.mem_singleton.mp he]
      exact ⟨by decide, by decide⟩
  · exact fun h => absurd h.2 (by decide)

/-- A break below the base is recorded as it was asked for. -/
theorem brk_below_base :
    ¬ BrkCallOk ⟨lowMachine, lowProcess, fun _ => False⟩ 0#64
      (brkStep ⟨lowMachine, lowProcess, fun _ => False⟩ (.brk 0#64 1#64)) :=
  fun h => absurd h.base (by decide)

end Lestra
