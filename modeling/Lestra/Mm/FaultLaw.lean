import Lestra.Mm.PageFault
import Lestra.Mm.VmmView
import Lestra.Syscall.Brk

/-!
# Page faults — what they keep

A fault that is resolved must not lose a page: `DataKept` compares the pages that
were present before with what the process sees at them afterwards. A copy may
take the place of a copy-on-write page. Every other branch maps a fresh page, and
the growth of the stack does not look whether there is one already.
-/

namespace Lestra

open Word64 Radix

/-- Every page that was present is still there with its content, as far as it showed data: a
page of the kernel's window onto physical memory may show free frames and tables. A frame is
put at a page only where none was, or as a private copy. -/
structure DataKept (m m' : Machine) (p : Process) (faultAddr errorCode : BitVec 64) : Prop where
  kept : ∀ w, PageHere m p.pml4 w → DataFrame m p.pml4 (frameAt m p.pml4 w) →
    PageHere m' p.pml4 w ∧ m'.mem (frameAt m' p.pml4 w) = m.mem (frameAt m p.pml4 w)
  added : ∀ w, PageHere m p.pml4 w → frameAt m' p.pml4 w = frameAt m p.pml4 w ∨
    ((cowEntry m p faultAddr errorCode).isSome = true ∧ pageNumber w = pageNumber faultAddr)

/-- Where the handler returns, it has kept the data of process `c`. -/
def FaultKeepsData (k : Kernel) (c : Fin maxProcs) (faultAddr errorCode : BitVec 64) : Prop :=
  ∀ k', pageFaultHandler k faultAddr errorCode = .resumes k' →
    DataKept k.machine k'.machine (k.sched.procs c) faultAddr errorCode

-- ---------------------------------------------------------------------------
-- What the handler can do
-- ---------------------------------------------------------------------------

/-- One of the three branches that map a fresh page is taken. -/
def mapsFresh (m : Machine) (p : Process) (faultAddr errorCode : BitVec 64) : Bool :=
  (cowEntry m p faultAddr errorCode).isNone &&
    ((userSpaceFault faultAddr errorCode && (growsStack p faultAddr || missesStack m p faultAddr)) ||
      (faultUser errorCode && heapFaultServed m p faultAddr))

/-- How the handler comes to return. -/
inductive Resumed (k : Kernel) (c : Fin maxProcs) (faultAddr errorCode : BitVec 64) : Kernel → Prop
  | cow {pte m} (hpte : cowEntry k.machine (k.sched.procs c) faultAddr errorCode = some pte)
      (hm : resolveCow k.machine (k.sched.procs c).pml4 faultAddr pte = some m) :
      Resumed k c faultAddr errorCode { k with machine := m }
  | grow {m} (hcow : cowEntry k.machine (k.sched.procs c) faultAddr errorCode = none)
      (huser : userSpaceFault faultAddr errorCode = true)
      (hgrow : growsStack (k.sched.procs c) faultAddr = true)
      (hm : mapFreshPage k.machine (k.sched.procs c).pml4 faultAddr = (m, true)) :
      Resumed k c faultAddr errorCode { k with
        machine := m
        sched := k.sched.modify c fun p => { p with stackBottom := pageFloor faultAddr } }
  | miss {m} (hcow : cowEntry k.machine (k.sched.procs c) faultAddr errorCode = none)
      (huser : userSpaceFault faultAddr errorCode = true)
      (hmiss : missesStack k.machine (k.sched.procs c) faultAddr = true)
      (hm : mapFreshPage k.machine (k.sched.procs c).pml4 faultAddr = (m, true)) :
      Resumed k c faultAddr errorCode { k with machine := m }
  | heap {m} (hcow : cowEntry k.machine (k.sched.procs c) faultAddr errorCode = none)
      (huser : faultUser errorCode = true)
      (hheap : heapFaultServed k.machine (k.sched.procs c) faultAddr = true)
      (hm : mapFreshPage k.machine (k.sched.procs c).pml4 faultAddr = (m, true)) :
      Resumed k c faultAddr errorCode { k with machine := m }
  | signalled {m} (hm : m = k.machine ∨
        mapFreshPage k.machine (k.sched.procs c).pml4 faultAddr = (m, false)) :
      Resumed k c faultAddr errorCode { k with
        machine := m, sched := (signalKill k.sched (k.sched.procs c).pid sigsegv).1 }

section Handler

variable {k k' : Kernel} {c : Fin maxProcs} {faultAddr errorCode : BitVec 64}

theorem faultUnhandled_resumes (h : faultUnhandled k c = .resumes k') :
    k' = { k with sched := (signalKill k.sched (k.sched.procs c).pid sigsegv).1 } := by
  unfold faultUnhandled at h
  dsimp only at h
  split at h
  · exact absurd h (by simp)
  · exact (FaultEnd.resumes.inj h).symm

theorem resumed_of_handler (hcur : k.sched.current = some c)
    (h : pageFaultHandler k faultAddr errorCode = .resumes k') :
    Resumed k c faultAddr errorCode k' := by
  simp only [pageFaultHandler, hcur] at h
  split at h
  · next pte hpte =>
    split at h
    · exact absurd h (by simp)
    · next m hm => exact FaultEnd.resumes.inj h ▸ .cow hpte hm
  · next hcow =>
    rcases hfresh : mapFreshPage k.machine (k.sched.procs c).pml4 faultAddr with ⟨m, ok⟩
    simp only [hfresh] at h
    split at h
    · next hg =>
      rw [Bool.and_eq_true] at hg
      cases ok with
      | false => exact absurd h (by simp)
      | true => exact FaultEnd.resumes.inj h ▸ .grow hcow hg.1 hg.2 hfresh
    · split at h
      · next hs =>
        rw [Bool.and_eq_true] at hs
        cases ok with
        | false => exact absurd h (by simp)
        | true => exact FaultEnd.resumes.inj h ▸ .miss hcow hs.1 hs.2 hfresh
      · split at h
        · next hu =>
          split at h
          · next hh =>
            cases ok with
            | false => exact faultUnhandled_resumes h ▸ .signalled (.inr hfresh)
            | true => exact FaultEnd.resumes.inj h ▸ .heap hcow hu hh hfresh
          · exact faultUnhandled_resumes h ▸ .signalled (.inl rfl)
        · exact absurd h (by simp)

/-- A branch that maps a fresh page returns where there is a frame for it. -/
theorem handler_mapsFresh {m : Machine} (hcur : k.sched.current = some c)
    (hmaps : mapsFresh k.machine (k.sched.procs c) faultAddr errorCode = true)
    (hm : mapFreshPage k.machine (k.sched.procs c).pml4 faultAddr = (m, true)) :
    ∃ k', pageFaultHandler k faultAddr errorCode = .resumes k' ∧ k'.machine = m := by
  simp only [mapsFresh, Bool.and_eq_true, Bool.or_eq_true, Option.isNone_iff_eq_none] at hmaps
  obtain ⟨hcow, hmaps⟩ := hmaps
  simp only [pageFaultHandler, hcur, hcow, hm, Bool.not_true, Bool.false_eq_true, if_false, if_true]
  by_cases hg : (userSpaceFault faultAddr errorCode && growsStack (k.sched.procs c) faultAddr) = true
  · rw [if_pos hg]
    exact ⟨_, rfl, rfl⟩
  by_cases hs : (userSpaceFault faultAddr errorCode &&
      missesStack k.machine (k.sched.procs c) faultAddr) = true
  · rw [if_neg hg, if_pos hs]
    exact ⟨_, rfl, rfl⟩
  · rw [Bool.and_eq_true] at hg hs
    have hheap := hmaps.resolve_left fun h => h.2.elim (fun h' => hg ⟨h.1, h'⟩) fun h' => hs ⟨h.1, h'⟩
    rw [← Bool.and_eq_true] at hg hs
    rw [if_neg hg, if_neg hs, if_pos hheap.1, if_pos hheap.2]
    exact ⟨_, rfl, rfl⟩

/-- Signalling a fault changes the memory at most by a failed allocation. -/
theorem Resumed.mapsFresh_or (h : Resumed k c faultAddr errorCode k') :
    (∃ pte, cowEntry k.machine (k.sched.procs c) faultAddr errorCode = some pte ∧
      resolveCow k.machine (k.sched.procs c).pml4 faultAddr pte = some k'.machine) ∨
    (mapsFresh k.machine (k.sched.procs c) faultAddr errorCode = true ∧
      mapFreshPage k.machine (k.sched.procs c).pml4 faultAddr = (k'.machine, true)) ∨
    k'.machine = k.machine ∨
      mapFreshPage k.machine (k.sched.procs c).pml4 faultAddr = (k'.machine, false) := by
  cases h with
  | cow hpte hm => exact .inl ⟨_, hpte, hm⟩
  | grow hcow huser hgrow hm => exact .inr (.inl ⟨by simp [mapsFresh, hcow, huser, hgrow], hm⟩)
  | miss hcow huser hmiss hm => exact .inr (.inl ⟨by simp [mapsFresh, hcow, huser, hmiss], hm⟩)
  | heap hcow huser hheap hm => exact .inr (.inl ⟨by simp [mapsFresh, hcow, huser, hheap], hm⟩)
  | signalled hm => exact .inr (.inr hm)

end Handler

-- ---------------------------------------------------------------------------
-- Copy-on-write
-- ---------------------------------------------------------------------------

section Cow

variable {m m' : Machine} {r pt : Nat} {a v : BitVec 64} {i : Fin 512}

theorem pageNumber_pageFloor (a : BitVec 64) : pageNumber (pageFloor a) = pageNumber a := by
  rw [pageNumber, pageNumber, toNat_pageFloor]
  omega

/-- The leaf table of a complete walk, entry by entry. -/
theorem leafTable_eq_some {mem : Nat → Fin 512 → BitVec 64} {x y z : Fin 512} :
    tableAt tableChild mem 3 r [x, y, z] = some pt ↔
      tableChild 3 (mem r x) = some (frameOf (mem r x)) ∧
      tableChild 2 (mem (frameOf (mem r x)) y) = some (frameOf (mem (frameOf (mem r x)) y)) ∧
      tableChild 1 (mem (frameOf (mem (frameOf (mem r x)) y)) z) = some pt := by
  simp only [tableAt_cons, Option.bind_eq_some_iff, tableAt_nil, Option.some.injEq]
  constructor
  · rintro ⟨u, hu, u', hu', u'', hu'', rfl⟩
    obtain rfl := (tableChild_eq_some hu).2.2
    obtain rfl := (tableChild_eq_some hu').2.2
    exact ⟨hu, hu', hu''⟩
  · rintro ⟨hu, hu', hu''⟩
    exact ⟨_, hu, _, hu', _, hu'', rfl⟩

/-- The entry that the handler finds is the leaf entry of the walk. -/
theorem getPteInPml4_table (h : getPteInPml4 m r a = some (pt, i)) :
    tableAt tableChild m.mem 3 r [pml4Idx a, pdptIdx a, pdIdx a] = some pt ∧ i = ptIdx a := by
  unfold getPteInPml4 at h
  dsimp only at h
  split at h
  · exact absurd h (by simp)
  next h4 =>
    split at h
    · exact absurd h (by simp)
    next h3 =>
      split at h
      · exact absurd h (by simp)
      next hh3 =>
        split at h
        · exact absurd h (by simp)
        next h2 =>
          split at h
          · exact absurd h (by simp)
          next hh2 =>
            simp only [Bool.not_eq_true', Bool.not_eq_false, Bool.not_eq_true] at h4 h3 hh3 h2 hh2
            obtain ⟨rfl, rfl⟩ := Prod.mk.inj (Option.some.inj h)
            exact ⟨leafTable_eq_some.mpr ⟨tableChild_present (by decide) h4 (.inl (by decide)),
              tableChild_present (by decide) h3 (.inr hh3),
              tableChild_present (by decide) h2 (.inr hh2)⟩, rfl⟩

theorem cowEntry_table {p : Process} {errorCode : BitVec 64}
    (h : cowEntry m p a errorCode = some (pt, i)) :
    tableAt tableChild m.mem 3 p.pml4 [pml4Idx a, pdptIdx a, pdIdx a] = some pt ∧ i = ptIdx a := by
  unfold cowEntry at h
  split at h
  · split at h
    · exact absurd h (by simp)
    · next pt' i' hpte =>
      split at h
      · obtain ⟨rfl, rfl⟩ := Prod.mk.inj (Option.some.inj h)
        exact getPteInPml4_table hpte
      · exact absurd h (by simp)
  · exact absurd h (by simp)

theorem frameOf_cowPhys (e : BitVec 64) : (cowPhys e).toNat / pageSize = frameOf e := rfl

theorem cowFlags_mask (e : BitVec 64) : cowFlags e &&& ptePhysMask = 0#64 := by
  have hswap : ∀ x y z : BitVec 64, x &&& y &&& z = x &&& z &&& y := fun x y z => by
    rw [BitVec.and_assoc, BitVec.and_comm y, BitVec.and_assoc]
  rw [cowFlags, BitVec.and_or_distrib_right, hswap, BitVec.and_or_distrib_right, BitVec.and_assoc,
    BitVec.and_assoc, show 0xFFF#64 &&& ptePhysMask = 0#64 by decide,
    show 0xFF00000000000000#64 &&& ptePhysMask = 0#64 by decide,
    show pageWritable &&& ptePhysMask = 0#64 by decide]
  simp

theorem isPresent_cowFlags (e : BitVec 64) : isPresent (cowFlags e) = isPresent e := by
  simp [isPresent_eq, cowFlags, pageCow, pageWritable]

theorem isHuge_cowFlags (e : BitVec 64) : isHuge (cowFlags e) = isHuge e := by
  simp [isHuge_eq, cowFlags, pageCow, pageWritable]

/-- A store to the leaf entry of a copy-on-write page that shows the same content keeps all data. -/
theorem dataKept_storeLeaf {p : Process} {errorCode e : BitVec 64} (hP : Paged m p.pml4)
    (hcow : (cowEntry m p a errorCode).isSome = true)
    (hpt : tableAt tableChild m.mem 3 p.pml4 [pml4Idx a, pdptIdx a, pdIdx a] = some pt)
    {mem : Nat → Fin 512 → BitVec 64} (hmem : ∀ t, IsTable m p.pml4 t → mem t = m.mem t)
    (hdata : ∀ g, DataFrame m p.pml4 g → mem g = m.mem g) (pmm : Pmm)
    (hpres : isPresent (m.mem pt (ptIdx a)) = true → isPresent e = true)
    (hhuge : isHuge e = false)
    (hcontent : DataFrame m p.pml4 (frameOf (m.mem pt (ptIdx a))) →
      write mem pt (ptIdx a) e (frameOf e) = m.mem (frameOf (m.mem pt (ptIdx a)))) :
    DataKept m ⟨pmm, write mem pt (ptIdx a) e⟩ p a errorCode := by
  obtain ⟨hother, x, y, z, hold, hnew⟩ := walk_storeLeaf hP.steady hpt hmem e pmm
  have hframe : ∀ {n : Machine} {e' : BitVec 64}, walk n p.pml4 a = [x, y, z, e'] →
      isPresent e' = true → isHuge e' = false → frameAt n p.pml4 a = frameOf e' := by
    intro n e' hw hP' hH'
    have hsmall : smallPage (walk n p.pml4 a) = true := by
      rw [hw]
      simp [smallPage, hP', hH']
    obtain ⟨e'', he'', hf⟩ := smallPage_frame hsmall
    rw [hw] at he''
    obtain rfl := Option.some.inj he''
    rw [frameAt, vmmGetPhys_eq, (hf a).1]
  -- a page other than that of `a` shows the same frame
  have hoff : ∀ w, pageNumber w ≠ pageNumber a →
      frameAt ⟨pmm, write mem pt (ptIdx a) e⟩ p.pml4 w = frameAt m p.pml4 w := fun w hw => by
    rw [frameAt, frameAt, vmmGetPhys_eq, vmmGetPhys_eq, hother w hw]
  refine ⟨fun w hw hg => ?_, fun w _ => ?_⟩
  · by_cases hpn : pageNumber w = pageNumber a
    · have hP₀ : isPresent (m.mem pt (ptIdx a)) = true := by
        rw [PageHere, walk_congr hpn, hold] at hw
        by_contra hno
        exact hw ⟨m.mem pt (ptIdx a), by simp, by simpa using hno⟩
      have hold' := hframe hold hP₀ (hP.leaves a _ (by rw [hold]; rfl))
      have hnew' := hframe hnew (hpres hP₀) hhuge
      rw [frameAt_congr hpn, hold'] at hg
      rw [frameAt_congr (m := m) hpn, hold', frameAt_congr hpn, hnew', PageHere, walk_congr hpn]
      exact ⟨not_broken_of_last [x, y, z] hnew (hpres hP₀), hcontent hg⟩
    · have hne : frameAt m p.pml4 w ≠ pt := by
        intro h
        exact hg.2 (h ▸ ⟨_, hpt⟩)
      rw [PageHere, hother w hpn, hoff w hpn]
      exact ⟨hw, (write_table_of_ne hne).trans (hdata _ hg)⟩
  · by_cases hpn : pageNumber w = pageNumber a
    · exact .inr ⟨hcow, hpn⟩
    · exact .inl (hoff w hpn)

/-- The copy-on-write branch keeps all data. -/
theorem resolveCow_kept {p : Process} {errorCode : BitVec 64} {pte : Nat × Fin 512}
    (hP : Paged m p.pml4) (hpte : cowEntry m p a errorCode = some pte)
    (hm : resolveCow m p.pml4 a pte = some m') : DataKept m m' p a errorCode := by
  obtain ⟨pt, i⟩ := pte
  obtain ⟨hpt, rfl⟩ := cowEntry_table hpte
  have hcow : (cowEntry m p a errorCode).isSome = true := by rw [hpte]; rfl
  have htab : IsTable m p.pml4 pt := ⟨_, hpt⟩
  have hsmall : isHuge (m.mem pt (ptIdx a)) = false :=
    hP.leaves a _ (walk_getElem? (p := [pml4Idx a, pdptIdx a, pdIdx a]) hpt rfl)
  unfold resolveCow at hm
  dsimp only at hm
  generalize he : m.mem pt (ptIdx a) = e at hm hsmall
  split at hm
  · -- the sole owner keeps its frame
    obtain rfl := Option.some.inj hm
    have hframe : frameOf (cowPhys e ||| cowFlags e) = frameOf e := by
      rw [frameOf_or _ _ (cowFlags_mask e), frameOf, physOf, cowPhys, BitVec.and_assoc]
      rfl
    have hphys : isHuge (cowPhys e) = false := by simp [isHuge_eq, cowPhys]
    refine dataKept_storeLeaf hP hcow hpt (fun _ _ => rfl) (fun _ _ => rfl) m.pmm (fun h => ?_) ?_
      fun hg => ?_
    · rw [isPresent_or, isPresent_cowFlags, ← he, h, Bool.or_true]
    · rw [isHuge_or, isHuge_cowFlags, hsmall, hphys]
      rfl
    · rw [he] at hg ⊢
      have hne : frameOf e ≠ pt := by
        rintro rfl
        exact hg.2 htab
      rw [hframe, write_table_of_ne hne]
  · rcases pmmAllocPage_cases hP.steady.covers with ⟨f, hg⟩ | h0
    swap
    · rw [Machine.allocPage_fail h0] at hm
      exact absurd hm (by simp)
    have hf0 : f * 4096 ≠ 0 := by
      have := hg.pos
      omega
    have hft : ¬ IsTable m p.pml4 f := hP.steady.fresh f hg.avail
    have hfpt : f ≠ pt := by
      rintro rfl
      exact hft htab
    simp only [Machine.allocPage_grant hg, hf0, if_false, Machine.fillPage, pageSize_eq,
      Nat.mul_div_cancel f (show 0 < 4096 by decide), Machine.setEntry] at hm
    have hmem : ∀ (row : Fin 512 → BitVec 64) t, IsTable m p.pml4 t →
        Function.update m.starved.mem f row t = m.mem t := fun row t ht => update_congr hft t ht
    -- the way down to the leaf table, read again in the new memory
    have hpath : vpath (pageFloor a) = vpath a := (vpath_eq_iff a _).mpr (pageNumber_pageFloor a)
    simp only [vpath, List.cons.injEq, and_true] at hpath
    have hpt' : ∀ row, tableAt tableChild (Function.update m.starved.mem f row) 3 p.pml4
        [pml4Idx a, pdptIdx a, pdIdx a] = some pt := fun row =>
      (tableAt_congr (hmem row) _).trans hpt
    have hagain := fun row => (tableChild_eq_some (leafTable_eq_some.mp (hpt' row)).2.2).2.2
    rw [hpath.1, hpath.2.1, hpath.2.2.1, hpath.2.2.2, ← hagain] at hm
    obtain rfl := Option.some.inj hm
    have hlt : f < 2 ^ 40 := Nat.lt_of_lt_of_le hg.avail.lt hP.steady.physical
    refine dataKept_storeLeaf hP hcow hpt (hmem _) (fun g hd => ?_) _ (fun _ => ?_) ?_ fun _ => ?_
    · refine Function.update_of_ne ?_ _ _
      rintro rfl
      exact hd.1 hg.avail
    · rw [isPresent_or, show isPresent pagePresent = true by decide, Bool.or_true]
    · rw [isHuge_or, isHuge_or, isHuge_ofNat_frame, isHuge_cowFlags, hsmall]
      decide
    · rw [frameOf_leaf hlt (cowFlags_mask e), write_table_of_ne hfpt, Function.update_self, he]
      rfl

end Cow

-- ---------------------------------------------------------------------------
-- Fresh pages
-- ---------------------------------------------------------------------------

section Fresh

variable {m m' : Machine} {r f : Nat} {a : BitVec 64} {p : Process} {errorCode : BitVec 64}

/-- A machine that shows the same pages has kept the data. -/
theorem SameView.dataKept (h : SameView m m' p.pml4) : DataKept m m' p a errorCode := by
  have hframe : ∀ w, frameAt m' p.pml4 w = frameAt m p.pml4 w := fun w => by
    rw [frameAt, frameAt, h.phys w]
  refine ⟨fun w hw hg => ?_, fun w _ => .inl (hframe w)⟩
  rw [hframe]
  exact ⟨fun hb => hw ((h.broken w).mp hb), (h.data _ hg).2⟩

/-- The page that the handler maps: no frame for it, no way down to it, or it shows a new frame. -/
theorem mapFreshPage_cases (hP : Paged m r) (a : BitVec 64) :
    ((pmmAllocPage m.pmm).2 = 0 ∧ mapFreshPage m r a = (m.starved, false)) ∨
    ∃ f m', Grants m.pmm f ∧ mapFreshPage m r a = (m', true) ∧
      ((SameView m m' r ∧ (PageHere m r a → (walk m r a).length = 2 ∨
          ((walk m r a).length = 3 ∧ (pmmAllocPage (pmmAllocPage m.pmm).1).2 = 0))) ∨
        ((∀ w, pageNumber w = pageNumber a → PageHere m' r w ∧ frameAt m' r w = f) ∧
          (∀ w, pageNumber w ≠ pageNumber a →
            (Broken (walk m' r w) ↔ Broken (walk m r w)) ∧ frameAt m' r w = frameAt m r w) ∧
          (∀ g, DataFrame m r g → m'.mem g = m.mem g) ∧
          (PageHere m r a → (walk m r a).length = 4 ∨
            ((walk m r a).length = 3 ∧ (pmmAllocPage (pmmAllocPage m.pmm).1).2 ≠ 0)))) := by
  rcases pmmAllocPage_cases hP.steady.covers with ⟨f, hg⟩ | h0
  swap
  · exact .inl ⟨h0, by simp [mapFreshPage, Machine.allocPage_fail h0]⟩
  have hf0 : f * 4096 ≠ 0 := by
    have := hg.pos
    omega
  have hft : ¬ IsTable m r f := hP.steady.fresh f hg.avail
  have hlt : f < 2 ^ 40 := Nat.lt_of_lt_of_le hg.avail.lt hP.steady.physical
  have hzero : m.starved.zeroPage (f * 4096) =
      ⟨(pmmAllocPage m.pmm).1, Function.update m.mem f fun _ => 0#64⟩ := by
    rw [Machine.zeroPage, Machine.fillPage, pageSize_eq, Nat.mul_div_cancel f (by decide)]
    rfl
  have htab : ∀ u, IsTable m r u → Function.update m.mem f (fun _ => 0#64) u = m.mem u :=
    fun u hu => update_congr hft u hu
  -- the zeroed frame is no page and no table
  have hV : SameView m ⟨(pmmAllocPage m.pmm).1, Function.update m.mem f fun _ => 0#64⟩ r := by
    refine sameView_alloc hP.steady hP.aligned htab fun g hd => Function.update_of_ne ?_ _ _
    rintro rfl
    exact hd.1 hg.avail
  have hwalk : walk ⟨(pmmAllocPage m.pmm).1, Function.update m.mem f fun _ => 0#64⟩ r a =
      walk m r a := trail_congr htab (vpath a)
  refine .inr ⟨f, _, hg, by simp only [mapFreshPage, Machine.allocPage_grant hg, hf0, if_false]; rfl, ?_⟩
  rw [hzero]
  have hpn := pageNumber_pageFloor a
  rcases map_page_view (v := pageFloor a) hV.steady hV.aligned hlt
    (show heapPageFlags &&& ptePhysMask = 0#64 by decide) (by decide) with hG | hN
  · refine .inl ⟨hV.trans hG.view, fun hhere => ?_⟩
    have hstop := hG.stopped
    rw [PageHere, walk_congr hpn, hwalk] at hstop
    exact hstop hhere
  · refine .inr ⟨fun w hw => hN.here w (hw.trans hpn.symm), fun w hw => ?_, fun g hd => ?_, fun hhere => ?_⟩
    · have hw' : pageNumber w ≠ pageNumber (pageFloor a) := fun h => hw (h.trans hpn)
      refine ⟨(hN.broken w hw').trans (hV.broken w), ?_⟩
      rw [frameAt, frameAt, hN.phys w hw', hV.phys w]
    · obtain ⟨hd', hmem⟩ := hV.data g hd
      exact (hN.data g hd').trans hmem
    · have hreach := hN.reached
      rw [PageHere, walk_congr hpn, hwalk] at hreach
      exact hreach hhere

/-- Mapping a fresh page of `v` puts another frame in the place of a present page: no 1 GB page is
in the way, there are frames for the page and for the pieces of a 2 MB page, and the page does not
happen to show the first of these frames already. -/
def Replaces (m : Machine) (r : Nat) (v : BitVec 64) : Prop :=
  PageHere m r v ∧ 3 ≤ (walk m r v).length ∧
    (nextFrames m.pmm (tablesMissing m r v + 1)).length = tablesMissing m r v + 1 ∧
    frameAt m r v ∉ nextFrames m.pmm 1

theorem nextFrames_two (hg : Grants m.pmm f) :
    (nextFrames m.pmm 2).length = 2 ↔ (pmmAllocPage (pmmAllocPage m.pmm).1).2 ≠ 0 := by
  rw [nextFrames_grant hg, List.length_cons, nextFrames]
  by_cases h0 : (pmmAllocPage (pmmAllocPage m.pmm).1).2 = 0
  · rw [if_pos h0]
    simp [h0]
  · rw [if_neg h0]
    simp [h0, nextFrames]

/-- A fresh page keeps all data exactly where it does not replace a page. -/
theorem mapFreshPage_kept_iff (hP : Paged m p.pml4) (hcow : cowEntry m p a errorCode = none)
    (hm : mapFreshPage m p.pml4 a = (m', true)) :
    DataKept m m' p a errorCode ↔ ¬ Replaces m p.pml4 a := by
  rcases mapFreshPage_cases hP a with ⟨-, hm'⟩ | ⟨f, m'', hg, hm', hcase⟩
  · rw [hm] at hm'
    exact absurd (Prod.mk.inj hm').2 (by simp)
  obtain rfl : m' = m'' := (Prod.mk.inj (hm.symm.trans hm')).1
  have hone : nextFrames m.pmm 1 = [f] := by rw [nextFrames_grant hg]; rfl
  rcases hcase with ⟨hV, hstop⟩ | ⟨hhere, hother, hdata, hreach⟩
  · refine iff_of_true hV.dataKept fun ⟨hpage, hlen, hframes, _⟩ => ?_
    rcases hstop hpage with h2 | ⟨h3, h0⟩
    · omega
    · rw [tablesMissing, h3] at hframes
      exact (nextFrames_two hg).mp hframes h0
  · constructor
    · rintro hK ⟨hpage, hrest⟩
      have hnew := hrest.2.2
      rcases hK.added a hpage with h | ⟨h, -⟩
      · rw [(hhere a rfl).2] at h
        exact hnew (by rw [hone, ← h]; simp)
      · rw [hcow] at h
        exact absurd h (by simp)
    · intro hno
      -- a page that was present showed the new frame already
      have hsame : ∀ w, pageNumber w = pageNumber a → PageHere m p.pml4 w →
          frameAt m p.pml4 w = f := by
        intro w hw hpage
        rw [frameAt_congr hw]
        rw [PageHere, walk_congr hw] at hpage
        by_contra hne
        refine hno ⟨hpage, ?_, ?_, by rw [hone]; simpa using hne⟩
        · rcases hreach hpage with h4 | ⟨h3, -⟩ <;> omega
        · rcases hreach hpage with h4 | ⟨h3, h0⟩
          · rw [tablesMissing, h4, hone]
            rfl
          · rw [tablesMissing, h3]
            exact (nextFrames_two hg).mpr h0
      refine ⟨fun w hw hd => ?_, fun w hw => .inl ?_⟩
      · by_cases hpn : pageNumber w = pageNumber a
        · rw [hsame w hpn hw] at hd
          exact absurd hg.avail hd.1
        · obtain ⟨hb, hf⟩ := hother w hpn
          rw [hf]
          exact ⟨fun h => hw (hb.mp h), hdata _ hd⟩
      · by_cases hpn : pageNumber w = pageNumber a
        · rw [(hhere w hpn).2, hsame w hpn hw]
        · exact (hother w hpn).2

end Fresh

-- ---------------------------------------------------------------------------
-- The law
-- ---------------------------------------------------------------------------

/-- The page below the bottom that `proc_create` records, as a randomised stack may have it. -/
def slidStackPage : BitVec 64 := 0x00007FFFFFDBF000#64

/-- A PML4 at frame 20 with one path down, to an empty leaf table at frame 23. -/
def stackTables : Nat → Fin 512 → BitVec 64 :=
  hangTable (hangTable (hangTable blankMem 20 255 21 7#64) 21 511 22 7#64) 22 510 23 7#64

theorem stackTables_tree : Distinct tableChild stackTables 3 20 ∧
    (∀ u, InTree tableChild stackTables 3 20 u ↔ ((u = 20 ∨ u = 21) ∨ u = 22) ∨ u = 23) ∧
    tableAt tableChild stackTables 3 20 [255, 511, 510] = some 23 := by
  have hF : TableFlags 7#64 := ⟨by decide, by decide, by decide⟩
  have hT0 : ∀ u, InTree tableChild blankMem 3 20 u ↔ u = 20 := fun u =>
    inTree_of_absent (blankMem_absent 20)
  obtain ⟨hD1, hT1, hp1⟩ := hangTable_tree (u := 21) (i := 255)
    (distinct_of_absent (blankMem_absent 20)) tableAt_nil (by decide) (blankMem_absent 20 255)
    (by rw [hT0]; decide) (by decide) hF
  obtain ⟨hD2, hT2, hp2⟩ := hangTable_tree (u := 22) (i := 511) hD1 hp1 (by decide)
    (by decide) (by rw [hT1, hT0]; decide) (by decide) hF
  obtain ⟨hD3, hT3, hp3⟩ := hangTable_tree (u := 23) (i := 510) hD2 hp2 (by decide)
    (by decide) (by rw [hT2, hT1, hT0]; decide) (by decide) hF
  refine ⟨hD3, fun u => ?_, hp3⟩
  rw [stackTables, hT3, hT2, hT1, hT0]

/-- Frame 24, full of 42s, mapped at the page as a user page without execute permission. -/
def stackedMachine : Machine where
  pmm := pmmInit smallLayout [⟨0, 0x10000, 1⟩]
  mem := write (Function.update stackTables 24 fun _ => 42#64) 23 447 0x8000000000018007#64

/-- Memory without huge entries is in order if its tables are. -/
theorem Steady.paged {m : Machine} {r : Nat} (hS : Steady m r)
    (hno : ∀ t i, isHuge (m.mem t i) = false) : Paged m r := by
  have hall : ∀ {w e : BitVec 64} {k : Nat}, (walk m r w)[k]? = some e → isHuge e = false := by
    intro w e k he
    obtain ⟨u, i, -, -, rfl⟩ := tableAt_of_trail_getElem? he
    exact hno u i
  exact ⟨hS, fun w e he _ hH => absurd (hall he) (by rw [hH]; simp), fun w e he => hall he⟩

theorem hangTable_small {mem : Nat → Fin 512 → BitVec 64} (h : ∀ t i, isHuge (mem t i) = false)
    {u t : Nat} {i : Fin 512} {flags : BitVec 64} (hf : isHuge flags = false) (t' : Nat)
    (j : Fin 512) : isHuge (hangTable mem t i u flags t' j) = false := by
  unfold hangTable
  by_cases h1 : t' = t ∧ j = i
  · obtain ⟨rfl, rfl⟩ := h1
    rw [write_self, isHuge_or, isHuge_ofNat_frame, hf]
    rfl
  · rw [write_of_ne (by tauto)]
    by_cases h2 : t' = u
    · rw [h2, Function.update_self]
      decide
    · rw [Function.update_of_ne h2]
      exact h t' j

theorem stackedMachine_tree : Distinct tableChild stackedMachine.mem 3 20 ∧
    ∀ u, IsTable stackedMachine 20 u → 20 ≤ u ∧ u ≤ 23 := by
  obtain ⟨hD, hT, hp⟩ := stackTables_tree
  have h24 : ¬ InTree tableChild stackTables 3 20 24 := by rw [hT]; decide
  have hpage : ∀ u, InTree tableChild stackTables 3 20 u →
      Function.update stackTables 24 (fun _ => 42#64) u = stackTables u := update_congr h24
  have htab := tableAt_congr hpage
  have hD' : Distinct tableChild (Function.update stackTables 24 fun _ => 42#64) 3 20 :=
    fun p q u hp hq => hD p q u ((htab p).symm.trans hp) ((htab q).symm.trans hq)
  have hp' := (htab _).trans hp
  have hch : tableChild (3 - [(255 : Fin 512), 511, 510].length) 0x8000000000018007#64 =
      tableChild (3 - [(255 : Fin 512), 511, 510].length)
        (Function.update stackTables 24 (fun _ => 42#64) 23 447) := by
    rw [show 3 - [(255 : Fin 512), 511, 510].length = 0 from rfl, tableChild_zero, tableChild_zero]
  refine ⟨hD'.relabel hp' hch, ?_⟩
  rintro u ⟨q, hq⟩
  have hin := (hT u).mp ⟨q, (htab q).symm.trans ((hD'.tableAt_relabel hp' hch q).symm.trans hq)⟩
  omega

theorem stackedMachine_paged : Paged stackedMachine 20 := by
  obtain ⟨hD, hT⟩ := stackedMachine_tree
  refine Steady.paged ⟨pmmGeometry_covers (by decide), by decide, hD, ?_⟩
    fun t i => ?_
  · intro f hf hin
    have hlt : f < 16 := Nat.lt_of_lt_of_le hf.lt (by decide)
    have := hT f hin
    omega
  · have htree : ∀ t i, isHuge (stackTables t i) = false := by
      have hblank : ∀ t i, isHuge (blankMem t i) = false := fun _ _ => by simp [blankMem, isHuge]
      exact hangTable_small (hangTable_small (hangTable_small hblank (by decide)) (by decide))
        (by decide)
    by_cases h1 : t = 23 ∧ i = 447
    · obtain ⟨rfl, rfl⟩ := h1
      exact (congrArg isHuge write_self).trans (by decide)
    · refine (congrArg isHuge (write_of_ne (by tauto))).trans ?_
      by_cases h2 : t = 24
      · rw [h2, Function.update_self]
        decide
      · rw [Function.update_of_ne h2]
        exact htree t i

/-- A process with these tables. -/
def stackedProcess : Process :=
  { zeroProcess with pid := 1, state := .running, pml4 := 20, stackBottom := userStackBottom }

def firstSlot : Fin maxProcs := ⟨0, maxProcs_pos⟩

def stackedKernel : Kernel where
  machine := stackedMachine
  bootPml4 := 0
  sched := { schedInit with procs := fun _ => stackedProcess, current := some firstSlot }
  pipes := pipeInit

end Lestra
