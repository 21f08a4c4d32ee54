import Lestra.Mm.Space

/-!
# Address spaces — teardown

What `vmm_destroy_address_space` gives back of an address space that
`create_user_address_space` built and user pages were mapped into.

* `Space.destroy` — a private address space is freed completely, every frame once;
* `mapUserPage_keeps` — mapping user pages above the first four PML4 slots keeps
  an address space private;
* `create_space` — a new address space is private if creation copied no kernel table.

Destruction skips the PML4 slots 0 to 3, where creation puts private copies of
the kernel's tables: these frames are lost.
-/

namespace Lestra

open Word64 Radix

-- ---------------------------------------------------------------------------
-- Mapping user pages
-- ---------------------------------------------------------------------------

/-- The two functions that map user pages. -/
inductive Mapper where
  | vmmMapPage
  | userMapPage
deriving DecidableEq, Repr

/-- A user page to be mapped: its flags have the user bit and neither address
bits nor `PAGE_HUGE`. -/
structure UserPageOp where
  mapper : Mapper
  virt : BitVec 64
  flags : BitVec 64
  content : Fin 512 → BitVec 64
  user : isUser flags = true
  mask : flags &&& ptePhysMask = 0#64
  small : isHuge flags = false

/-- How the ELF loader, `sys_brk`, the page-fault handler and `fork` map a user
page: allocate a frame, fill it, map it. Without a frame they do nothing. -/
def mapUserPage (pml4 : Nat) (m : Machine) (op : UserPageOp) : Machine :=
  let (m, phys) := m.allocPage
  if phys = 0 then m
  else
    let m := m.fillPage phys op.content
    match op.mapper with
    | .vmmMapPage => vmmMapPage m pml4 op.virt (BitVec.ofNat 64 phys) op.flags
    | .userMapPage => userMapPage m pml4 op.virt (BitVec.ofNat 64 phys) op.flags

/-- The mapping leaves no frame behind: there is no frame at all, or the page is
above the first four PML4 slots, there are frames for it and for every table its
path is missing, and `user_map_page` does not overwrite another page. -/
def LeavesNoFrame (pml4 : Nat) (m : Machine) (op : UserPageOp) : Prop :=
  (pmmAllocPage m.pmm).2 = 0 ∨
    (4 ≤ (pml4Idx op.virt).val ∧
      (nextFrames m.pmm (tablesMissing m pml4 op.virt + 1)).length =
        tablesMissing m pml4 op.virt + 1 ∧
      (op.mapper = .userMapPage → vmmGetPhys m pml4 op.virt = 0#64))

section Map

variable {m : Machine} {r f : Nat} {base : Nat → Prop} {v : BitVec 64}

/-- Filling a frame that is no table of the space is not seen by its walks. -/
theorem walk_fill (hf : ¬ Owned m r f)
    (row : Fin 512 → BitVec 64) (p : Pmm) (v : BitVec 64) :
    walk { pmm := p, mem := Function.update m.mem f row } r v = walk m r v := by
  refine trail_congr (update_congr ?_) (vpath v)
  rintro ⟨q, hq⟩
  exact hf ⟨q, tableAt_page_of_table hq⟩

/-- With frames for the missing tables every page of a private space is mappable. -/
theorem Space.mappable {hand : List Nat} (hS : Space m r base hand)
    (hn : (nextFrames m.pmm (tablesMissing m r v)).length = tablesMissing m r v) :
    Mappable m r v := by
  have hplain : ∀ k e, (walk m r v)[k]? = some e → 1 ≤ k → k ≤ 3 → isHuge e = false := by
    intro k e he h1 h3
    obtain ⟨t, i, ht, -, rfl⟩ := tableAt_of_trail_getElem? he
    have hlen : ((vpath v).take k).length = k := by
      rw [List.length_take, length_vpath]
      omega
    exact hS.plain _ t (tableAt_page_of_table ht) (by omega) (by omega) i
  refine ⟨hS.ready _, hn, fun e he _ => hplain 1 e he (by decide) (by decide), fun e he _ hH => ?_⟩
  rw [hplain 2 e he (by decide) (by decide)] at hH
  exact absurd hH (by simp)

theorem vmmGetPhys_leaf {pt : Nat}
    (hpt : tableAt tableChild m.mem 3 r [pml4Idx v, pdptIdx v, pdIdx v] = some pt) :
    vmmGetPhys m r v = entryPhys .pt (m.mem pt (ptIdx v)) v := by
  have hl := length_trail hpt
  rw [vmmGetPhys_eq, walk,
    show vpath v = [pml4Idx v, pdptIdx v, pdIdx v] ++ [ptIdx v] from rfl, trail_append hpt]
  obtain ⟨a, b, c, htr⟩ := List.length_eq_three.mp hl
  rw [htr]
  simp [trail, walkPhys]

/-- A page of a private space that translates to 0 is not mapped. -/
theorem Space.absent_of_getPhys {hand : List Nat} {pt : Nat} (hS : Space m r base hand)
    (hpt : tableAt tableChild m.mem 3 r [pml4Idx v, pdptIdx v, pdIdx v] = some pt)
    (h0 : vmmGetPhys m r v = 0#64) : isPresent (m.mem pt (ptIdx v)) = false := by
  cases hP : isPresent (m.mem pt (ptIdx v)) with
  | false => rfl
  | true =>
    have hpt' := tableAt_page_of_table hpt
    have hH := hS.plain _ pt hpt' (by simp) (by simp) (ptIdx v)
    have hown := owned_of_leaf hpt' rfl hP
    rw [vmmGetPhys_leaf hpt, entryPhys, if_pos hP, hH, if_neg (by simp)] at h0
    have hmask : m.mem pt (ptIdx v) &&& ptePhysMask = 0#64 := (BitVec.or_eq_zero_iff.mp h0).1
    refine absurd ?_ (hS.heldFrame (Or.inl hown)).pos
    rw [frameOf, physOf, hmask]
    rfl

theorem tableFlags_user (op : UserPageOp) :
    TableFlags ((op.flags &&& ~~~pageNx) ||| pagePresent) := by
  refine ⟨?_, ?_, ?_⟩
  · rw [BitVec.and_or_distrib_right, BitVec.and_assoc, BitVec.and_comm (~~~pageNx), ← BitVec.and_assoc,
      op.mask]
    decide
  · rw [isPresent_or, show isPresent pagePresent = true by decide, Bool.or_true]
  · have h := op.small
    rw [isHuge_eq] at h
    rw [isHuge_or, isHuge_eq, isHuge_eq, BitVec.getLsbD_and, h]
    decide

/-- **The step lemma.** A mapping that leaves no frame behind keeps the address
space private. -/
theorem mapUserPage_keeps {m : Machine} {op : UserPageOp} (hS : Space m r base [])
    (hop : LeavesNoFrame r m op) : Space (mapUserPage r m op) r base [] := by
  rcases pmmAllocPage_cases hS.covers with ⟨f, hg⟩ | h0
  · obtain ⟨hslot, hn, hfresh⟩ := hop.resolve_left hg.ne_zero
    rw [nextFrames_grant hg, List.length_cons, Nat.add_right_cancel_iff] at hn
    have hfo : ¬ Owned m r f := fun h => (hS.held f (Or.inl h)).1 hg.avail
    obtain ⟨m1, hm1⟩ : ∃ m1 : Machine,
        m1 = { m.starved with mem := Function.update m.mem f op.content } := ⟨_, rfl⟩
    have hS1 : Space m1 r base [f] := by
      rw [hm1]
      exact (hS.grant hg).fill (by simp) op.content
    have hwalk : walk m1 r op.virt = walk m r op.virt := by
      rw [hm1]
      exact walk_fill hfo op.content _ _
    have hmiss : tablesMissing m1 r op.virt = tablesMissing m r op.virt := by
      rw [tablesMissing, hwalk, tablesMissing]
    have hM : Mappable m1 r op.virt := hS1.mappable (by rw [hmiss, hm1]; exact hn)
    have hmap : mapUserPage r m op = match op.mapper with
        | .vmmMapPage => vmmMapPage m1 r op.virt (BitVec.ofNat 64 (f * 4096)) op.flags
        | .userMapPage => userMapPage m1 r op.virt (BitVec.ofNat 64 (f * 4096)) op.flags := by
      have h0 : f * 4096 ≠ 0 := by
        have := hg.pos
        omega
      simp only [mapUserPage, Machine.allocPage_grant hg, h0, if_false, Machine.fillPage, pageSize_eq,
        Nat.mul_div_cancel f (show 0 < 4096 by decide), hm1]
      rfl
    rw [hmap]
    cases hmp : op.mapper with
    | vmmMapPage =>
      obtain ⟨m2, pt, hm2, -, hpt, -⟩ := hM.openPath (tableFlags_vmm (isUser op.flags))
        (isUser op.flags)
      have hS2 := hS1.openPath (tableFlags_vmm (isUser op.flags)) hslot hm2
      simp only [vmmMapPage, hm2]
      exact hS2.installPte hpt rfl op.mask op.user op.small
    | userMapPage =>
      obtain ⟨m2, pt, hm2, -, hpt, hphys⟩ := hM.openPath (tableFlags_user op) (isUser op.flags)
      have hS2 := hS1.openPath (tableFlags_user op) hslot hm2
      have habs : isPresent (m2.mem pt (ptIdx op.virt)) = false := by
        refine hS2.absent_of_getPhys hpt ?_
        rw [hphys, vmmGetPhys_eq, hwalk, ← vmmGetPhys_eq]
        exact hfresh hmp
      simp only [userMapPage, hm2]
      exact hS2.setLeaf hpt rfl habs op.mask op.user op.small
  · have hmap : mapUserPage r m op = m.starved := by
      simp only [mapUserPage, Machine.allocPage_fail h0, if_true]
    rw [hmap]
    exact hS.starved h0

end Map

-- ---------------------------------------------------------------------------
-- Destruction
-- ---------------------------------------------------------------------------

/-- The tables and pages below table `t`, in the order in which they are freed. -/
def framesBelow (mem : Nat → Fin 512 → BitVec 64) (n t : Nat) : List Nat :=
  nodes pageChild (List.finRange 512) mem n t

section Destroy

variable {mem : Nat → Fin 512 → BitVec 64} {p : Pmm} {t : Nat}

theorem pmmFreePage_physOf (p : Pmm) (e : BitVec 64) :
    pmmFreePage p (physOf e) = freeFrame p (frameOf e) := by
  rw [freeFrame, physOf_eq]

/-- The frames below one entry, and the table or page it points to. -/
def entryFrames (mem : Nat → Fin 512 → BitVec 64) (n t : Nat) (i : Fin 512) : List Nat :=
  match pageChild (n + 1) (mem t i) with
  | some u => framesBelow mem n u ++ [u]
  | none => []

theorem framesBelow_succ (mem : Nat → Fin 512 → BitVec 64) (n t : Nat) :
    framesBelow mem (n + 1) t = (List.finRange 512).flatMap (entryFrames mem n t) := by
  rw [framesBelow, nodes]
  congr 1
  funext i
  unfold entryFrames
  cases pageChild (n + 1) (mem t i) <;> rfl

/-- A loop over entries, given what it does below each of them. -/
theorem foldl_freeEntries {n : Nat} (below : Nat → Pmm → Pmm) {visit : Pmm → Fin 512 → Pmm}
    {idx : List (Fin 512)}
    (hbelow : ∀ u p, HeldList p (framesBelow mem n u) →
      below u p = (framesBelow mem n u).foldl freeFrame p)
    (hnone : ∀ p i, pageChild (n + 1) (mem t i) = none → visit p i = p)
    (hsome : ∀ p i u, pageChild (n + 1) (mem t i) = some u →
      HeldList p (framesBelow mem n u ++ [u]) → visit p i = freeFrame (below u p) u)
    (hp : HeldList p (idx.flatMap (entryFrames mem n t))) :
    idx.foldl visit p = (idx.flatMap (entryFrames mem n t)).foldl freeFrame p := by
  refine foldl_free (fun i _ p hh => ?_) hp
  unfold entryFrames at hh ⊢
  cases hc : pageChild (n + 1) (mem t i) with
  | none => exact hnone p i hc
  | some u =>
    rw [hc] at hh
    rw [hsome p i u hc hh, hbelow u p hh.left, List.foldl_append]
    rfl

theorem freeLeaves_eq (hp : HeldList p (framesBelow mem 1 t)) :
    freeLeaves mem t p = (framesBelow mem 1 t).foldl freeFrame p := by
  rw [framesBelow_succ] at hp ⊢
  unfold freeLeaves forEntries
  refine foldl_freeEntries (n := 0) (fun _ p => p) (fun _ _ _ => rfl) ?_ ?_ hp
  · intro p i hc
    have hP : isPresent (mem t i) = false := by
      cases hP : isPresent (mem t i) with
      | false => rfl
      | true => simp [pageChild, hP] at hc
    simp [hP]
  · intro p i u hc hh
    cases hP : isPresent (mem t i) with
    | false => simp [pageChild, hP] at hc
    | true =>
      obtain rfl : frameOf (mem t i) = u := by simpa [pageChild, hP] using hc
      rw [if_pos rfl, physOf_eq]
      exact dropReference_eq (hh.2 _ (by simp))

/-- What a table entry without a table below looks like to the destroying loops. -/
theorem tableChild_eq_none {n : Nat} {e : BitVec 64} (hn : n ≠ 0) (h : tableChild n e = none) :
    isPresent e = false ∨ (n < 3 ∧ isHuge e = true) := by
  cases hP : isPresent e with
  | false => exact Or.inl rfl
  | true =>
    right
    by_contra hc
    have := tableChild_present hn hP (by
      rcases Nat.lt_or_ge n 3 with h3 | h3
      · exact Or.inr (by simpa [h3] using hc)
      · exact Or.inl h3)
    simp [h] at this

/-- The inner two loops of `free_pdpt_subtree` have the same shape. -/
theorem foldl_freeTables {n : Nat} (below : Nat → Pmm → Pmm) (hn : n = 1 ∨ n = 2)
    (hbelow : ∀ u p, HeldList p (framesBelow mem n u) →
      below u p = (framesBelow mem n u).foldl freeFrame p)
    (hp : HeldList p (framesBelow mem (n + 1) t)) :
    forEntries (fun p i =>
      if !isPresent (mem t i) then p
      else if isHuge (mem t i) then p
      else pmmFreePage (below (frameOf (mem t i)) p) (physOf (mem t i))) p =
    (framesBelow mem (n + 1) t).foldl freeFrame p := by
  have hchild : ∀ i, pageChild (n + 1) (mem t i) = tableChild n (mem t i) := by
    intro i
    rcases hn with rfl | rfl <;> rfl
  rw [framesBelow_succ] at hp ⊢
  unfold forEntries
  refine foldl_freeEntries below hbelow ?_ ?_ hp
  · intro p i hc
    rw [hchild] at hc
    rcases tableChild_eq_none (by omega) hc with hP | ⟨-, hH⟩
    · simp [hP]
    · simp [hH]
  · intro p i u hc hh
    rw [hchild] at hc
    obtain ⟨hP, hH, rfl⟩ := tableChild_eq_some hc
    simp only [hP, hH (by omega), Bool.not_true, Bool.false_eq_true, if_false, pmmFreePage_physOf]

theorem freePdEntries_eq (hp : HeldList p (framesBelow mem 2 t)) :
    freePdEntries mem t p = (framesBelow mem 2 t).foldl freeFrame p :=
  foldl_freeTables (freeLeaves mem) (Or.inl rfl) (fun _ _ => freeLeaves_eq) hp

theorem freePdptSubtree_eq {e : BitVec 64}
    (hp : HeldList p (framesBelow mem 3 (frameOf e) ++ [frameOf e])) :
    freePdptSubtree mem p (physOf e) =
      (framesBelow mem 3 (frameOf e) ++ [frameOf e]).foldl freeFrame p := by
  have hloop := foldl_freeTables (n := 2) (freePdEntries mem) (Or.inr rfl)
    (fun _ _ => freePdEntries_eq) hp.left
  unfold freePdptSubtree
  rw [List.foldl_append, pmmFreePage_physOf]
  exact congrArg (freeFrame · (frameOf e)) hloop

end Destroy

theorem lt_of_mem_take {i : Fin 512} {k : Nat} (hi : i ∈ (List.finRange 512).take k) :
    i.val < k := by
  obtain ⟨j, hj, rfl⟩ := List.mem_take_iff_getElem.mp hi
  simp
  omega

/-- **The frames of a private address space.** Its destruction frees its tables and
pages, each once, and then its root. -/
theorem Space.destroy_eq {m : Machine} {r : Nat} {base : Nat → Prop} (hS : Space m r base []) :
    HeldList m.pmm (framesBelow m.mem 4 r ++ [r]) ∧
      (∀ f, f ∈ framesBelow m.mem 4 r ++ [r] ↔ Owned m r f) ∧
      (vmmDestroyAddressSpace m r).pmm = (framesBelow m.mem 4 r ++ [r]).foldl freeFrame m.pmm := by
  have hall : ∀ i : Fin 512, i ∈ List.finRange 512 := List.mem_finRange
  have hmem : ∀ f, f ∈ framesBelow m.mem 4 r ++ [r] ↔ Owned m r f := by
    intro f
    rw [List.mem_append, List.mem_singleton, framesBelow, mem_nodes hall]
    constructor
    · rintro (⟨i, q, hq⟩ | rfl)
      · exact ⟨i :: q, hq⟩
      · exact inTree_root
    · rintro ⟨q, hq⟩
      cases q with
      | nil =>
        rw [tableAt_nil] at hq
        exact Or.inr (Option.some.inj hq).symm
      | cons i q => exact Or.inl ⟨i, q, hq⟩
  have hheld : HeldList m.pmm (framesBelow m.mem 4 r ++ [r]) := by
    refine ⟨?_, fun f hf => hS.heldFrame (Or.inl ((hmem f).mp hf))⟩
    rw [List.nodup_append]
    refine ⟨hS.distinct.nodup_nodes hall (List.nodup_finRange 512), by simp, fun a ha b hb hab => ?_⟩
    rw [List.mem_singleton] at hb
    obtain ⟨i, q, hq⟩ := (mem_nodes hall).mp ha
    rw [hab, hb] at hq
    exact List.cons_ne_nil i q (hS.distinct _ _ r hq tableAt_nil)
  refine ⟨hheld, hmem, ?_⟩
  -- the loop skips the first four entries, which are absent
  have hskip : framesBelow m.mem 4 r =
      ((List.finRange 512).drop 4).flatMap (entryFrames m.mem 3 r) := by
    rw [framesBelow_succ]
    nth_rewrite 1 [← List.take_append_drop 4 (List.finRange 512)]
    rw [List.flatMap_append]
    have hlow : ((List.finRange 512).take 4).flatMap (entryFrames m.mem 3 r) = [] := by
      rw [List.flatMap_eq_nil_iff]
      intro i hi
      rw [entryFrames, pageChild_absent (hS.low i (lt_of_mem_take hi))]
    rw [hlow, List.nil_append]
  have hr : r ≠ 0 := (hS.heldFrame (Or.inl inTree_root)).pos
  have hroot : ∀ p, pmmFreePage p (r * pageSize) = [r].foldl freeFrame p := fun p => by
    rw [pageSize_eq]
    rfl
  rw [vmmDestroyAddressSpace, if_neg hr, List.foldl_append, ← hroot]
  dsimp only
  rw [hskip] at hheld ⊢
  refine congrArg (pmmFreePage · (r * pageSize)) (foldl_freeEntries
    (fun u p => (framesBelow m.mem 3 u).foldl freeFrame p) (fun _ _ _ => rfl) ?_ ?_
    hheld.left)
  · intro p i hc
    rcases tableChild_eq_none (n := 3) (by decide) hc with hP | ⟨h3, -⟩
    · simp [hP]
    · exact absurd h3 (by decide)
  · intro p i u hc hh
    obtain ⟨hP, -, rfl⟩ := tableChild_eq_some (n := 3) hc
    rw [hP, if_neg (by simp), freePdptSubtree_eq hh, List.foldl_append]
    rfl

-- ---------------------------------------------------------------------------
-- Creation
-- ---------------------------------------------------------------------------

/-- Creation makes no private copy of a kernel table: the first four entries of
the boot PML4 are absent, or there is no frame for a copy. -/
def CopiesNothing (m : Machine) (boot : Nat) : Prop :=
  (∀ i : Fin 512, i.val < 4 → isPresent (m.mem boot i) = false) ∨ (nextFrames m.pmm 2).length ≤ 1

/-- What `pmm_init` establishes and every PMM operation keeps: the bitmap covers
the managed frames, these have 52-bit addresses, and frame 0 is reserved. -/
structure Pmm.Sound (p : Pmm) : Prop where
  covers : p.geo.Covers
  physical : p.geo.highestPfn ≤ 2 ^ 40
  zero : ¬ Avail p 0

theorem Pmm.Sound.no_avail {p : Pmm} (hp : p.Sound) (h0 : (pmmAllocPage p).2 = 0) (g : Nat) :
    ¬ Avail p g := by
  rcases pmmAllocPage_spec hp.covers with ⟨f, hA, -, hr, -⟩ | ⟨-, -, hno⟩
  · have hf : f = 0 := by omega
    exact absurd (hf ▸ hA) hp.zero
  · exact hno g

theorem alloc_of_no_avail {p : Pmm} (hg : p.geo.Covers) (hno : ∀ g, ¬ Avail p g) :
    (pmmAllocPage p).2 = 0 := by
  rcases pmmAllocPage_spec hg with ⟨f, hA, -⟩ | ⟨h0, -⟩
  · exact absurd hA (hno f)
  · exact h0

section Create

variable {m : Machine} {r f : Nat}

/-- An empty PML4 is a private address space. -/
theorem space_root (hm : m.pmm.Sound) (hg : Grants m.pmm f) :
    Space { m.starved with mem := Function.update m.mem f fun _ => 0#64 } f (Avail m.pmm) [] := by
  have hgeo : m.starved.pmm.geo = m.pmm.geo := hg.taken.geo
  have hzero : ∀ i, (Function.update m.mem f fun _ => 0#64) f i = 0#64 := fun i => by simp
  have htab : ∀ q t, tableAt pageChild (Function.update m.mem f fun _ => 0#64) 4 f q = some t →
      q = [] ∧ t = f := by
    intro q t hq
    cases q with
    | nil =>
      rw [tableAt_nil] at hq
      exact ⟨rfl, (Option.some.inj hq).symm⟩
    | cons i q =>
      rw [tableAt_cons, hzero i, pageChild_absent (by decide)] at hq
      simp at hq
  have hown : ∀ g, InTree pageChild (Function.update m.mem f fun _ => 0#64) 4 f g ↔ g = f := by
    intro g
    constructor
    · rintro ⟨q, hq⟩
      exact (htab q g hq).2
    · rintro rfl
      exact inTree_root
  refine
    { covers := hgeo ▸ hm.covers, physical := hgeo ▸ hm.physical, distinct := fun p q u hp hq => ?_,
      plain := fun q t hq h1 _ _ => ?_, leaves := fun q t hq h3 _ => ?_, low := fun j _ => ?_,
      base_iff := fun g => ?_, held := fun g hg' => ?_, apart := by simp, once := by simp,
      managed := fun g hA => ?_ }
  · rw [(htab p u hp).1, (htab q u hq).1]
  · rw [(htab q t hq).1] at h1
    simp at h1
  · rw [(htab q t hq).1] at h3
    simp at h3
  · dsimp only
    rw [hzero j]
    decide
  · show Avail m.pmm g ↔ Avail (pmmAllocPage m.pmm).1 g ∨ InTree pageChild _ 4 f g ∨ g ∈ []
    rw [hg.avail_iff g, hown g]
    by_cases hgf : g = f
    · subst hgf
      simp [hg.avail]
    · simp [hgf]
  · have hgf : g = f := (hown g).mp (hg'.resolve_right (by simp))
    subst hgf
    refine ⟨fun hA => ((hg.avail_iff g).mp hA).2 rfl, ?_⟩
    show (pmmAllocPage m.pmm).1.physRefcount g ≤ 1
    rw [hg.taken.refcount g, if_pos ⟨Nat.le_refl g, Nat.lt_succ_self g⟩]
  · rw [hgeo]
    refine ⟨?_, hA.lt, hA.2⟩
    rintro rfl
    exact hm.zero hA

theorem copyPml4Entry_cases {boot : Nat} {i : Fin 512} (hg : m.pmm.geo.Covers)
    (h : isPresent (m.mem boot i) = false ∨ ∀ g, ¬ Avail m.pmm g) :
    copyPml4Entry boot r m i = m ∨
      ((pmmAllocPage m.pmm).2 = 0 ∧ copyPml4Entry boot r m i = m.starved) := by
  cases hP : isPresent (m.mem boot i) with
  | false => exact Or.inl (by simp [copyPml4Entry, hP])
  | true =>
    have h0 := alloc_of_no_avail hg (h.resolve_left (by simp [hP]))
    exact Or.inr ⟨h0, by simp [copyPml4Entry, hP, deepCopyPdpt, Machine.allocPage_fail h0]⟩

theorem Space.sound {base : Nat → Prop} {hand : List Nat} (hS : Space m r base hand) :
    m.pmm.Sound :=
  ⟨hS.covers, hS.physical, hS.not_avail_zero⟩

/-- Every round of the loop leaves the space as it is. -/
theorem Space.foldl_copyPml4Entry {base : Nat → Prop} {boot : Nat} :
    ∀ {l : List (Fin 512)} {m : Machine}, Space m r base [] →
      ((∀ i : Fin 512, i.val < 4 → isPresent (m.mem boot i) = false) ∨ ∀ g, ¬ Avail m.pmm g) →
      (∀ i ∈ l, i.val < 4) → Space (l.foldl (copyPml4Entry boot r) m) r base []
  | [], _, hS, _, _ => hS
  | i :: l, m, hS, hquiet, hlow => by
    rw [List.foldl_cons]
    have hl : ∀ j ∈ l, j.val < 4 := fun j hj => hlow j (List.mem_cons_of_mem i hj)
    rcases copyPml4Entry_cases (r := r) hS.covers
      (hquiet.imp_left fun h => h i (hlow i (by simp))) with hc | ⟨h0, hc⟩
    · rw [hc]
      exact hS.foldl_copyPml4Entry hquiet hl
    · rw [hc]
      have hS' := hS.starved h0
      refine hS'.foldl_copyPml4Entry (Or.inr fun g hA => ?_) hl
      -- what is available after a failed allocation was available before
      have hb := (hS.base_iff g).mp ((hS'.base_iff g).mpr (Or.inl hA))
      exact hb.elim (hS.sound.no_avail h0 g) fun ho => (hS'.held g ho).1 hA

/-- A created address space is private if creation copied nothing. -/
theorem create_space {boot : Nat} (hm : m.pmm.Sound) (hcopy : CopiesNothing m boot)
    (hr : (createUserAddressSpace m boot).2 ≠ 0) :
    Space (createUserAddressSpace m boot).1 (createUserAddressSpace m boot).2 (Avail m.pmm) [] := by
  rcases pmmAllocPage_cases hm.covers with ⟨f, hg⟩ | h0
  · obtain ⟨m1, hm1⟩ : ∃ m1 : Machine,
        m1 = { m.starved with mem := Function.update m.mem f fun _ => 0#64 } := ⟨_, rfl⟩
    have hcreate : createUserAddressSpace m boot =
        (((List.finRange 512).take 4).foldl (copyPml4Entry boot f) m1, f) := by
      have h0 : f * 4096 ≠ 0 := by
        have := hg.pos
        omega
      simp only [createUserAddressSpace, Machine.allocPage_grant hg, h0, if_false, Machine.zeroPage,
        Machine.fillPage, pageSize_eq, Nat.mul_div_cancel f (show 0 < 4096 by decide), hm1]
      rfl
    have hS1 : Space m1 f (Avail m.pmm) [] := hm1 ▸ space_root hm hg
    have hquiet : (∀ i : Fin 512, i.val < 4 → isPresent (m1.mem boot i) = false) ∨
        ∀ g, ¬ Avail m1.pmm g := by
      rcases hcopy with h | h
      · refine Or.inl fun i hi => ?_
        rw [hm1]
        dsimp only
        by_cases hb : boot = f
        · rw [hb, Function.update_self]
          decide
        · rw [Function.update_of_ne hb]
          exact h i hi
      · right
        rw [nextFrames_grant hg, List.length_cons] at h
        have hfail : (pmmAllocPage m1.pmm).2 = 0 := by
          rw [hm1]
          show (pmmAllocPage (pmmAllocPage m.pmm).1).2 = 0
          by_contra hne
          rw [nextFrames, if_neg hne, List.length_cons] at h
          omega
        exact hS1.sound.no_avail hfail
    rw [hcreate]
    dsimp only
    exact hS1.foldl_copyPml4Entry hquiet fun i hi => lt_of_mem_take hi
  · exact absurd (by simp [createUserAddressSpace, Machine.allocPage_fail h0]) hr

end Create

-- ---------------------------------------------------------------------------
-- The life of an address space
-- ---------------------------------------------------------------------------

/--
**Teardown leaks nothing.** For every PMM state and every sequence that creates
an address space and maps user pages into it: when creation copied no kernel
table and every mapping left no frame behind, destroying the address space makes
exactly the frames available that were available before it was created. The
frames it frees are the ones that had become unavailable since, each freed once.
-/
theorem teardown_returns_all (m : Machine) (boot : Nat) (hm : m.pmm.Sound)
    (hcopy : CopiesNothing m boot) (hr : (createUserAddressSpace m boot).2 ≠ 0)
    (ops : List UserPageOp)
    (hops : Run.Allowed (mapUserPage (createUserAddressSpace m boot).2)
      (LeavesNoFrame (createUserAddressSpace m boot).2) (createUserAddressSpace m boot).1 ops) :
    let pml4 := (createUserAddressSpace m boot).2
    let used := Run.run (mapUserPage pml4) (createUserAddressSpace m boot).1 ops
    let gone := vmmDestroyAddressSpace used pml4
    (∀ f, Avail gone.pmm f ↔ Avail m.pmm f) ∧
      ∃ freed : List Nat, freed.Nodup ∧ (∀ f, f ∈ freed ↔ Avail m.pmm f ∧ ¬ Avail used.pmm f) ∧
        gone.pmm = freed.foldl freeFrame used.pmm := by
  intro pml4 used gone
  have hS : Space used pml4 (Avail m.pmm) [] :=
    Run.inv_run (I := fun m' => Space m' pml4 (Avail m.pmm) [])
      (fun _ _ hS hop => mapUserPage_keeps hS hop) ops _ (create_space hm hcopy hr) hops
  obtain ⟨hheld, hmem, hgone⟩ := hS.destroy_eq
  have hprot : ∀ f ∈ framesBelow used.mem 4 pml4 ++ [pml4],
      pmmIsProtected used.pmm.geo (mul f pageSize) = false := fun f hf =>
    (hS.managed f ((hS.base_iff f).mpr (Or.inr (Or.inl ((hmem f).mp hf))))).2.2
  have hbase : ∀ f, Avail m.pmm f ↔ Avail used.pmm f ∨ Owned used pml4 f := fun f => by
    rw [hS.base_iff f]
    simp
  refine ⟨fun f => ?_, _, hheld.1, fun f => ?_, hgone⟩
  · show Avail (vmmDestroyAddressSpace used pml4).pmm f ↔ _
    rw [hgone, avail_foldl_freeFrame hheld hprot f, hmem f, hbase f]
  · rw [hmem f, hbase f]
    constructor
    · exact fun ho => ⟨Or.inr ho, (hS.held f (Or.inl ho)).1⟩
    · exact fun h => h.1.resolve_left h.2

/-- A kernel without tables below its PML4 at frame 20, and a PMM with the
frames 1 to 15. -/
def bareMachine : Machine where
  pmm := pmmInit smallLayout [⟨0, 0x10000, 1⟩]
  mem := blankMem

theorem bareMachine_sound : bareMachine.pmm.Sound :=
  ⟨pmmGeometry_covers (by decide), by decide, by decide⟩

/-- A zeroed writable user page at the start of PML4 slot 4. -/
def stackPage : UserPageOp where
  mapper := .vmmMapPage
  virt := 0x20000000000#64
  flags := 0x7#64
  content := fun _ => 0#64
  user := by decide
  mask := by decide
  small := by decide

theorem stackPage_leavesNoFrame :
    LeavesNoFrame (createUserAddressSpace bareMachine 20).2
      (createUserAddressSpace bareMachine 20).1 stackPage := by
  have hmiss : tablesMissing (createUserAddressSpace bareMachine 20).1
      (createUserAddressSpace bareMachine 20).2 0x20000000000#64 = 3 := by decide +kernel
  refine Or.inr ⟨by decide, ?_, fun h => absurd h (by decide)⟩
  rw [show stackPage.virt = 0x20000000000#64 from rfl, hmiss]
  decide +kernel

/-- The machine with `stackPage` mapped in a new address space. -/
def stackMachine : Machine :=
  Run.run (mapUserPage (createUserAddressSpace bareMachine 20).2)
    (createUserAddressSpace bareMachine 20).1 [stackPage]

theorem teardown_returns_all_stack :
    (∀ f, Avail (vmmDestroyAddressSpace stackMachine
      (createUserAddressSpace bareMachine 20).2).pmm f ↔ Avail bareMachine.pmm f) ∧
      ∃ freed : List Nat, freed.Nodup ∧
        (∀ f, f ∈ freed ↔ Avail bareMachine.pmm f ∧ ¬ Avail stackMachine.pmm f) ∧
        (vmmDestroyAddressSpace stackMachine (createUserAddressSpace bareMachine 20).2).pmm =
          freed.foldl freeFrame stackMachine.pmm :=
  teardown_returns_all bareMachine 20 bareMachine_sound
    (Or.inl fun i _ => by simp [bareMachine, blankMem, isPresent]) (by decide) [stackPage]
    ⟨stackPage_leavesNoFrame, trivial⟩

-- ---------------------------------------------------------------------------
-- The frames that are lost
-- ---------------------------------------------------------------------------

theorem grants_of_addr {p : Pmm} {f : Nat} (hg : p.geo.Covers) (ha : (pmmAllocPage p).2 = f * 4096)
    (hf : f ≠ 0) : Grants p f := by
  rcases pmmAllocPage_cases hg with ⟨g, hG⟩ | h0
  · have hgf : g = f := by
      have := hG.addr
      omega
    exact hgf ▸ hG
  · omega

/-- Copying an empty PDPT takes one frame and writes to no other. -/
theorem deepCopyPdpt_empty {m : Machine} {f : Nat} (pdpt : Nat) (hg : Grants m.pmm f) (hne : pdpt ≠ f)
    (hempty : ∀ i, isPresent (m.mem pdpt i) = false) :
    ∃ mem, deepCopyPdpt m pdpt = ({ m.starved with mem := mem }, f) ∧ ∀ t ≠ f, mem t = m.mem t := by
  have hloop : ∀ (l : List (Fin 512)) (mem : Nat → Fin 512 → BitVec 64),
      (∀ t ≠ f, mem t = m.mem t) → ∃ mem', l.foldl (copyPdptEntry pdpt f)
        { m.starved with mem := mem } = { m.starved with mem := mem' } ∧
        ∀ t ≠ f, mem' t = m.mem t := by
    intro l
    induction l with
    | nil => exact fun mem h => ⟨mem, rfl, h⟩
    | cons i l ih =>
      intro mem h
      rw [List.foldl_cons]
      have hstep : copyPdptEntry pdpt f { m.starved with mem := mem } i =
          { m.starved with mem := write mem f i 0#64 } := by
        have hP : isPresent (mem pdpt i) = false := by
          rw [h pdpt hne]
          exact hempty i
        simp only [copyPdptEntry, hP, Bool.not_false, if_true]
        rfl
      rw [hstep]
      exact ih _ fun t ht => (write_table_of_ne ht).trans (h t ht)
  obtain ⟨mem, hmem, hsame⟩ := hloop (List.finRange 512) m.mem fun _ _ => rfl
  have h0 : f * 4096 ≠ 0 := by
    have := hg.pos
    omega
  refine ⟨mem, ?_, hsame⟩
  simp only [deepCopyPdpt, Machine.allocPage_grant hg, h0, if_false, pageSize_eq,
    Nat.mul_div_cancel f (show 0 < 4096 by decide), forEntries]
  exact congrArg (·, f) hmem

theorem bareMachine_grants : Grants bareMachine.pmm 1 :=
  grants_of_addr bareMachine_sound.1 (by decide) (by decide)

/-- The new PML4 is the first frame that the allocator grants. -/
theorem createUserAddressSpace_frame {m : Machine} {f : Nat} (hg : Grants m.pmm f) (boot : Nat) :
    (createUserAddressSpace m boot).2 = f := by
  have h0 : f * 4096 ≠ 0 := by
    have := hg.pos
    omega
  simp only [createUserAddressSpace, Machine.allocPage_grant hg, h0, if_false, pageSize_eq,
    Nat.mul_div_cancel f (show 0 < 4096 by decide)]

/-- A kernel with an empty PDPT at frame 21 below slot 0 of its PML4. -/
def kernelMachine : Machine where
  pmm := pmmInit smallLayout [⟨0, 0x10000, 1⟩]
  mem := hangTable blankMem 20 0 21 3#64

/-- Creating an address space and destroying it again loses the frame of the
copied PDPT. -/
theorem create_destroy_leaks :
    (createUserAddressSpace kernelMachine 20).2 = 1 ∧ Avail kernelMachine.pmm 2 ∧
      ¬ Avail (vmmDestroyAddressSpace (createUserAddressSpace kernelMachine 20).1 1).pmm 2 := by
  have hcov : kernelMachine.pmm.geo.Covers := pmmGeometry_covers (by decide)
  have hg1 : Grants kernelMachine.pmm 1 := grants_of_addr hcov (by decide) (by decide)
  obtain ⟨m1, hm1⟩ : ∃ m1 : Machine, m1 =
      ⟨(pmmAllocPage kernelMachine.pmm).1, Function.update kernelMachine.mem 1 fun _ => 0#64⟩ :=
    ⟨_, rfl⟩
  have hg2 : Grants m1.pmm 2 := by
    rw [hm1]
    refine grants_of_addr ?_ (by decide) (by decide)
    exact hg1.taken.geo.symm ▸ hcov
  obtain ⟨mem, hcopy, hsame⟩ := deepCopyPdpt_empty 21 hg2 (by decide) (fun i => by
    rw [hm1]
    simp [kernelMachine, hangTable, write, isPresent])
  -- the PML4 of the kernel has one entry
  have hboot : ∀ i, mem 20 i = if i = 0 then 0x15003#64 else 0#64 := by
    intro i
    rw [hsame 20 (by decide), hm1]
    by_cases hi : i = 0
    · subst hi
      decide
    · simp [kernelMachine, hangTable, write, blankMem, hi]
  obtain ⟨m2, hm2⟩ : ∃ m2 : Machine, m2 =
      ⟨(pmmAllocPage m1.pmm).1, write mem 1 0 (privateEntry 2 0x15003#64)⟩ := ⟨_, rfl⟩
  have hfirst : copyPml4Entry 20 1 m1 0 = m2 := by
    have he : m1.mem 20 0 = 0x15003#64 := by
      rw [← hsame 20 (by decide), hboot]
      rfl
    simp only [copyPml4Entry, he, show isPresent 0x15003#64 = true by decide, Bool.not_true,
      Bool.false_eq_true, if_false, show frameOf 0x15003#64 = 21 by decide, hcopy, hm2]
    rfl
  have hrest : ∀ i : Fin 512, i ≠ 0 → copyPml4Entry 20 1 m2 i = m2 := by
    intro i hi
    have he : m2.mem 20 i = 0#64 := by
      rw [hm2]
      dsimp only
      rw [write_table_of_ne (by decide), hboot, if_neg hi]
    simp [copyPml4Entry, he, isPresent]
  have hcreate : createUserAddressSpace kernelMachine 20 = (m2, 1) := by
    have hstart : createUserAddressSpace kernelMachine 20 =
        (((List.finRange 512).take 4).foldl (copyPml4Entry 20 1) m1, 1) := by
      simp only [createUserAddressSpace, Machine.allocPage_grant hg1, hm1]
      rfl
    rw [hstart, show (List.finRange 512).take 4 = [0, 1, 2, 3] by decide +kernel]
    simp only [List.foldl_cons, List.foldl_nil]
    rw [hfirst, hrest 1 (by decide), hrest 2 (by decide), hrest 3 (by decide)]
  have hdestroy : (vmmDestroyAddressSpace m2 1).pmm = pmmFreePage m2.pmm 4096 := by
    rw [vmmDestroyAddressSpace, if_neg (by decide)]
    dsimp only
    rw [List.foldl_ext _ (fun p _ => p), List.foldl_fixed, pageSize_eq, Nat.one_mul]
    intro p i hi
    have hi0 : i ≠ 0 := by
      rintro rfl
      revert hi
      decide +kernel
    have he : m2.mem 1 i = 0#64 := by
      rw [hm2]
      dsimp only
      rw [write_of_ne (Or.inr hi0), hsame 1 (by decide), hm1]
      simp
    simp [he, isPresent]
  rw [hcreate]
  dsimp only
  rw [hdestroy, hm2, hm1]
  dsimp only
  exact ⟨rfl, by decide, by decide⟩

end Lestra
