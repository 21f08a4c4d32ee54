import Lestra.Mm.VmmWalk

/-!
# Virtual memory manager — the stages of a mapping

Every level of `vmm_map_page` does one of three things to the page table: it
sets the user bit of a present entry, it gives an absent entry an empty table,
or it gives a 2 MB entry the table of its 4 KB pages. The first is a
`relabel` and the other two are an `attach` of the radix tree; `openEntry_cases`
and `openPdEntry_cases` say so, and everything about the walk of any address
follows from the lemmas on radix trees.

`Ready m r k` collects what the stages rely on: the tables of the address space
`r` lie on distinct frames, and the next `k` frames that the PMM hands out are
no tables of it.
-/

namespace Lestra

open Word64 Radix

-- ---------------------------------------------------------------------------
-- The frames the PMM hands out next
-- ---------------------------------------------------------------------------

/-- The frames that the next `k` calls of `pmm_alloc_page` return, up to the
first call that fails. -/
def nextFrames : Pmm → Nat → List Nat
  | _, 0 => []
  | p, k + 1 =>
    if (pmmAllocPage p).2 = 0 then []
    else (pmmAllocPage p).2 / pageSize :: nextFrames (pmmAllocPage p).1 k

/-- A grant of the PMM. -/
structure Grants (p : Pmm) (f : Nat) : Prop where
  addr : (pmmAllocPage p).2 = f * 4096
  pos : f ≠ 0
  taken : TakesRun p f 1 (pmmAllocPage p).1

theorem pmmAllocPage_cases {p : Pmm} (hg : p.geo.Covers) :
    (∃ f, Grants p f) ∨ (pmmAllocPage p).2 = 0 := by
  rcases pmmAllocPage_spec hg with ⟨f, -, -, hr, hT⟩ | ⟨hr, -, -⟩
  · rcases Nat.eq_zero_or_pos f with rfl | hf
    · exact Or.inr (by omega)
    · exact Or.inl ⟨f, hr, by omega, hT⟩
  · exact Or.inr hr

theorem Grants.ne_zero {p : Pmm} {f : Nat} (h : Grants p f) : (pmmAllocPage p).2 ≠ 0 := by
  have := h.pos
  rw [h.addr]
  omega

theorem Grants.avail {p : Pmm} {f : Nat} (h : Grants p f) : Avail p f :=
  h.taken.run 0 (by decide)

theorem Grants.avail_iff {p : Pmm} {f : Nat} (h : Grants p f) (g : Nat) :
    Avail (pmmAllocPage p).1 g ↔ Avail p g ∧ g ≠ f := by
  rw [h.taken.avail g]
  exact and_congr_right fun _ => by omega

theorem nextFrames_grant {p : Pmm} {f : Nat} (h : Grants p f) (k : Nat) :
    nextFrames p (k + 1) = f :: nextFrames (pmmAllocPage p).1 k := by
  rw [nextFrames, if_neg h.ne_zero, h.addr, pageSize_eq, show f * 4096 / 4096 = f by omega]

theorem nextFrames_fail {p : Pmm} (h : (pmmAllocPage p).2 = 0) (k : Nat) : nextFrames p k = [] := by
  cases k with
  | zero => rfl
  | succ k => rw [nextFrames, if_pos h]

theorem mem_nextFrames_succ {f : Nat} : ∀ {k : Nat} {p : Pmm}, f ∈ nextFrames p k →
    f ∈ nextFrames p (k + 1)
  | 0, _, h => by simp [nextFrames] at h
  | k + 1, p, h => by
    rw [nextFrames] at h ⊢
    split
    · next h0 => simp [h0] at h
    · next h0 =>
      rw [if_neg h0, List.mem_cons] at h
      rw [List.mem_cons]
      exact h.imp_right mem_nextFrames_succ

theorem avail_of_mem_nextFrames {f : Nat} : ∀ {k : Nat} {p : Pmm}, p.geo.Covers →
    f ∈ nextFrames p k → Avail p f
  | 0, _, _, h => by simp [nextFrames] at h
  | k + 1, p, hg, h => by
    rcases pmmAllocPage_cases hg with ⟨f', hf'⟩ | h0
    · rw [nextFrames_grant hf', List.mem_cons] at h
      rcases h with rfl | h
      · exact hf'.avail
      · have hg' : (pmmAllocPage p).1.geo.Covers := by rw [hf'.taken.geo]; exact hg
        exact ((hf'.avail_iff f).mp (avail_of_mem_nextFrames hg' h)).1
    · rw [nextFrames_fail h0] at h
      simp at h

-- ---------------------------------------------------------------------------
-- What the stages rely on
-- ---------------------------------------------------------------------------

structure Ready (m : Machine) (r k : Nat) : Prop where
  covers : m.pmm.geo.Covers
  physical : m.pmm.geo.highestPfn ≤ 2 ^ 40
  distinct : Distinct tableChild m.mem 3 r
  fresh : ∀ f ∈ nextFrames m.pmm k, ¬ IsTable m r f

theorem Ready.pred {m : Machine} {r k : Nat} (h : Ready m r (k + 1)) : Ready m r k :=
  ⟨h.covers, h.physical, h.distinct, fun f hf => h.fresh f (mem_nextFrames_succ hf)⟩

theorem Ready.mono {m : Machine} {r j k : Nat} (h : Ready m r k) (hjk : j ≤ k) : Ready m r j := by
  induction hjk with
  | refl => exact h
  | step _ ih => exact ih h.pred

theorem Grants.lt {m : Machine} {r k f : Nat} (h : Grants m.pmm f) (hR : Ready m r k) :
    f < 2 ^ 40 :=
  Nat.lt_of_lt_of_le h.avail.lt hR.physical

theorem Grants.not_table {m : Machine} {r k f : Nat} (h : Grants m.pmm f) (hR : Ready m r (k + 1)) :
    ¬ IsTable m r f :=
  hR.fresh f (by rw [nextFrames_grant h]; simp)

/-- `e |= PAGE_USER` if the mapping is a user mapping. -/
def markUser (user : Bool) (e : BitVec 64) : BitVec 64 := if user then e ||| pageUser else e

@[simp] theorem isPresent_markUser (user : Bool) (e : BitVec 64) :
    isPresent (markUser user e) = isPresent e := by
  cases user
  · rfl
  · rw [markUser, if_pos rfl, isPresent_or, show isPresent pageUser = false by decide, Bool.or_false]

@[simp] theorem isHuge_markUser (user : Bool) (e : BitVec 64) :
    isHuge (markUser user e) = isHuge e := by
  cases user
  · rfl
  · rw [markUser, if_pos rfl, isHuge_or, show isHuge pageUser = false by decide, Bool.or_false]

@[simp] theorem isUser_markUser (user : Bool) (e : BitVec 64) :
    isUser (markUser user e) = (user || isUser e) := by
  cases user
  · rfl
  · rw [markUser, if_pos rfl, isUser_or, show isUser pageUser = true by decide, Bool.or_true,
      Bool.true_or]

@[simp] theorem frameOf_markUser (user : Bool) (e : BitVec 64) :
    frameOf (markUser user e) = frameOf e := by
  cases user
  · rfl
  · exact frameOf_or e pageUser (by decide)

@[simp] theorem tableChild_markUser (n : Nat) (user : Bool) (e : BitVec 64) :
    tableChild n (markUser user e) = tableChild n e := by
  cases user
  · rfl
  · exact tableChild_or_user n e

/-- `table[i]` with the user bit set. -/
def Machine.mark (m : Machine) (user : Bool) (t : Nat) (i : Fin 512) : Machine :=
  { m with mem := write m.mem t i (markUser user (m.mem t i)) }

/-- The machine after the PMM's next frame `f` has become the table of `t[i]`. -/
def Machine.attach (m : Machine) (t : Nat) (i : Fin 512) (f : Nat) (row : Fin 512 → BitVec 64)
    (e : BitVec 64) : Machine :=
  { pmm := (pmmAllocPage m.pmm).1, mem := write (Function.update m.mem f row) t i e }

theorem Machine.mark_false (m : Machine) (t : Nat) (i : Fin 512) : m.mark false t i = m := by
  have h : write m.mem t i (m.mem t i) = m.mem := by simp [write]
  rw [Machine.mark, markUser, if_neg (by simp), h]

theorem orUser_eq_mark (m : Machine) (t : Nat) (i : Fin 512) (user : Bool) :
    orUser m t i user = m.mark user t i := by
  cases user
  · rw [Machine.mark_false]
    rfl
  · rfl

/-- The second write to an entry wins. -/
theorem Machine.mark_attach (m : Machine) (user : Bool) (t : Nat) (i : Fin 512) (f : Nat)
    (row : Fin 512 → BitVec 64) (e : BitVec 64) :
    (m.attach t i f row e).mark user t i = m.attach t i f row (markUser user e) := by
  simp [Machine.mark, Machine.attach, write]

theorem Machine.mark_mark (m : Machine) (user : Bool) (t : Nat) (i : Fin 512) :
    (m.mark user t i).mark user t i = m.mark user t i := by
  have h : markUser user (markUser user (m.mem t i)) = markUser user (m.mem t i) := by
    cases user
    · rfl
    · simp [markUser, BitVec.or_assoc]
  simp only [Machine.mark, write_self, h]
  simp [write]

-- ---------------------------------------------------------------------------
-- The cases of a stage
-- ---------------------------------------------------------------------------

/-- An absent entry got the table at frame `f`. -/
def Machine.attachEmpty (m : Machine) (user : Bool) (t : Nat) (i : Fin 512) (f : Nat)
    (flags : BitVec 64) : Machine :=
  m.attach t i f (fun _ => 0#64) (markUser user (BitVec.ofNat 64 (f * 4096) ||| flags))

/-- A huge entry got the table of its pieces at frame `f`. -/
def Machine.attachPieces (m : Machine) (user : Bool) (t : Nat) (i : Fin 512) (f : Nat) : Machine :=
  m.attach t i f (hugePiece (m.mem t i)) (markUser user
    (BitVec.ofNat 64 (f * 4096) ||| (m.mem t i &&& ~~~pageHuge &&& ~~~ptePhysMask) ||| pagePresent))

/-- A stage that found no frame changes nothing but the PMM. -/
def Machine.starved (m : Machine) : Machine := { m with pmm := (pmmAllocPage m.pmm).1 }

theorem Machine.allocPage_grant {m : Machine} {f : Nat} (hf : Grants m.pmm f) :
    m.allocPage = (m.starved, f * 4096) := by
  rw [← hf.addr]
  rfl

theorem Machine.allocPage_fail {m : Machine} (h : (pmmAllocPage m.pmm).2 = 0) :
    m.allocPage = (m.starved, 0) := by
  rw [← h]
  rfl

theorem ensureTable_present {m : Machine} {t : Nat} {i : Fin 512} (h : isPresent (m.mem t i) = true)
    (flags : BitVec 64) : ensureTable m t i flags = (m, true) := if_pos h

theorem ensureTable_grant {m : Machine} {t : Nat} {i : Fin 512} {f : Nat}
    (h : isPresent (m.mem t i) = false) (hf : Grants m.pmm f) (flags : BitVec 64) :
    ensureTable m t i flags =
      (m.attach t i f (fun _ => 0#64) (BitVec.ofNat 64 (f * 4096) ||| flags), true) := by
  have h0 : f * 4096 ≠ 0 := by
    have := hf.pos
    omega
  simp only [ensureTable, h, Bool.false_eq_true, if_false, Machine.allocPage_grant hf, h0]
  simp [Machine.setEntry, Machine.zeroPage, Machine.fillPage, Machine.attach, Machine.starved]

theorem ensureTable_fail {m : Machine} {t : Nat} {i : Fin 512}
    (h : isPresent (m.mem t i) = false) (h0 : (pmmAllocPage m.pmm).2 = 0) (flags : BitVec 64) :
    ensureTable m t i flags = (m.starved, false) := by
  simp only [ensureTable, h, Bool.false_eq_true, if_false, Machine.allocPage_fail h0, if_true]

theorem splitHugePage_grant {m : Machine} {t : Nat} {i : Fin 512} {f : Nat} (hf : Grants m.pmm f) :
    splitHugePage m t i = (m.attachPieces false t i f, true) := by
  have h0 : f * 4096 ≠ 0 := by
    have := hf.pos
    omega
  simp only [splitHugePage, Machine.allocPage_grant hf, h0, if_false]
  simp [Machine.setEntry, Machine.fillPage, Machine.attachPieces, Machine.attach, Machine.starved,
    markUser]

theorem splitHugePage_fail {m : Machine} {t : Nat} {i : Fin 512}
    (h0 : (pmmAllocPage m.pmm).2 = 0) : splitHugePage m t i = (m.starved, false) := by
  simp only [splitHugePage, Machine.allocPage_fail h0, if_true]

theorem openEntry_cases {m : Machine} (hg : m.pmm.geo.Covers) (t : Nat) (i : Fin 512)
    (flags : BitVec 64) (user : Bool) :
    (isPresent (m.mem t i) = true ∧ openEntry m t i flags user = (m.mark user t i, true)) ∨
    (isPresent (m.mem t i) = false ∧
      ((∃ f, Grants m.pmm f ∧
        openEntry m t i flags user = (m.attachEmpty user t i f flags, true)) ∨
      ((pmmAllocPage m.pmm).2 = 0 ∧ openEntry m t i flags user = (m.starved, false)))) := by
  unfold openEntry
  cases hP : isPresent (m.mem t i) with
  | true =>
    left
    simp only [ensureTable_present hP, if_true, orUser_eq_mark, and_self]
  | false =>
    refine Or.inr ⟨rfl, ?_⟩
    rcases pmmAllocPage_cases hg with ⟨f, hf⟩ | h0
    · refine Or.inl ⟨f, hf, ?_⟩
      simp only [ensureTable_grant hP hf, if_true, orUser_eq_mark, Machine.mark_attach]
      rfl
    · refine Or.inr ⟨h0, ?_⟩
      simp only [ensureTable_fail hP h0, Bool.false_eq_true, if_false]

/-- The entry of a split page is present, and its user bit is set once. -/
theorem Machine.attachPieces_present (m : Machine) (user : Bool) (t : Nat) (i : Fin 512) (f : Nat) :
    isPresent ((m.attachPieces user t i f).mem t i) = true := by
  simp only [Machine.attachPieces, Machine.attach, write_self, isPresent_markUser, isPresent_or,
    show isPresent pagePresent = true by decide, Bool.or_true]

theorem Machine.mark_attachPieces (m : Machine) (user : Bool) (t : Nat) (i : Fin 512) (f : Nat) :
    (m.attachPieces false t i f).mark user t i = m.attachPieces user t i f := by
  rw [Machine.attachPieces, Machine.mark_attach]
  rfl

theorem openPdEntry_cases {m : Machine} (hg : m.pmm.geo.Covers) (t : Nat) (i : Fin 512)
    (flags : BitVec 64) (user : Bool) :
    (isHuge (m.mem t i) = false ∧ openPdEntry m t i flags user = openEntry m t i flags user) ∨
    (isHuge (m.mem t i) = true ∧
      ((∃ f, Grants m.pmm f ∧ openPdEntry m t i flags user = (m.attachPieces user t i f, true)) ∨
      ((pmmAllocPage m.pmm).2 = 0 ∧ openPdEntry m t i flags user = (m.starved, false)))) := by
  unfold openPdEntry
  cases hH : isHuge (m.mem t i) with
  | false => exact Or.inl ⟨rfl, rfl⟩
  | true =>
    refine Or.inr ⟨rfl, ?_⟩
    rcases pmmAllocPage_cases hg with ⟨f, hf⟩ | h0
    · refine Or.inl ⟨f, hf, ?_⟩
      simp only [splitHugePage_grant hf, if_true, orUser_eq_mark, Machine.mark_attachPieces,
        openEntry, ensureTable_present (m.attachPieces_present user t i f)]
      rw [← Machine.mark_attachPieces, Machine.mark_mark]
    · refine Or.inr ⟨h0, ?_⟩
      simp only [splitHugePage_fail h0, if_true, Bool.false_eq_true, if_false]

-- ---------------------------------------------------------------------------
-- The tree after a stage
-- ---------------------------------------------------------------------------

section Stage

variable {m : Machine} {r k t f : Nat} {i : Fin 512} {p : List (Fin 512)}

theorem Ready.tableAt_mark (hR : Ready m r k) (hp : tableAt tableChild m.mem 3 r p = some t)
    (user : Bool) (q : List (Fin 512)) :
    tableAt tableChild (m.mark user t i).mem 3 r q = tableAt tableChild m.mem 3 r q :=
  hR.distinct.tableAt_relabel hp (tableChild_markUser _ _ _) q

theorem Ready.mark (hR : Ready m r k) (hp : tableAt tableChild m.mem 3 r p = some t) (user : Bool) :
    Ready (m.mark user t i) r k where
  covers := hR.covers
  physical := hR.physical
  distinct := hR.distinct.relabel hp (tableChild_markUser _ _ _)
  fresh := by
    rintro f hf ⟨q, hq⟩
    rw [hR.tableAt_mark hp] at hq
    exact hR.fresh f hf ⟨q, hq⟩

/-- A grant that becomes the table of an entry without one. -/
structure Attaches (m : Machine) (r t : Nat) (i : Fin 512) (p : List (Fin 512)) (f : Nat)
    (row : Fin 512 → BitVec 64) (e : BitVec 64) (n : Nat) : Prop where
  at_path : tableAt tableChild m.mem 3 r p = some t
  level : 3 - p.length = n + 1
  grant : Grants m.pmm f
  old : tableChild (n + 1) (m.mem t i) = none
  new : tableChild (n + 1) e = some f
  row : ∀ j, tableChild n (row j) = none

variable {row : Fin 512 → BitVec 64} {e : BitVec 64} {n : Nat}

theorem Ready.tableAt_attach (hR : Ready m r (k + 1)) (hA : Attaches m r t i p f row e n)
    (q : List (Fin 512)) :
    tableAt tableChild (m.attach t i f row e).mem 3 r q =
      if q = p ++ [i] then some f else tableAt tableChild m.mem 3 r q :=
  hR.distinct.tableAt_attach hA.at_path hA.level hA.old hA.new (hA.grant.not_table hR) hA.row q

theorem Ready.isTable_attach (hR : Ready m r (k + 1)) (hA : Attaches m r t i p f row e n)
    (v : Nat) : IsTable (m.attach t i f row e) r v ↔ IsTable m r v ∨ v = f :=
  hR.distinct.inTree_attach hA.at_path hA.level hA.old hA.new (hA.grant.not_table hR) hA.row v

theorem Ready.attach (hR : Ready m r (k + 1)) (hA : Attaches m r t i p f row e n) :
    Ready (m.attach t i f row e) r k where
  covers := by
    show (pmmAllocPage m.pmm).1.geo.Covers
    rw [hA.grant.taken.geo]
    exact hR.covers
  physical := by
    show (pmmAllocPage m.pmm).1.geo.highestPfn ≤ 2 ^ 40
    rw [hA.grant.taken.geo]
    exact hR.physical
  distinct :=
    hR.distinct.attach hA.at_path hA.level hA.old hA.new (hA.grant.not_table hR) hA.row
  fresh := by
    intro g hg hT
    have hg' : g ∈ nextFrames (pmmAllocPage m.pmm).1 k := hg
    rcases (hR.isTable_attach hA g).mp hT with hT | rfl
    · exact hR.fresh g (by rw [nextFrames_grant hA.grant]; exact List.mem_cons_of_mem _ hg') hT
    · have hcov : (pmmAllocPage m.pmm).1.geo.Covers := by
        rw [hA.grant.taken.geo]
        exact hR.covers
      exact ((hA.grant.avail_iff g).mp (avail_of_mem_nextFrames hcov hg')).2 rfl

/-- An absent entry gets an empty table. -/
theorem attaches_empty (hR : Ready m r (k + 1)) (hp : tableAt tableChild m.mem 3 r p = some t)
    (hn : 3 - p.length = n + 1) (hg : Grants m.pmm f) (habs : isPresent (m.mem t i) = false)
    {flags : BitVec 64} (hmask : flags &&& ptePhysMask = 0#64) (hpres : isPresent flags = true)
    (hhuge : isHuge flags = false) (user : Bool) :
    Attaches m r t i p f (fun _ => 0#64)
      (markUser user (BitVec.ofNat 64 (f * 4096) ||| flags)) n where
  at_path := hp
  level := hn
  grant := hg
  old := tableChild_absent habs
  new := by
    have h1 : isPresent (BitVec.ofNat 64 (f * 4096) ||| flags) = true := by
      rw [isPresent_or, hpres, Bool.or_true]
    have h2 : isHuge (BitVec.ofNat 64 (f * 4096) ||| flags) = false := by
      rw [isHuge_or, hhuge, isHuge_ofNat_frame, Bool.or_false]
    rw [tableChild_markUser, tableChild_present (by omega) h1 (Or.inr h2),
      frameOf_ofNat_or (hg.lt hR) hmask]
  row := fun j => tableChild_absent (by decide)

theorem splitEntry_and_mask (old : BitVec 64) :
    ((old &&& ~~~pageHuge &&& ~~~ptePhysMask) ||| pagePresent) &&& ptePhysMask = 0#64 := by
  rw [BitVec.and_or_distrib_right, BitVec.and_assoc, BitVec.not_and_self,
    show pagePresent &&& ptePhysMask = 0#64 by decide]
  simp

/-- A 2 MB entry gets the table of its pieces. -/
theorem attaches_pieces (hR : Ready m r (k + 1)) (hp : tableAt tableChild m.mem 3 r p = some t)
    (hn : p.length = 2) (hg : Grants m.pmm f) (hhuge : isHuge (m.mem t i) = true) (user : Bool) :
    Attaches m r t i p f (hugePiece (m.mem t i)) (markUser user
      (BitVec.ofNat 64 (f * 4096) ||| (m.mem t i &&& ~~~pageHuge &&& ~~~ptePhysMask) |||
        pagePresent)) 0 where
  at_path := hp
  level := by omega
  grant := hg
  old := by simp [tableChild, hhuge]
  new := by
    have h1 : isPresent (BitVec.ofNat 64 (f * 4096) |||
        (m.mem t i &&& ~~~pageHuge &&& ~~~ptePhysMask) ||| pagePresent) = true := by
      rw [isPresent_or, show isPresent pagePresent = true by decide, Bool.or_true]
    have h2 : isHuge (BitVec.ofNat 64 (f * 4096) |||
        (m.mem t i &&& ~~~pageHuge &&& ~~~ptePhysMask) ||| pagePresent) = false := by
      rw [isHuge_or, isHuge_or, isHuge_ofNat_frame, show isHuge pagePresent = false by decide,
        isHuge_eq]
      simp [pageHuge]
    rw [tableChild_markUser, tableChild_present (by decide) h1 (Or.inr h2), BitVec.or_assoc,
      frameOf_ofNat_or (hg.lt hR) (splitEntry_and_mask _)]
  row := fun j => tableChild_zero _

end Stage

-- ---------------------------------------------------------------------------
-- Any number of stages
-- ---------------------------------------------------------------------------

/-- The tables of the address space `r` lie on distinct frames and none of them
is available: `Ready` for any number of stages. -/
structure Steady (m : Machine) (r : Nat) : Prop where
  covers : m.pmm.geo.Covers
  physical : m.pmm.geo.highestPfn ≤ 2 ^ 40
  distinct : Distinct tableChild m.mem 3 r
  fresh : ∀ f, Avail m.pmm f → ¬ IsTable m r f

theorem avail_of_alloc {p : Pmm} (hg : p.geo.Covers) {g : Nat} (h : Avail (pmmAllocPage p).1 g) :
    Avail p g := by
  rcases pmmAllocPage_spec hg with ⟨f, -, -, -, hT⟩ | ⟨-, hH, -⟩
  · exact ((hT.avail g).mp h).1
  · exact (hH.avail g).mp h

theorem geo_alloc {p : Pmm} (hg : p.geo.Covers) : (pmmAllocPage p).1.geo = p.geo := by
  rcases pmmAllocPage_spec hg with ⟨f, -, -, -, hT⟩ | ⟨-, hH, -⟩
  · exact hT.geo
  · exact hH.balanced.geo

section Steady

variable {m : Machine} {r t f n : Nat} {i : Fin 512} {p : List (Fin 512)}

theorem Steady.ready (hS : Steady m r) (k : Nat) : Ready m r k :=
  ⟨hS.covers, hS.physical, hS.distinct, fun f hf =>
    hS.fresh f (avail_of_mem_nextFrames hS.covers hf)⟩

theorem Steady.mark (hS : Steady m r) (hp : tableAt tableChild m.mem 3 r p = some t) (user : Bool) :
    Steady (m.mark user t i) r := by
  refine ⟨hS.covers, hS.physical, ((hS.ready 0).mark hp user).distinct, ?_⟩
  rintro f hf ⟨q, hq⟩
  rw [(hS.ready 0).tableAt_mark hp] at hq
  exact hS.fresh f hf ⟨q, hq⟩

theorem Steady.attach {row : Fin 512 → BitVec 64} {e : BitVec 64} (hS : Steady m r)
    (hA : Attaches m r t i p f row e n) : Steady (m.attach t i f row e) r := by
  have hR := (hS.ready 1).attach hA
  refine ⟨hR.covers, hR.physical, hR.distinct, fun g hg hT => ?_⟩
  have hg' := (hA.grant.avail_iff g).mp hg
  rcases ((hS.ready 1).isTable_attach hA g).mp hT with hT | rfl
  · exact hS.fresh g hg'.1 hT
  · exact hg'.2 rfl

/-- Frames that are taken, or filled, outside the address space. -/
theorem Steady.alloc (hS : Steady m r) {mem : Nat → Fin 512 → BitVec 64}
    (hmem : ∀ t, IsTable m r t → mem t = m.mem t) : Steady ⟨(pmmAllocPage m.pmm).1, mem⟩ r := by
  have htab : ∀ q, tableAt tableChild mem 3 r q = tableAt tableChild m.mem 3 r q :=
    tableAt_congr hmem
  have hgeo := geo_alloc hS.covers
  refine ⟨by rw [hgeo]; exact hS.covers, by rw [hgeo]; exact hS.physical, fun p q u hp hq => ?_, ?_⟩
  · exact hS.distinct p q u ((htab p).symm.trans hp) ((htab q).symm.trans hq)
  · rintro f hf ⟨q, hq⟩
    exact hS.fresh f (avail_of_alloc hS.covers hf) ⟨q, (htab q).symm.trans hq⟩

end Steady

-- ---------------------------------------------------------------------------
-- The whole way down
-- ---------------------------------------------------------------------------

theorem tableAt_snoc {mem : Nat → Fin 512 → BitVec 64} {r t : Nat} {p : List (Fin 512)}
    (hp : tableAt tableChild mem 3 r p = some t) (hlen : p.length ≤ 2)
    (i : Fin 512) : tableAt tableChild mem 3 r (p ++ [i]) =
      tableChild (3 - p.length) (mem t i) := by
  rw [tableAt_append hp]
  obtain ⟨n, hn⟩ : ∃ n, 3 - p.length = n + 1 := ⟨2 - p.length, by omega⟩
  rw [hn, tableAt_cons]
  cases tableChild (n + 1) (mem t i) with
  | none => rfl
  | some u => exact tableAt_nil

theorem Attaches.next_eq {m : Machine} {r k t f n : Nat} {i : Fin 512} {p : List (Fin 512)}
    {row : Fin 512 → BitVec 64} {e : BitVec 64} (hA : Attaches m r t i p f row e n)
    (hR : Ready m r (k + 1)) :
    tableAt tableChild (m.attach t i f row e).mem 3 r (p ++ [i]) =
      some (frameOf ((m.attach t i f row e).mem t i)) := by
  rw [hR.tableAt_attach hA, if_pos rfl, (tableChild_eq_some hA.new).2.2]
  simp [Machine.attach]

theorem Attaches.here_eq {m : Machine} {r k t f n : Nat} {i : Fin 512} {p : List (Fin 512)}
    {row : Fin 512 → BitVec 64} {e : BitVec 64} (hA : Attaches m r t i p f row e n)
    (hR : Ready m r (k + 1)) : tableAt tableChild (m.attach t i f row e).mem 3 r p = some t := by
  rw [hR.tableAt_attach hA, if_neg (by simp), hA.at_path]

/-- Flags a table entry may be given: present, and neither address bits nor `PAGE_HUGE`. -/
structure TableFlags (flags : BitVec 64) : Prop where
  mask : flags &&& ptePhysMask = 0#64
  present : isPresent flags = true
  huge : isHuge flags = false

/-- A stage that succeeds leaves the table where it was and the entry present. -/
theorem openEntry_here {m m' : Machine} {r t : Nat} {i : Fin 512} {p : List (Fin 512)}
    (hR : Ready m r 1) (hp : tableAt tableChild m.mem 3 r p = some t) (hlen : p.length ≤ 2)
    {flags : BitVec 64} (hF : TableFlags flags) {user : Bool}
    (hm' : openEntry m t i flags user = (m', true)) :
    tableAt tableChild m'.mem 3 r p = some t ∧ isPresent (m'.mem t i) = true ∧
      (isHuge (m.mem t i) = false → isHuge (m'.mem t i) = false) := by
  rcases openEntry_cases hR.covers t i flags user with ⟨hP, hm⟩ | ⟨hP, ⟨f, hg, hm⟩ | ⟨-, hm⟩⟩
  · obtain rfl : m.mark user t i = m' := by
      rw [hm] at hm'
      exact (Prod.mk.inj hm').1
    refine ⟨(hR.tableAt_mark hp user p).trans hp, ?_, fun hH => ?_⟩
    · simp only [Machine.mark, write_self, isPresent_markUser, hP]
    · simp only [Machine.mark, write_self, isHuge_markUser, hH]
  · obtain rfl : m.attachEmpty user t i f flags = m' := by
      rw [hm] at hm'
      exact (Prod.mk.inj hm').1
    obtain ⟨n, hn⟩ : ∃ n, 3 - p.length = n + 1 := ⟨2 - p.length, by omega⟩
    have hA := attaches_empty hR hp hn hg hP hF.mask hF.present hF.huge user
    refine ⟨hA.here_eq hR, ?_, fun _ => ?_⟩
    · have hnew := (tableChild_eq_some hA.new).1
      simpa only [Machine.attachEmpty, Machine.attach, write_self] using hnew
    · simp only [Machine.attachEmpty, Machine.attach, write_self, isHuge_markUser, isHuge_or,
        isHuge_ofNat_frame, hF.huge, Bool.or_false]
  · rw [hm] at hm'
    exact absurd (Prod.mk.inj hm').2 (by simp)

/-- What has to be shown to follow a property of the machine on the way down to
the leaf table of `v`: `I d` after `d` levels, `J` where the code gives up. -/
structure StageRule (r : Nat) (v fl : BitVec 64) (user : Bool) (I : Nat → Machine → Prop)
    (J : Machine → Prop) : Prop where
  ready : ∀ {d m}, d ≤ 2 → I d m → Ready m r 1
  mark : ∀ {m t i p q}, I p.length m → vpath v = p ++ i :: q → p.length ≤ 2 →
    tableAt tableChild m.mem 3 r p = some t → (p.length = 2 → isHuge (m.mem t i) = false) →
    isPresent (m.mem t i) = true → I (p.length + 1) (m.mark user t i)
  attach : ∀ {m t i p q f}, I p.length m → vpath v = p ++ i :: q → p.length ≤ 2 →
    tableAt tableChild m.mem 3 r p = some t → (p.length = 2 → isHuge (m.mem t i) = false) →
    isPresent (m.mem t i) = false → Grants m.pmm f → I (p.length + 1) (m.attachEmpty user t i f fl)
  starved : ∀ {m t i p q}, I p.length m → vpath v = p ++ i :: q → p.length ≤ 2 →
    tableAt tableChild m.mem 3 r p = some t → isPresent (m.mem t i) = false →
    (pmmAllocPage m.pmm).2 = 0 → J m.starved
  giant : ∀ {m t}, I 2 m → tableAt tableChild m.mem 3 r [pml4Idx v] = some t →
    isHuge (m.mem t (pdptIdx v)) = true → J m
  split : ∀ {m t f}, I 2 m → tableAt tableChild m.mem 3 r [pml4Idx v, pdptIdx v] = some t →
    isHuge (m.mem t (pdIdx v)) = true → Grants m.pmm f → I 3 (m.attachPieces user t (pdIdx v) f)
  unsplit : ∀ {m t}, I 2 m → tableAt tableChild m.mem 3 r [pml4Idx v, pdptIdx v] = some t →
    isHuge (m.mem t (pdIdx v)) = true → (pmmAllocPage m.pmm).2 = 0 → J m.starved

section Rule

variable {r : Nat} {v fl : BitVec 64} {user : Bool} {I : Nat → Machine → Prop} {J : Machine → Prop}

theorem StageRule.openEntry (h : StageRule r v fl user I J) (hF : TableFlags fl) {m : Machine}
    {t : Nat} {i : Fin 512} {p q : List (Fin 512)} (hI : I p.length m) (hv : vpath v = p ++ i :: q)
    (hlen : p.length ≤ 2) (hp : tableAt tableChild m.mem 3 r p = some t)
    (hsmall : p.length = 2 → isHuge (m.mem t i) = false) :
    (∃ m', Lestra.openEntry m t i fl user = (m', true) ∧ I (p.length + 1) m' ∧
      tableAt tableChild m'.mem 3 r p = some t ∧ isPresent (m'.mem t i) = true ∧
      (isHuge (m.mem t i) = false → isHuge (m'.mem t i) = false)) ∨
    ∃ m', Lestra.openEntry m t i fl user = (m', false) ∧ J m' := by
  rcases openEntry_cases (h.ready hlen hI).covers t i fl user with ⟨hP, hm⟩ | ⟨hP, ⟨f, hg, hm⟩ | ⟨h0, hm⟩⟩
  · exact Or.inl ⟨_, hm, h.mark hI hv hlen hp hsmall hP,
      openEntry_here (h.ready hlen hI) hp hlen hF hm⟩
  · exact Or.inl ⟨_, hm, h.attach hI hv hlen hp hsmall hP hg,
      openEntry_here (h.ready hlen hI) hp hlen hF hm⟩
  · exact Or.inr ⟨_, hm, h.starved hI hv hlen hp hP h0⟩

/-- The way down keeps what its stages keep, and ends at the leaf table. -/
theorem StageRule.openPath (h : StageRule r v fl user I J) (hF : TableFlags fl) {m : Machine}
    (hI : I 0 m) :
    (∃ m', openPath m r v fl user = (m', none) ∧ J m') ∨
    ∃ m' pt, Lestra.openPath m r v fl user = (m', some pt) ∧ I 3 m' ∧
      tableAt tableChild m'.mem 3 r [pml4Idx v, pdptIdx v, pdIdx v] = some pt := by
  unfold Lestra.openPath
  dsimp only
  rcases h.openEntry hF (p := []) hI rfl (by simp) tableAt_nil (by simp) with
    ⟨m1, hm1, hI1, hp1, hP1, -⟩ | ⟨m1, hm1, hJ⟩
  swap
  · exact Or.inl ⟨m1, by simp only [hm1, Bool.not_false, if_true], hJ⟩
  simp only [hm1, Bool.not_true, Bool.false_eq_true, if_false]
  have hnext1 : tableAt tableChild m1.mem 3 r [pml4Idx v] =
      some (frameOf (m1.mem r (pml4Idx v))) := by
    rw [show [pml4Idx v] = [] ++ [pml4Idx v] from rfl, tableAt_snoc hp1 (by simp),
      tableChild_present (by decide) hP1 (Or.inl (by decide))]
  generalize frameOf (m1.mem r (pml4Idx v)) = pdpt at hnext1 ⊢
  rcases h.openEntry hF (p := [pml4Idx v]) hI1 rfl (by simp) hnext1 (by simp) with
    ⟨m2, hm2, hI2, hp2, hP2, -⟩ | ⟨m2, hm2, hJ⟩
  swap
  · exact Or.inl ⟨m2, by simp only [hm2, Bool.not_false, if_true], hJ⟩
  simp only [hm2, Bool.not_true, Bool.false_eq_true, if_false]
  cases hbig : isHuge (m2.mem pdpt (pdptIdx v)) with
  | true => exact Or.inl ⟨m2, by simp, h.giant hI2 hp2 hbig⟩
  | false =>
    simp only [Bool.false_eq_true, if_false]
    have hnext2 : tableAt tableChild m2.mem 3 r [pml4Idx v, pdptIdx v] =
        some (frameOf (m2.mem pdpt (pdptIdx v))) := by
      rw [show [pml4Idx v, pdptIdx v] = [pml4Idx v] ++ [pdptIdx v] from rfl,
        tableAt_snoc hp2 (by simp), tableChild_present (by simp) hP2 (Or.inr hbig)]
    generalize frameOf (m2.mem pdpt (pdptIdx v)) = pd at hnext2 ⊢
    have hR2 := h.ready (Nat.le_refl 2) hI2
    rcases openPdEntry_cases hR2.covers pd (pdIdx v) fl user with
      ⟨hH, hm⟩ | ⟨hH, ⟨f, hg, hm⟩ | ⟨h0, hm⟩⟩
    · rcases h.openEntry hF (p := [pml4Idx v, pdptIdx v]) hI2 rfl (by simp) hnext2 (fun _ => hH) with
        ⟨m3, hm3, hI3, hp3, hP3, hH3⟩ | ⟨m3, hm3, hJ⟩
      · right
        refine ⟨m3, frameOf (m3.mem pd (pdIdx v)), by simp only [hm, hm3, Bool.not_true,
          Bool.false_eq_true, if_false], hI3, ?_⟩
        rw [show [pml4Idx v, pdptIdx v, pdIdx v] = [pml4Idx v, pdptIdx v] ++ [pdIdx v] from rfl,
          tableAt_snoc hp3 (by simp), tableChild_present (by simp) hP3 (Or.inr (hH3 hH))]
      · exact Or.inl ⟨m3, by simp only [hm, hm3, Bool.not_false, if_true], hJ⟩
    · exact Or.inr ⟨_, frameOf ((m2.attachPieces user pd (pdIdx v) f).mem pd (pdIdx v)), by
        simp only [hm, Bool.not_true, Bool.false_eq_true, if_false], h.split hI2 hnext2 hH hg,
        (attaches_pieces hR2 hnext2 rfl hg hH user).next_eq hR2⟩
    · exact Or.inl ⟨_, by simp only [hm, Bool.not_false, if_true], h.unsplit hI2 hnext2 hH h0⟩

end Rule

end Lestra
