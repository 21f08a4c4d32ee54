import Lestra.Exec.AddressSpace
import Lestra.Mm.SpaceTree

/-!
# Address spaces — ownership under construction

`Space m r base hand` is the invariant of a private address space with root `r`
while user pages are mapped into it, and the lemmas here say that the stages of
a mapping keep it: the frames that were available before the space was created
(`base`) are available now, belong to the space, or are in the hand of the
caller, each exactly one of these.
-/

namespace Lestra

open Word64 Radix

/-- The frame `f` is a table or a page of the address space. -/
def Owned (m : Machine) (r f : Nat) : Prop := InTree pageChild m.mem 4 r f

/-- The page that a leaf entry maps belongs to the space. -/
theorem owned_of_leaf {m : Machine} {r t : Nat} {p : List (Fin 512)} {i : Fin 512}
    (hp : tableAt pageChild m.mem 4 r p = some t) (hlen : p.length = 3)
    (hP : isPresent (m.mem t i) = true) : Owned m r (frameOf (m.mem t i)) := by
  refine ⟨p ++ [i], ?_⟩
  rw [tableAt_append hp, show 4 - p.length = 1 by omega, tableAt_cons, pageChild, if_pos hP]
  rfl

structure Space (m : Machine) (r : Nat) (base : Nat → Prop) (hand : List Nat) : Prop where
  covers : m.pmm.geo.Covers
  physical : m.pmm.geo.highestPfn ≤ 2 ^ 40
  distinct : Distinct pageChild m.mem 4 r
  plain : ∀ p t, tableAt pageChild m.mem 4 r p = some t → 1 ≤ p.length → p.length ≤ 3 →
    ∀ i, isHuge (m.mem t i) = false
  leaves : ∀ p t, tableAt pageChild m.mem 4 r p = some t → p.length = 3 →
    ∀ i, isPresent (m.mem t i) = true → isUser (m.mem t i) = true
  low : ∀ i : Fin 512, i.val < 4 → isPresent (m.mem r i) = false
  base_iff : ∀ f, base f ↔ Avail m.pmm f ∨ Owned m r f ∨ f ∈ hand
  held : ∀ f, Owned m r f ∨ f ∈ hand → ¬ Avail m.pmm f ∧ m.pmm.physRefcount f ≤ 1
  apart : ∀ f ∈ hand, ¬ Owned m r f
  once : hand.Nodup
  managed : ∀ f, base f → f ≠ 0 ∧ f < m.pmm.geo.highestPfn ∧
    pmmIsProtected m.pmm.geo (mul f pageSize) = false

section Keep

variable {m : Machine} {r t f : Nat} {base : Nat → Prop} {hand : List Nat} {i : Fin 512}
  {p : List (Fin 512)}

theorem Space.heldFrame (hS : Space m r base hand) (hf : Owned m r f ∨ f ∈ hand) :
    HeldFrame m.pmm f := by
  obtain ⟨hno, hone⟩ := hS.held f hf
  obtain ⟨h0, hlt, hprot⟩ := hS.managed f ((hS.base_iff f).mpr (Or.inr hf))
  refine ⟨h0, hlt, ?_, hone⟩
  cases hb : bitmapTest m.pmm f with
  | true => rfl
  | false => exact absurd ⟨hb, hprot⟩ hno

theorem Space.ready (hS : Space m r base hand) (k : Nat) : Ready m r k where
  covers := hS.covers
  physical := hS.physical
  distinct := distinct_tables hS.distinct
  fresh := by
    rintro f hf ⟨q, hq⟩
    have hA := avail_of_mem_nextFrames hS.covers hf
    exact (hS.held f (Or.inl ⟨q, tableAt_page_of_table hq⟩)).1 hA

/-- The PMM does not hand out frame 0. -/
theorem Space.not_avail_zero (hS : Space m r base hand) : ¬ Avail m.pmm 0 :=
  fun h => (hS.managed 0 ((hS.base_iff 0).mpr (Or.inl h))).1 rfl

/-- A failed allocation changes nothing the invariant sees. -/
theorem Space.starved (hS : Space m r base hand) (h0 : (pmmAllocPage m.pmm).2 = 0) :
    Space m.starved r base hand := by
  have hH : Heals m.pmm (pmmAllocPage m.pmm).1 := by
    rcases pmmAllocPage_spec hS.covers with ⟨f, hA, -, hr, -⟩ | ⟨-, hH, -⟩
    · have hf : f = 0 := by omega
      exact absurd (hf ▸ hA) hS.not_avail_zero
    · exact hH
  have hgeo : m.starved.pmm.geo = m.pmm.geo := hH.balanced.geo
  refine
    { covers := hgeo ▸ hS.covers, physical := hgeo ▸ hS.physical, distinct := hS.distinct,
      plain := hS.plain, leaves := hS.leaves, low := hS.low, base_iff := fun g => ?_,
      held := fun g hg => ?_, apart := hS.apart, once := hS.once,
      managed := hgeo ▸ hS.managed }
  · rw [hS.base_iff g]
    exact or_congr (hH.avail g).symm Iff.rfl
  · obtain ⟨h1, h2⟩ := hS.held g hg
    refine ⟨fun hA => h1 ((hH.avail g).mp hA), ?_⟩
    show (pmmAllocPage m.pmm).1.physRefcount g ≤ 1
    rw [hH.refcount]
    exact h2

/-- An allocation puts a frame in the caller's hand. -/
theorem Space.grant (hS : Space m r base hand) (hg : Grants m.pmm f) :
    Space m.starved r base (f :: hand) := by
  have hgeo : m.starved.pmm.geo = m.pmm.geo := hg.taken.geo
  have hf : ¬ (Owned m r f ∨ f ∈ hand) := fun h => (hS.held f h).1 hg.avail
  have hav : ∀ g, Avail m.starved.pmm g ↔ Avail m.pmm g ∧ g ≠ f := hg.avail_iff
  refine
    { covers := hgeo ▸ hS.covers, physical := hgeo ▸ hS.physical, distinct := hS.distinct,
      plain := hS.plain, leaves := hS.leaves, low := hS.low, base_iff := fun g => ?_,
      held := fun g hg' => ?_, apart := fun g hg' => ?_, once := ?_, managed := hgeo ▸ hS.managed }
  · rw [hS.base_iff g, hav g, List.mem_cons]
    by_cases hgf : g = f
    · subst hgf
      simp [hg.avail]
    · simp only [hgf, not_false_eq_true, ne_eq, and_true, false_or]
      exact Iff.rfl
  · have hone : m.starved.pmm.physRefcount g = if f ≤ g ∧ g < f + 1 then 1 else
        m.pmm.physRefcount g := hg.taken.refcount g
    rw [List.mem_cons] at hg'
    by_cases hgf : g = f
    · subst hgf
      refine ⟨fun hA => ((hav g).mp hA).2 rfl, ?_⟩
      rw [hone, if_pos ⟨Nat.le_refl g, Nat.lt_succ_self g⟩]
    · have hold : Owned m r g ∨ g ∈ hand := by
        rcases hg' with h | h | h
        · exact Or.inl h
        · exact absurd h hgf
        · exact Or.inr h
      obtain ⟨h1, h2⟩ := hS.held g hold
      refine ⟨fun hA => h1 ((hav g).mp hA).1, ?_⟩
      rw [hone, if_neg (by omega)]
      exact h2
  · rcases List.mem_cons.mp hg' with rfl | hg'
    · exact fun h => hf (Or.inl h)
    · exact hS.apart g hg'
  · exact List.nodup_cons.mpr ⟨fun h => hf (Or.inr h), hS.once⟩

theorem Space.mark (hS : Space m r base hand) (hp : tableAt tableChild m.mem 3 r p = some t)
    (hlen : p.length ≤ 2) (user : Bool) : Space (m.mark user t i) r base hand := by
  have hp' := tableAt_page_of_table hp
  have hch : pageChild (4 - p.length) (markUser user (m.mem t i)) =
      pageChild (4 - p.length) (m.mem t i) := pageChild_markUser (by omega) user _
  have htab := hS.distinct.tableAt_relabel hp' hch
  have hown : ∀ g, Owned (m.mark user t i) r g ↔ Owned m r g := by
    intro g
    exact exists_congr fun q => by rw [← htab q]; rfl
  -- every entry is the old one, marked or not
  have hent : ∀ t' j, ∃ u, (m.mark user t i).mem t' j = markUser u (m.mem t' j) := by
    intro t' j
    by_cases h : t' = t ∧ j = i
    · obtain ⟨rfl, rfl⟩ := h
      exact ⟨user, write_self⟩
    · exact ⟨false, write_of_ne (by tauto)⟩
  refine
    { covers := hS.covers, physical := hS.physical, distinct := hS.distinct.relabel hp' hch,
      plain := ?_, leaves := ?_, low := ?_, base_iff := fun g => ?_, held := fun g hg => ?_,
      apart := fun g hg => ?_, once := hS.once, managed := hS.managed }
  · intro q t' hq h1 h2 j
    obtain ⟨u, hu⟩ := hent t' j
    rw [hu, isHuge_markUser]
    exact hS.plain q t' ((htab q).symm.trans hq) h1 h2 j
  · intro q t' hq h3 j hP
    obtain ⟨u, hu⟩ := hent t' j
    rw [hu, isPresent_markUser] at hP
    rw [hu, isUser_markUser, hS.leaves q t' ((htab q).symm.trans hq) h3 j hP, Bool.or_true]
  · intro j hj
    obtain ⟨u, hu⟩ := hent r j
    rw [hu, isPresent_markUser]
    exact hS.low j hj
  · rw [hown g]
    exact hS.base_iff g
  · rw [hown g] at hg
    exact hS.held g hg
  · rw [hown g]
    exact hS.apart g hg

/-- Hanging a frame from the caller's hand into the tree: an empty table below
an entry of a table, or a page below an entry of a leaf table. -/
theorem Space.hang {k : Nat} {e : BitVec 64} (row : Fin 512 → BitVec 64)
    (hS : Space m r base (f :: hand)) (hp : tableAt pageChild m.mem 4 r p = some t)
    (hk : 4 - p.length = k + 1) (hold : pageChild (k + 1) (m.mem t i) = none)
    (hnew : pageChild (k + 1) e = some f)
    (hrow : p.length ≤ 2 → ∀ j, row j = 0#64)
    (hplain : 1 ≤ p.length → isHuge e = false)
    (hleaf : p.length = 3 → isUser e = true) (hlow : p = [] → 4 ≤ i.val) :
    Space { m with mem := write (Function.update m.mem f row) t i e } r base hand := by
  have hu : ¬ InTree pageChild m.mem 4 r f := hS.apart f (by simp)
  have hf : f ∉ hand := (List.nodup_cons.mp hS.once).1
  have hchild : ∀ j, pageChild k (row j) = none := by
    intro j
    rcases Nat.lt_or_ge 2 p.length with h | h
    · rw [show k = 0 by omega]
      rfl
    · exact pageChild_absent (by rw [hrow h j]; decide)
  have htab := hS.distinct.tableAt_attach hp hk hold hnew hu hchild
  have hown : ∀ g, Owned { m with mem := write (Function.update m.mem f row) t i e } r g ↔
      Owned m r g ∨ g = f := hS.distinct.inTree_attach hp hk hold hnew hu hchild
  -- an entry of the new tree is an old entry, the new one, or in the new table
  have hent : ∀ q t' j, tableAt pageChild (write (Function.update m.mem f row) t i e) 4 r q = some t' →
      (q = p ++ [i] ∧ t' = f ∧ write (Function.update m.mem f row) t i e t' j = row j) ∨
      (q = p ∧ t' = t ∧ j = i ∧ write (Function.update m.mem f row) t i e t' j = e) ∨
      (tableAt pageChild m.mem 4 r q = some t' ∧
        write (Function.update m.mem f row) t i e t' j = m.mem t' j) := by
    intro q t' j hq
    rw [htab q] at hq
    split at hq
    · next hqp =>
      obtain rfl : f = t' := Option.some.inj hq
      have hft : f ≠ t := by
        rintro rfl
        exact hu ⟨p, hp⟩
      refine Or.inl ⟨hqp, rfl, ?_⟩
      rw [write_table_of_ne hft, Function.update_self]
    · have hft : t' ≠ f := by
        rintro rfl
        exact hu ⟨q, hq⟩
      by_cases h : t' = t ∧ j = i
      · obtain ⟨rfl, rfl⟩ := h
        exact Or.inr (Or.inl ⟨hS.distinct q p t' hq hp, rfl, rfl, write_self⟩)
      · refine Or.inr (Or.inr ⟨hq, ?_⟩)
        rw [write_of_ne (by tauto), Function.update_of_ne hft]
  refine
    { covers := hS.covers, physical := hS.physical,
      distinct := hS.distinct.attach hp hk hold hnew hu hchild,
      plain := ?_, leaves := ?_, low := ?_, base_iff := fun g => ?_, held := fun g hg => ?_,
      apart := fun g hg => ?_, once := (List.nodup_cons.mp hS.once).2, managed := hS.managed }
  · intro q t' hq h1 h2 j
    dsimp only
    rcases hent q t' j hq with ⟨rfl, -, he⟩ | ⟨rfl, -, -, he⟩ | ⟨hq', he⟩
    · rw [List.length_append, List.length_singleton] at h2
      rw [he, hrow (by omega)]
      decide
    · rw [he]
      exact hplain h1
    · rw [he]
      exact hS.plain q t' hq' h1 h2 j
  · intro q t' hq h3 j hP
    dsimp only at hP ⊢
    rcases hent q t' j hq with ⟨rfl, -, he⟩ | ⟨rfl, -, -, he⟩ | ⟨hq', he⟩
    · rw [List.length_append, List.length_singleton] at h3
      rw [he, hrow (by omega)] at hP
      exact absurd hP (by decide)
    · rw [he]
      exact hleaf h3
    · rw [he] at hP ⊢
      exact hS.leaves q t' hq' h3 j hP
  · intro j hj
    rcases hent [] r j tableAt_nil with ⟨h, -⟩ | ⟨h, -, rfl, -⟩ | ⟨-, he⟩
    · simp at h
    · exact absurd (hlow h.symm) (by omega)
    · exact (congrArg isPresent he).trans (hS.low j hj)
  · rw [hS.base_iff g, hown g, List.mem_cons, or_assoc]
  · rw [hown g, or_assoc, ← List.mem_cons] at hg
    exact hS.held g hg
  · intro ho
    rcases (hown g).mp ho with h | rfl
    · exact hS.apart g (List.mem_cons_of_mem f hg) h
    · exact hf hg

/-- A stage that builds a table. -/
theorem Space.attachEmpty (hS : Space m r base hand) (hg : Grants m.pmm f)
    (hp : tableAt tableChild m.mem 3 r p = some t) (hlen : p.length ≤ 2)
    (habs : isPresent (m.mem t i) = false) {flags : BitVec 64} (hF : TableFlags flags)
    (hlow : p = [] → 4 ≤ i.val) (user : Bool) :
    Space (m.attachEmpty user t i f flags) r base hand := by
  obtain ⟨n, hn⟩ : ∃ n, 3 - p.length = n + 1 := ⟨2 - p.length, by omega⟩
  have hA := attaches_empty (hS.ready 1) hp hn hg habs hF.mask hF.present hF.huge user
  have hhuge : isHuge (markUser user (BitVec.ofNat 64 (f * 4096) ||| flags)) = false := by
    rw [isHuge_markUser, isHuge_or, isHuge_ofNat_frame, hF.huge]
    rfl
  refine (hS.grant hg).hang (k := n + 1) _ (tableAt_page_of_table hp) (by omega)
    (pageChild_absent habs) hA.new (fun _ _ => rfl) (fun _ => hhuge)
    (fun h => by omega) hlow

-- ---------------------------------------------------------------------------
-- The way down
-- ---------------------------------------------------------------------------

/-- No table of a private address space holds a 2 MB page, so no stage splits one. -/
theorem Space.stageRule {v fl : BitVec 64} (hF : TableFlags fl) (hv : 4 ≤ (pml4Idx v).val)
    (user : Bool) : StageRule r v fl user (fun _ m => Space m r base hand)
      (fun m => Space m r base hand) where
  ready := fun _ hS => hS.ready 1
  mark := fun hS _ hlen hp _ _ => hS.mark hp hlen user
  attach := by
    intro m t i p q f hS hvp hlen hp _ hP hg
    refine hS.attachEmpty hg hp hlen hP hF (fun hnil => ?_) user
    subst hnil
    obtain rfl : pml4Idx v = i := (List.cons.inj hvp).1
    exact hv
  starved := fun hS _ _ _ _ h0 => hS.starved h0
  giant := fun hS _ _ => hS
  split := by
    intro m t f hS hp hH _
    rw [hS.plain _ t (tableAt_page_of_table hp) (by simp) (by simp) (pdIdx v)] at hH
    exact absurd hH (by simp)
  unsplit := fun hS _ _ h0 => hS.starved h0

theorem Space.openPath {m' : Machine} {pt : Nat} (hS : Space m r base hand) {v fl : BitVec 64}
    (hF : TableFlags fl) (hv : 4 ≤ (pml4Idx v).val) {user : Bool}
    (hm' : openPath m r v fl user = (m', some pt)) : Space m' r base hand := by
  rcases (Space.stageRule hF hv user).openPath hF hS with ⟨m₁, h₁, -⟩ | ⟨m₁, pt₁, h₁, hS₁, -⟩
  · rw [h₁] at hm'
    simp at hm'
  · rw [h₁] at hm'
    exact (Prod.mk.inj hm').1 ▸ hS₁

-- ---------------------------------------------------------------------------
-- The leaf
-- ---------------------------------------------------------------------------

/-- The content of a frame in the caller's hand is nobody's table. -/
theorem Space.fill (hS : Space m r base hand) (hf : f ∈ hand) (row : Fin 512 → BitVec 64) :
    Space { m with mem := Function.update m.mem f row } r base hand := by
  have hu : ¬ InTree pageChild m.mem 4 r f := hS.apart f hf
  have htab : ∀ q, tableAt pageChild (Function.update m.mem f row) 4 r q =
      tableAt pageChild m.mem 4 r q := tableAt_congr (update_congr hu)
  have hent : ∀ q t', tableAt pageChild (Function.update m.mem f row) 4 r q = some t' →
      Function.update m.mem f row t' = m.mem t' :=
    fun q t' hq => update_congr hu t' ⟨q, (htab q).symm.trans hq⟩
  have hown : ∀ g, Owned { m with mem := Function.update m.mem f row } r g ↔ Owned m r g :=
    fun g => exists_congr fun q => by rw [← htab q]
  refine
    { covers := hS.covers, physical := hS.physical, distinct := fun p q u hp hq => ?_,
      plain := fun q t' hq => ?_, leaves := fun q t' hq => ?_, low := fun j hj => ?_,
      base_iff := fun g => ?_, held := fun g hg => ?_, apart := fun g hg => ?_, once := hS.once,
      managed := hS.managed }
  · exact hS.distinct p q u ((htab p).symm.trans hp) ((htab q).symm.trans hq)
  · dsimp only
    rw [hent q t' hq]
    exact hS.plain q t' ((htab q).symm.trans hq)
  · dsimp only
    rw [hent q t' hq]
    exact hS.leaves q t' ((htab q).symm.trans hq)
  · dsimp only
    rw [hent [] r tableAt_nil]
    exact hS.low j hj
  · rw [hown g]
    exact hS.base_iff g
  · rw [hown g] at hg
    exact hS.held g hg
  · rw [hown g]
    exact hS.apart g hg

/-- Freeing the page below a leaf entry and clearing the entry. -/
theorem Space.unhang (hS : Space m r base hand) (hp : tableAt pageChild m.mem 4 r p = some t)
    (hlen : p.length = 3) (hP : isPresent (m.mem t i) = true) :
    Space { pmm := freeFrame m.pmm (frameOf (m.mem t i)), mem := write m.mem t i 0#64 } r base
      hand := by
  obtain ⟨u, hu⟩ : ∃ u, frameOf (m.mem t i) = u := ⟨_, rfl⟩
  have h1 : 4 - p.length = 1 := by omega
  have hold : pageChild 1 (m.mem t i) = some u := by
    rw [pageChild, if_pos hP, hu]
  have hnone : pageChild (4 - p.length) 0#64 = none := pageChild_absent (by decide)
  have htab := hS.distinct.tableAt_detach (i := i) hp hnone
  have hsub : ∀ q t', tableAt pageChild (write m.mem t i 0#64) 4 r q = some t' →
      tableAt pageChild m.mem 4 r q = some t' := by
    intro q t' hq
    rw [htab q] at hq
    split at hq
    · simp at hq
    · exact hq
  have hent : ∀ t' j, write m.mem t i 0#64 t' j = 0#64 ∨
      write m.mem t i 0#64 t' j = m.mem t' j := by
    intro t' j
    by_cases h : t' = t ∧ j = i
    · obtain ⟨rfl, rfl⟩ := h
      exact Or.inl write_self
    · exact Or.inr (write_of_ne (by tauto))
  have hown : ∀ g, InTree pageChild (write m.mem t i 0#64) 4 r g ↔ Owned m r g ∧ g ≠ u :=
    hS.distinct.inTree_detach hp hnone h1 hold
  have huo : Owned m r u := hu ▸ owned_of_leaf hp hlen hP
  have hh := hS.heldFrame (Or.inl huo)
  have hR := freeFrame_spec m.pmm hh.pos
  have hav : ∀ g, Avail (freeFrame m.pmm u) g ↔ Avail m.pmm g ∨ g = u := by
    intro g
    have hprot := (hS.managed u ((hS.base_iff u).mpr (Or.inr (Or.inl huo)))).2.2
    rw [show freeFrame m.pmm u = [u].foldl freeFrame m.pmm from rfl,
      avail_foldl_freeFrame ⟨by simp, by simpa using hh⟩ (by simpa using hprot), List.mem_singleton]
  rw [hu]
  refine
    { covers := hR.geo ▸ hS.covers, physical := hR.geo ▸ hS.physical,
      distinct := hS.distinct.detach hp hnone, plain := fun q t' hq h1 h2 j => ?_,
      leaves := fun q t' hq h3 j hP => ?_, low := fun j hj => ?_, base_iff := fun g => ?_,
      held := fun g hg => ?_, apart := fun g hg ho => ?_, once := hS.once,
      managed := hR.geo ▸ hS.managed }
  · dsimp only
    rcases hent t' j with he | he
    · rw [he]
      decide
    · rw [he]
      exact hS.plain q t' (hsub q t' hq) h1 h2 j
  · dsimp only at hP ⊢
    rcases hent t' j with he | he
    · rw [he] at hP
      exact absurd hP (by decide)
    · rw [he] at hP ⊢
      exact hS.leaves q t' (hsub q t' hq) h3 j hP
  · dsimp only
    rcases hent r j with he | he
    · rw [he]
      decide
    · rw [he]
      exact hS.low j hj
  · have hb := hS.base_iff g
    show base g ↔ Avail (freeFrame m.pmm u) g ∨ InTree pageChild _ 4 r g ∨ g ∈ hand
    rw [hb, hav g, hown g]
    by_cases hg : g = u
    · subst hg
      simp [huo]
    · simp [hg]
  · have hg' : (Owned m r g ∨ g ∈ hand) ∧ g ≠ u := by
      rcases hg with hg | hg
      · exact ⟨Or.inl ((hown g).mp hg).1, ((hown g).mp hg).2⟩
      · refine ⟨Or.inr hg, ?_⟩
        rintro rfl
        exact hS.apart g hg huo
    obtain ⟨h1, h2⟩ := hS.held g hg'.1
    refine ⟨fun hA => ?_, ?_⟩
    · exact ((hav g).mp hA).elim h1 hg'.2
    · show (freeFrame m.pmm u).physRefcount g ≤ 1
      rw [hR.refcount g hg'.2]
      exact h2
  · exact hS.apart g hg ((hown g).mp ho).1

/-- The leaf entry for the page at frame `f`. -/
theorem frameOf_leaf {flags : BitVec 64} (hlt : f < 2 ^ 40) (hmask : flags &&& ptePhysMask = 0#64) :
    frameOf (BitVec.ofNat 64 (f * 4096) ||| flags ||| pagePresent) = f := by
  rw [BitVec.or_assoc, frameOf_ofNat_or hlt]
  rw [BitVec.and_or_distrib_right, hmask]
  decide

/-- A page from the caller's hand is hung below an absent leaf entry. -/
theorem Space.setLeaf (hS : Space m r base (f :: hand))
    (hp : tableAt tableChild m.mem 3 r p = some t) (hlen : p.length = 3)
    (habs : isPresent (m.mem t i) = false) {flags : BitVec 64}
    (hmask : flags &&& ptePhysMask = 0#64) (huser : isUser flags = true)
    (hsmall : isHuge flags = false) :
    Space (m.setEntry t i (BitVec.ofNat 64 (f * 4096) ||| flags ||| pagePresent)) r base hand := by
  have hlt : f < 2 ^ 40 := by
    have h := (hS.managed f ((hS.base_iff f).mpr (Or.inr (Or.inr (by simp))))).2.1
    exact Nat.lt_of_lt_of_le h hS.physical
  have hnew : pageChild 1 (BitVec.ofNat 64 (f * 4096) ||| flags ||| pagePresent) = some f := by
    rw [pageChild, frameOf_leaf hlt hmask, if_pos]
    rw [isPresent_or, show isPresent pagePresent = true by decide, Bool.or_true]
  have h := hS.hang (k := 0) (i := i) (m.mem f) (tableAt_page_of_table hp) (by omega)
    (pageChild_absent habs) hnew (fun h => by omega)
    (fun _ => by rw [isHuge_or, isHuge_or, isHuge_ofNat_frame, hsmall]; decide)
    (fun _ => by simp [isUser_or, huser]) (fun h => by simp [h] at hlen)
  rwa [Function.update_eq_self] at h

/-- The leaf stage of `vmm_map_page` frees the page that it replaces. -/
theorem Space.installPte (hS : Space m r base (f :: hand))
    (hp : tableAt tableChild m.mem 3 r p = some t) (hlen : p.length = 3) {flags : BitVec 64}
    (hmask : flags &&& ptePhysMask = 0#64) (huser : isUser flags = true)
    (hsmall : isHuge flags = false) :
    Space (installPte m t i (BitVec.ofNat 64 (f * 4096)) flags) r base hand := by
  cases hP : isPresent (m.mem t i) with
  | false =>
    have h := hS.setLeaf hp hlen hP hmask huser hsmall
    simpa [Lestra.installPte, hP] using h
  | true =>
    have hp' := tableAt_page_of_table hp
    have hU := hS.leaves p t hp' hlen i hP
    have hold : Owned m r (frameOf (m.mem t i)) := owned_of_leaf hp' hlen hP
    -- the new page is not the old one: it is not part of the space yet
    have hne : m.mem t i &&& ptePhysMask ≠ BitVec.ofNat 64 (f * 4096) := by
      intro heq
      have hlt : f < 2 ^ 40 := by
        have h := (hS.managed f ((hS.base_iff f).mpr (Or.inr (Or.inr (by simp))))).2.1
        exact Nat.lt_of_lt_of_le h hS.physical
      have hf : frameOf (m.mem t i) = f := by
        rw [frameOf, physOf, heq, BitVec.toNat_ofNat, pageSize_eq]
        omega
      exact hS.apart f (by simp) (hf ▸ hold)
    have hdrop : dropReference m.pmm (physOf (m.mem t i)) =
        freeFrame m.pmm (frameOf (m.mem t i)) := by
      rw [physOf_eq]
      exact dropReference_eq (hS.heldFrame (Or.inl hold))
    have h1 := hS.unhang (i := i) hp' hlen hP
    have hp1 : tableAt tableChild (write m.mem t i 0#64) 3 r p = some t :=
      (distinct_tables hS.distinct).tableAt_write_self hp
    have h2 := h1.setLeaf (i := i) hp1 hlen (by simp [isPresent]) hmask huser hsmall
    simpa [Lestra.installPte, hP, hU, hne, hdrop, Machine.setEntry] using h2

end Keep

end Lestra
