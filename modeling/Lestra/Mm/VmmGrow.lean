import Lestra.Mm.VmmUser

/-!
# Virtual memory manager — growing an address space

Mapping a user page where nothing is mapped. The stages of the mapping add user
bits to walks, or replace a walk that ends in an absent entry by a longer one
that does; `Grows` says so for every page at once, and `map_page_grows` adds the
one page that is new. Nothing here needs the mapping to go through: where the
PMM runs out of frames, the new page is missing and the rest still holds.
-/

namespace Lestra

open Word64 Radix

-- ---------------------------------------------------------------------------
-- Walks that grow
-- ---------------------------------------------------------------------------

/-- The entry `e'` is `e`, perhaps with the user bit set. -/
def AddsUser (e e' : BitVec 64) : Prop := ∃ user, e' = markUser user e

theorem AddsUser.refl (e : BitVec 64) : AddsUser e e := ⟨false, rfl⟩

/-- Present entries are writable and absent ones are no huge pages. -/
def CleanEntry (e : BitVec 64) : Prop :=
  (isPresent e = true → isWritable e = true) ∧ (isHuge e = true → isPresent e = true)

def CleanWalk (es : List (BitVec 64)) : Prop := ∀ e ∈ es, CleanEntry e

@[simp] theorem isWritable_markUser (user : Bool) (e : BitVec 64) :
    isWritable (markUser user e) = isWritable e := by
  cases user
  · rfl
  · rw [markUser, if_pos rfl, isWritable_or, show isWritable pageUser = false by decide,
      Bool.or_false]

theorem CleanEntry.mark {e : BitVec 64} (h : CleanEntry e) (user : Bool) :
    CleanEntry (markUser user e) := by
  unfold CleanEntry
  rw [isPresent_markUser, isWritable_markUser, isHuge_markUser]
  exact h

/-- What the stages of a mapping do to a walk. -/
structure Grows (es es' : List (BitVec 64)) : Prop where
  walk : List.Forall₂ AddsUser es es' ∨ (Broken es ∧ Broken es')
  clean : CleanWalk es → CleanWalk es'

theorem forall₂_addsUser_refl : ∀ es : List (BitVec 64), List.Forall₂ AddsUser es es
  | [] => List.Forall₂.nil
  | e :: es => List.Forall₂.cons (AddsUser.refl e) (forall₂_addsUser_refl es)

theorem Grows.refl (es : List (BitVec 64)) : Grows es es :=
  ⟨Or.inl (forall₂_addsUser_refl es), id⟩

theorem forall₂_addsUser_trans {as bs cs : List (BitVec 64)} (h : List.Forall₂ AddsUser as bs)
    (h' : List.Forall₂ AddsUser bs cs) : List.Forall₂ AddsUser as cs := by
  induction h generalizing cs with
  | nil =>
    cases h'
    exact .nil
  | cons hab _ ih =>
    cases h' with
    | cons hbc hs' =>
      refine .cons ?_ (ih hs')
      obtain ⟨u, rfl⟩ := hab
      obtain ⟨u', rfl⟩ := hbc
      refine ⟨u || u', ?_⟩
      cases u <;> cases u' <;> simp [markUser, BitVec.or_assoc]

theorem broken_iff_of_forall₂ : ∀ {as bs : List (BitVec 64)}, List.Forall₂ AddsUser as bs →
    (Broken bs ↔ Broken as)
  | [], _, .nil => Iff.rfl
  | a :: as, _ :: bs, .cons h hs => by
    obtain ⟨u, rfl⟩ := h
    have ih := broken_iff_of_forall₂ hs
    unfold Broken at ih ⊢
    simp only [List.mem_cons, exists_eq_or_imp, isPresent_markUser, ih]

theorem Grows.broken_iff {es es' : List (BitVec 64)} (h : Grows es es') : Broken es' ↔ Broken es := by
  rcases h.walk with hw | ⟨hb, hb'⟩
  · exact broken_iff_of_forall₂ hw
  · exact iff_of_true hb' hb

theorem Grows.trans {as bs cs : List (BitVec 64)} (h : Grows as bs) (h' : Grows bs cs) :
    Grows as cs := by
  refine ⟨?_, fun hc => h'.clean (h.clean hc)⟩
  rcases h.walk with hw | ⟨hb, hb'⟩
  · rcases h'.walk with hw' | ⟨hb', hb''⟩
    · exact Or.inl (forall₂_addsUser_trans hw hw')
    · exact Or.inr ⟨h.broken_iff.mp hb', hb''⟩
  · exact Or.inr ⟨hb, h'.broken_iff.mpr hb'⟩

theorem forall₂_set_mark : ∀ {es : List (BitVec 64)} {k : Nat} {e : BitVec 64}, es[k]? = some e →
    ∀ user, List.Forall₂ AddsUser es (es.set k (markUser user e))
  | [], _, _, h, _ => by simp at h
  | a :: es, 0, e, h, user => by
    obtain rfl : a = e := by simpa using h
    exact .cons ⟨user, rfl⟩ (forall₂_addsUser_refl es)
  | a :: es, k + 1, e, h, user => by
    rw [List.getElem?_cons_succ] at h
    exact .cons (AddsUser.refl a) (forall₂_set_mark h user)

theorem grows_set_mark {es : List (BitVec 64)} {k : Nat} {e : BitVec 64} (h : es[k]? = some e)
    (user : Bool) : Grows es (es.set k (markUser user e)) := by
  refine ⟨Or.inl (forall₂_set_mark h user), fun hc a ha => ?_⟩
  rcases List.mem_or_eq_of_mem_set ha with ha | rfl
  · exact hc a ha
  · exact (hc e (List.mem_of_getElem? h)).mark user

/-- Adding user bits to a walk keeps its translation. -/
theorem walkPhys_of_forall₂ {es es' : List (BitVec 64)} (h : List.Forall₂ AddsUser es es')
    (v : BitVec 64) : walkPhys es' v = walkPhys es v := by
  match es, es', h with
  | [], _, .nil => rfl
  | [_], [_], _ => rfl
  | [_, _], [_, _], .cons _ (.cons ⟨u, hu⟩ .nil) =>
    rw [hu]
    exact entryPhys_markUser _ _ _ _
  | [_, _, _], [_, _, _], .cons _ (.cons _ (.cons ⟨u, hu⟩ .nil)) =>
    rw [hu]
    exact entryPhys_markUser _ _ _ _
  | [_, _, _, _], [_, _, _, _], .cons _ (.cons _ (.cons _ (.cons ⟨u, hu⟩ .nil))) =>
    rw [hu]
    exact entryPhys_markUser _ _ _ _
  | _ :: _ :: _ :: _ :: _ :: _, _ :: _ :: _ :: _ :: _ :: _, _ => rfl

-- ---------------------------------------------------------------------------
-- Walks that end
-- ---------------------------------------------------------------------------

theorem walk_present {m : Machine} {r : Nat} {v e : BitVec 64} {k : Nat}
    (h : (walk m r v)[k]? = some e) (hk : k + 1 < (walk m r v).length) : isPresent e = true := by
  obtain ⟨u, hu⟩ := child_of_trail_getElem? h hk
  exact (tableChild_eq_some hu).1

/-- Only the last entry of a walk can be absent. -/
theorem broken_walk {m : Machine} {r : Nat} {v : BitVec 64} (h : Broken (walk m r v)) :
    ∃ es e, walk m r v = es ++ [e] ∧ isPresent e = false := by
  obtain ⟨e, he, hP⟩ := h
  obtain ⟨k, hk⟩ := List.mem_iff_getElem?.mp he
  have hlt := (List.getElem?_eq_some_iff.mp hk).1
  have hlast : k + 1 = (walk m r v).length := by
    by_contra hne
    rw [walk_present hk (by omega)] at hP
    exact Bool.noConfusion hP
  refine ⟨(walk m r v).take k, e, ?_, hP⟩
  have htake := List.take_append_getElem hlt
  rw [(List.getElem?_eq_some_iff.mp hk).2, hlast, List.take_length] at htake
  exact htake.symm

theorem getPhys_broken {m : Machine} {r : Nat} {v : BitVec 64} (h : Broken (walk m r v)) :
    vmmGetPhys m r v = 0#64 := by
  obtain ⟨es, e, hw, hP⟩ := broken_walk h
  rw [vmmGetPhys_eq, hw]
  exact walkPhys_absent hP v

theorem not_broken_of_last {m : Machine} {r : Nat} {v e : BitVec 64} (es : List (BitVec 64))
    (hw : walk m r v = es ++ [e]) (hP : isPresent e = true) : ¬ Broken (walk m r v) := by
  intro h
  obtain ⟨es', e', hw', hP'⟩ := broken_walk h
  rw [hw] at hw'
  obtain ⟨-, he⟩ := List.append_inj' hw' rfl
  rw [List.singleton_inj.mp he, hP'] at hP
  exact Bool.noConfusion hP

-- ---------------------------------------------------------------------------
-- The stages
-- ---------------------------------------------------------------------------

section Stages

variable {m : Machine} {r : Nat} {v : BitVec 64}

/-- The machine `mS` is `m` after `d` stages of a user mapping of the unmapped page `v`. -/
structure Growing (m mS : Machine) (r : Nat) (v : BitVec 64) (d : Nat) : Prop where
  steady : Steady mS r
  grows : ∀ w, Grows (walk m r w) (walk mS r w)
  opened : ∀ k < d, ∃ e, (walk mS r v)[k]? = some e ∧ isPresent e = true ∧ isUser e = true

theorem Growing.mark {mS : Machine} {t : Nat} {i : Fin 512} {p q : List (Fin 512)}
    (hG : Growing m mS r v p.length) (hv : vpath v = p ++ i :: q)
    (hp : tableAt tableChild mS.mem 3 r p = some t) (hP : isPresent (mS.mem t i) = true) :
    Growing m (mS.mark true t i) r v (p.length + 1) := by
  have hR := hG.steady.ready 0
  refine ⟨hG.steady.mark hp true, fun w => ?_, fun k hk => ?_⟩
  · refine (hG.grows w).trans ?_
    by_cases hw : p ++ [i] <+: vpath w
    · obtain ⟨q', hq'⟩ := hw
      have hpath : vpath w = p ++ i :: q' := by rw [← hq']; simp
      rw [hR.walk_mark_on hp hpath]
      exact grows_set_mark (walk_getElem? hp hpath) true
    · rw [hR.walk_mark_off hp hw]
      exact Grows.refl _
  · rw [hR.walk_mark_on hp hv]
    have hget := walk_getElem? hp hv
    by_cases hkp : k = p.length
    · subst hkp
      refine ⟨_, List.getElem?_set_self (List.getElem?_eq_some_iff.mp hget).1, ?_, ?_⟩
      · rw [isPresent_markUser, hP]
      · rw [isUser_markUser, Bool.true_or]
    · rw [List.getElem?_set_ne (Ne.symm hkp)]
      exact hG.opened k (by omega)

theorem cleanEntry_table (f : Nat) :
    CleanEntry (markUser true (BitVec.ofNat 64 (f * 4096) ||| vmmTableFlags true)) := by
  refine CleanEntry.mark ⟨fun _ => ?_, fun h => ?_⟩ true
  · rw [isWritable_or, show isWritable (vmmTableFlags true) = true by decide, Bool.or_true]
  · rw [isHuge_or, isHuge_ofNat_frame, show isHuge (vmmTableFlags true) = false by decide] at h
    exact absurd h (by simp)

theorem Growing.attach {mS : Machine} {t f : Nat} {i : Fin 512} {p q : List (Fin 512)}
    (hG : Growing m mS r v p.length) (hv : vpath v = p ++ i :: q) (hlen : p.length ≤ 2)
    (hp : tableAt tableChild mS.mem 3 r p = some t) (hP : isPresent (mS.mem t i) = false)
    (hg : Grants mS.pmm f) :
    Growing m (mS.attachEmpty true t i f (vmmTableFlags true)) r v (p.length + 1) := by
  have hR : Ready mS r (0 + 1) := hG.steady.ready 1
  have hF := tableFlags_vmm true
  obtain ⟨n, hn⟩ : ∃ n, 3 - p.length = n + 1 := ⟨2 - p.length, by omega⟩
  have hA := attaches_empty hR hp hn hg hP hF.mask hF.present hF.huge true
  have hnew := (tableChild_eq_some hA.new).1
  refine ⟨hG.steady.attach hA, fun w => (hG.grows w).trans ?_, fun k hk => ?_⟩
  · by_cases hw : p ++ [i] <+: vpath w
    · obtain ⟨j, q', hpath⟩ := exists_next_index hlen hw
      rw [Machine.attachEmpty, hR.walk_attach_on hA hpath, hA.walk hpath]
      refine ⟨Or.inr ⟨⟨_, by simp, hP⟩, ⟨0#64, by simp, by decide⟩⟩, fun hc e he => ?_⟩
      rcases List.mem_append.mp he with he | he
      · exact hc e (List.mem_append_left _ he)
      · rcases List.mem_cons.mp he with rfl | he
        · exact cleanEntry_table f
        · rw [List.mem_singleton.mp he]
          exact ⟨by decide, by decide⟩
    · rw [Machine.attachEmpty, hR.walk_attach_off hA hw]
      exact Grows.refl _
  · have hpre : p ++ [i] <+: vpath v := ⟨q, by rw [hv]; simp⟩
    obtain ⟨j, q', hpath⟩ := exists_next_index hlen hpre
    have hl := length_trail hA.at_path
    rw [Machine.attachEmpty, hR.walk_attach_on hA hpath]
    by_cases hkp : k = p.length
    · refine ⟨_, by rw [hkp, ← hl, List.getElem?_append_right (Nat.le_refl _), Nat.sub_self]; rfl,
        hnew, ?_⟩
      rw [isUser_markUser, Bool.true_or]
    · have hold := hG.opened k (by omega)
      rw [hA.walk hv, List.getElem?_append_left (by omega)] at hold
      rw [List.getElem?_append_left (by omega)]
      exact hold

theorem Steady.starved {mS : Machine} (hS : Steady mS r) : Steady mS.starved r :=
  hS.alloc fun _ _ => rfl

/-- On the path of an unmapped page there is no huge page to split. -/
theorem growing_stageRule (hb : Broken (walk m r v)) (hc : CleanWalk (walk m r v)) :
    StageRule r v (vmmTableFlags true) true (fun d mS => Growing m mS r v d)
      (fun mS => Growing m mS r v 0) := by
  have hno : ∀ {mS : Machine} {t : Nat} {P : Prop}, Growing m mS r v 2 →
      tableAt tableChild mS.mem 3 r [pml4Idx v, pdptIdx v] = some t →
      isHuge (mS.mem t (pdIdx v)) = true → P := by
    intro mS t P hG hp hH
    have hw : walk mS r v = trail tableChild mS.mem 3 r [pml4Idx v, pdptIdx v] ++
        [mS.mem t (pdIdx v)] :=
      trail_of_child_none (p := [pml4Idx v, pdptIdx v]) hp rfl (by simp [tableChild, hH]) _
    have hclean := (hG.grows v).clean hc (mS.mem t (pdIdx v)) (by rw [hw]; simp)
    exact absurd ((hG.grows v).broken_iff.mpr hb) (not_broken_of_last _ hw (hclean.2 hH))
  exact
    { ready := fun _ hG => hG.steady.ready 1
      mark := fun hG hv _ hp _ hP => hG.mark hv hp hP
      attach := fun hG hv hlen hp _ hP hg => hG.attach hv hlen hp hP hg
      starved := fun hG _ _ _ _ _ => ⟨hG.steady.starved, hG.grows, fun k hk => by omega⟩
      giant := fun hG _ _ => ⟨hG.steady, hG.grows, fun k hk => by omega⟩
      split := fun hG hp hH _ => hno hG hp hH
      unsplit := fun hG hp hH _ => hno hG hp hH }

/-- The walk ends in the leaf entry `leaf`, below entries that user code may
write through. -/
def MappedAs (es : List (BitVec 64)) (leaf : BitVec 64) : Prop :=
  ∃ a b c, es = [a, b, c, leaf] ∧
    ∀ e ∈ [a, b, c], isPresent e = true ∧ isUser e = true ∧ isWritable e = true

theorem Steady.setLeaf {mS : Machine} {pt : Nat} {i : Fin 512} {p : List (Fin 512)}
    (hS : Steady mS r) (hp : tableAt tableChild mS.mem 3 r p = some pt) (hlen : p.length = 3)
    (e : BitVec 64) : Steady (mS.setEntry pt i e) r := by
  have hch : tableChild (3 - p.length) e = tableChild (3 - p.length) (mS.mem pt i) := by
    rw [hlen, tableChild_zero, tableChild_zero]
  refine ⟨hS.covers, hS.physical, hS.distinct.relabel hp hch, ?_⟩
  rintro f hf ⟨q, hq⟩
  exact hS.fresh f hf ⟨q, (hS.distinct.tableAt_relabel hp hch q).symm.trans hq⟩

/-- A complete walk, from the table it ends in. -/
theorem walk_of_leaf {mS : Machine} {pt : Nat}
    (hp : tableAt tableChild mS.mem 3 r [pml4Idx v, pdptIdx v, pdIdx v] = some pt) :
    ∃ a b c, walk mS r v = [a, b, c, mS.mem pt (ptIdx v)] := by
  have hl := length_trail hp
  rw [walk, show vpath v = [pml4Idx v, pdptIdx v, pdIdx v] ++ [ptIdx v] from rfl, trail_append hp]
  obtain ⟨a, b, c, htr⟩ := List.length_eq_three.mp hl
  rw [htr]
  exact ⟨a, b, c, rfl⟩

/-- **Mapping an unmapped page.** Every other walk grows; the page itself is
mapped, or its walk has grown too because there was no frame for a table. -/
theorem map_page_grows {f : Nat} {flags : BitVec 64} (hS : Steady m r) (hb : Broken (walk m r v))
    (hc : CleanWalk (walk m r v)) (hu : isUser flags = true) :
    let m' := vmmMapPage m r v (BitVec.ofNat 64 (f * 4096)) flags
    Steady m' r ∧ (∀ w, pageNumber w ≠ pageNumber v → Grows (walk m r w) (walk m' r w)) ∧
      (Grows (walk m r v) (walk m' r v) ∨
        MappedAs (walk m' r v) (BitVec.ofNat 64 (f * 4096) ||| flags ||| pagePresent)) := by
  intro m'
  have hstart : Growing m m r v 0 := ⟨hS, fun w => Grows.refl _, fun k hk => by omega⟩
  rcases (growing_stageRule hb hc).openPath (tableFlags_vmm true) hstart with
    ⟨m₁, hm₁, hG⟩ | ⟨m₁, pt, hm₁, hG, hpt⟩
  · have hm' : m' = m₁ := by simp only [m', vmmMapPage, hu, hm₁]
    rw [hm']
    exact ⟨hG.steady, fun w _ => hG.grows w, Or.inl (hG.grows v)⟩
  · obtain ⟨a, b, c, hw⟩ := walk_of_leaf hpt
    have hb₁ := (hG.grows v).broken_iff.mpr hb
    have hleaf : isPresent (m₁.mem pt (ptIdx v)) = false := by
      cases hP : isPresent (m₁.mem pt (ptIdx v)) with
      | false => rfl
      | true => exact absurd hb₁ (not_broken_of_last [a, b, c] hw hP)
    have hm' : m' = m₁.setEntry pt (ptIdx v)
        (BitVec.ofNat 64 (f * 4096) ||| flags ||| pagePresent) := by
      simp only [m', vmmMapPage, hu, hm₁, installPte, hleaf, Bool.false_eq_true, false_and, if_false]
    have hch : tableChild (3 - [pml4Idx v, pdptIdx v, pdIdx v].length)
        (BitVec.ofNat 64 (f * 4096) ||| flags ||| pagePresent) =
        tableChild (3 - [pml4Idx v, pdptIdx v, pdIdx v].length) (m₁.mem pt (ptIdx v)) :=
      (tableChild_zero _).trans (tableChild_zero _).symm
    rw [hm']
    refine ⟨hG.steady.setLeaf hpt rfl _, fun w hne => ?_, Or.inr ?_⟩
    · have hoff : walk (m₁.setEntry pt (ptIdx v)
          (BitVec.ofNat 64 (f * 4096) ||| flags ||| pagePresent)) r w = walk m₁ r w := by
        refine hG.steady.distinct.trail_write_off hpt fun hpre => hne ?_
        exact ((vpath_eq_iff v w).mp (hpre.eq_of_length rfl).symm)
      rw [hoff]
      exact hG.grows w
    · have hon : walk (m₁.setEntry pt (ptIdx v)
          (BitVec.ofNat 64 (f * 4096) ||| flags ||| pagePresent)) r v =
          (walk m₁ r v).set 3 (BitVec.ofNat 64 (f * 4096) ||| flags ||| pagePresent) :=
        hG.steady.distinct.trail_relabel hpt hch []
      refine ⟨a, b, c, by rw [hon, hw]; rfl, fun e he => ?_⟩
      have hmem : e ∈ walk m₁ r v := by
        rw [hw]
        exact List.mem_append_left [m₁.mem pt (ptIdx v)] he
      obtain ⟨k, hk⟩ := List.mem_iff_getElem?.mp he
      have hk3 : k < 3 := (List.getElem?_eq_some_iff.mp hk).1
      obtain ⟨e', he', hP, hU⟩ := hG.opened k hk3
      have hee : e = e' := by
        rw [hw, show [a, b, c, m₁.mem pt (ptIdx v)] = [a, b, c] ++ [m₁.mem pt (ptIdx v)] from rfl,
          List.getElem?_append_left hk3, hk] at he'
        exact Option.some.inj he'
      subst hee
      exact ⟨hP, hU, ((hG.grows v).clean hc e hmem).1 hP⟩

end Stages

end Lestra
