import Lestra.Mm.VmmTranslate

/-!
# Virtual memory manager — user access

User code may touch a page when every entry of its walk is present and carries
`PAGE_USER`. A user mapping sets the bit on the entries of its own path, which
are shared with other pages: `UserAfterMarking` is what that makes accessible,
read off the page table before the call.
-/

namespace Lestra

open Word64 Radix

-- ---------------------------------------------------------------------------
-- Walks that user code may take
-- ---------------------------------------------------------------------------

/-- Every entry is present and carries the user bit. -/
def UserWalk (es : List (BitVec 64)) : Prop := ∀ e ∈ es, isPresent e = true ∧ isUser e = true

instance (es : List (BitVec 64)) : Decidable (UserWalk es) := List.decidableBAll _ es

/-- The page of `w` is accessible from user mode. -/
def UserPage (m : Machine) (r : Nat) (w : BitVec 64) : Prop := UserWalk (walk m r w)

/-- Set the user bit on the first `k` entries of a walk. -/
def markFirst : Nat → List (BitVec 64) → List (BitVec 64)
  | k + 1, e :: es => markUser true e :: markFirst k es
  | _, es => es

/-- Some entry of the walk is absent. -/
def Broken (es : List (BitVec 64)) : Prop := ∃ e ∈ es, isPresent e = false

theorem Broken.not_userWalk {es : List (BitVec 64)} (h : Broken es) : ¬ UserWalk es := by
  obtain ⟨e, he, hP⟩ := h
  intro hU
  rw [(hU e he).1] at hP
  exact Bool.noConfusion hP

theorem markFirst_zero (es : List (BitVec 64)) : markFirst 0 es = es := by
  cases es <;> rfl

theorem length_markFirst : ∀ (k : Nat) (es : List (BitVec 64)), (markFirst k es).length = es.length
  | 0, es => by rw [markFirst_zero]
  | _ + 1, [] => rfl
  | k + 1, e :: es => by simp [markFirst, length_markFirst k es]

theorem markFirst_getElem?_of_le : ∀ {k d : Nat} {es : List (BitVec 64)}, k ≤ d →
    (markFirst k es)[d]? = es[d]?
  | 0, _, es, _ => by rw [markFirst_zero]
  | _ + 1, _, [], _ => rfl
  | k + 1, 0, _ :: _, h => by omega
  | k + 1, d + 1, e :: es, h => by
    simp only [markFirst, List.getElem?_cons_succ]
    exact markFirst_getElem?_of_le (by omega)

theorem markFirst_succ : ∀ {k : Nat} {es : List (BitVec 64)} {e : BitVec 64}, es[k]? = some e →
    (markFirst k es).set k (markUser true e) = markFirst (k + 1) es
  | _, [], _, h => by simp at h
  | 0, a :: es, e, h => by
    obtain rfl : a = e := by simpa using h
    simp [markFirst]
  | k + 1, a :: es, e, h => by
    rw [List.getElem?_cons_succ] at h
    simp only [markFirst, List.set_cons_succ, markFirst_succ h]

theorem markFirst_of_length_le : ∀ {j k : Nat} {es : List (BitVec 64)}, es.length ≤ j → j ≤ k →
    markFirst j es = markFirst k es
  | 0, k, es, h, _ => by
    obtain rfl : es = [] := List.length_eq_zero_iff.mp (by omega)
    cases k <;> rfl
  | j + 1, k + 1, [], _, _ => rfl
  | j + 1, k + 1, e :: es, h, hk => by
    rw [List.length_cons] at h
    simp only [markFirst, markFirst_of_length_le (show es.length ≤ j by omega)
      (show j ≤ k by omega)]
  | j + 1, 0, _, _, hk => by omega

theorem broken_markFirst : ∀ (k : Nat) (es : List (BitVec 64)), Broken (markFirst k es) ↔ Broken es
  | 0, es => by rw [markFirst_zero]
  | _ + 1, [] => Iff.rfl
  | k + 1, e :: es => by
    have ih := broken_markFirst k es
    unfold Broken at ih ⊢
    simp only [markFirst, List.mem_cons, exists_eq_or_imp, isPresent_markUser, ih]

/-- A walk stays broken when one of its entries is marked. -/
theorem Broken.set_mark {es : List (BitVec 64)} {k : Nat} {e : BitVec 64} (h : Broken es)
    (he : es[k]? = some e) (user : Bool) : Broken (es.set k (markUser user e)) := by
  obtain ⟨a, ha, hP⟩ := h
  obtain ⟨d, hd⟩ := List.mem_iff_getElem?.mp ha
  by_cases hdk : d = k
  · subst hdk
    obtain rfl : a = e := by rw [hd] at he; exact Option.some.inj he
    refine ⟨markUser user a, ?_, by rw [isPresent_markUser]; exact hP⟩
    refine List.mem_iff_getElem?.mpr ⟨d, ?_⟩
    rw [List.getElem?_set_self]
    exact (List.getElem?_eq_some_iff.mp hd).1
  · refine ⟨a, List.mem_iff_getElem?.mpr ⟨d, ?_⟩, hP⟩
    rw [List.getElem?_set_ne (Ne.symm hdk)]
    exact hd

-- ---------------------------------------------------------------------------
-- What the stages of a user mapping do to every walk
-- ---------------------------------------------------------------------------

/-- The number of levels at which the walks of `v` and `w` read the same entry. -/
def sharedLevels (v w : BitVec 64) : Nat := shared (vpath v) (vpath w)

/-- The walk `es'` is `es` with its first `k` entries marked, or both are broken
within these. -/
def MarkedWalk (k : Nat) (es es' : List (BitVec 64)) : Prop :=
  es' = markFirst k es ∨ (es.length ≤ k ∧ Broken es ∧ Broken es')

theorem MarkedWalk.userWalk_iff {k : Nat} {es es' : List (BitVec 64)} (h : MarkedWalk k es es') :
    UserWalk es' ↔ UserWalk (markFirst k es) := by
  rcases h with rfl | ⟨-, hb, hb'⟩
  · exact Iff.rfl
  · exact iff_of_false hb'.not_userWalk ((broken_markFirst k es).mpr hb).not_userWalk

theorem MarkedWalk.broken {k : Nat} {es es' : List (BitVec 64)} (h : MarkedWalk k es es')
    (hb : Broken es') : Broken es := by
  rcases h with rfl | ⟨-, hb, -⟩
  · exact (broken_markFirst k es).mp hb
  · exact hb

/-- The entry at depth `k` has not been touched. -/
theorem MarkedWalk.getElem? {k : Nat} {es es' : List (BitVec 64)} (h : MarkedWalk k es es')
    (hes : ¬ Broken es) : es'[k]? = es[k]? := by
  rcases h with rfl | ⟨-, hb, -⟩
  · exact markFirst_getElem?_of_le (Nat.le_refl k)
  · exact absurd hb hes

/-- The machine `mS` is `m` after the first `s` stages of a user mapping of `v`. -/
structure Marked (m mS : Machine) (r : Nat) (v : BitVec 64) (s : Nat) : Prop where
  ready : Ready mS r (3 - s)
  walks : ∀ w, MarkedWalk (min (sharedLevels v w) s) (walk m r w) (walk mS r w)
  pmm : ∀ w, s ≤ sharedLevels v w → s < (walk m r w).length → mS.pmm = m.pmm

theorem Marked.start {m : Machine} {r : Nat} (hR : Ready m r 3) (v : BitVec 64) :
    Marked m m r v 0 where
  ready := hR
  walks := fun w => Or.inl (by rw [Nat.min_zero, markFirst_zero])
  pmm := fun _ _ _ => rfl

section Stage

variable {m mS : Machine} {r t f n : Nat} {i j : Fin 512} {p q : List (Fin 512)} {v w : BitVec 64}

theorem prefix_iff_shared (hv : vpath v = p ++ i :: q) (w : BitVec 64) :
    p ++ [i] <+: vpath w ↔ p.length + 1 ≤ sharedLevels v w := by
  have htake : p ++ [i] = (vpath v).take (p.length + 1) := by
    rw [hv, List.take_append]
    simp
  rw [htake]
  refine take_prefix_iff ?_
  rw [hv]
  simp

theorem Marked.mark (hS : Marked m mS r v p.length) (hv : vpath v = p ++ i :: q)
    (hp : tableAt tableChild mS.mem 3 r p = some t) :
    Marked m (mS.mark true t i) r v (p.length + 1) where
  ready := (hS.ready.mark hp true).mono (by omega)
  walks := by
    intro w
    have hold := hS.walks w
    by_cases hw : p ++ [i] <+: vpath w
    · have hc := (prefix_iff_shared hv w).mp hw
      obtain ⟨q', hq'⟩ := hw
      have hpath : vpath w = p ++ i :: q' := by rw [← hq']; simp
      have hget := walk_getElem? hp hpath
      rw [hS.ready.walk_mark_on hp hpath, Nat.min_eq_right hc]
      rw [Nat.min_eq_right (by omega)] at hold
      rcases hold with hA | ⟨hlen, hb, hb'⟩
      · left
        rw [hA] at hget ⊢
        rw [markFirst_getElem?_of_le (Nat.le_refl _)] at hget
        exact markFirst_succ hget
      · exact Or.inr ⟨by omega, hb, hb'.set_mark hget true⟩
    · have hc : sharedLevels v w ≤ p.length := by
        rw [prefix_iff_shared hv] at hw
        omega
      rw [hS.ready.walk_mark_off hp hw, Nat.min_eq_left (by omega)]
      rwa [Nat.min_eq_left hc] at hold
  pmm := fun w h1 h2 => hS.pmm w (by omega) (by omega)

theorem broken_append_absent (es : List (BitVec 64)) {e : BitVec 64} (h : isPresent e = false) :
    Broken (es ++ [e]) := ⟨e, by simp, h⟩

theorem Marked.attachEmpty (hS : Marked m mS r v p.length) (hlen : p.length ≤ 2)
    (hv : vpath v = p ++ i :: q) {e : BitVec 64} (habs : isPresent (mS.mem t i) = false)
    (hA : Attaches mS r t i p f (fun _ => 0#64) e n) :
    Marked m (mS.attach t i f (fun _ => 0#64) e) r v (p.length + 1) := by
  obtain ⟨k, hk⟩ : ∃ k, 3 - p.length = k + 1 := ⟨2 - p.length, by omega⟩
  have hR : Ready mS r (k + 1) := hk ▸ hS.ready
  -- the walks through the entry ended there
  have hthrough : ∀ w, p.length + 1 ≤ sharedLevels v w → (walk m r w).length ≤ p.length + 1 ∧
      Broken (walk m r w) := by
    intro w hc
    have hold := hS.walks w
    rw [Nat.min_eq_right (by omega)] at hold
    obtain ⟨j, q', hpath⟩ := exists_next_index hlen ((prefix_iff_shared hv w).mpr hc)
    have hend := hA.walk hpath
    refine ⟨?_, hold.broken (by rw [hend]; exact broken_append_absent _ habs)⟩
    rcases hold with hA' | ⟨hl, -⟩
    · rw [← length_markFirst p.length (walk m r w), ← hA', hend, List.length_append,
        length_trail hA.at_path]
      simp
    · omega
  refine ⟨(hR.attach hA).mono (by omega), fun w => ?_, fun w hc hl => ?_⟩
  · have hold := hS.walks w
    by_cases hw : p ++ [i] <+: vpath w
    · have hc := (prefix_iff_shared hv w).mp hw
      obtain ⟨hl, hb⟩ := hthrough w hc
      obtain ⟨j, q', hpath⟩ := exists_next_index hlen hw
      rw [Nat.min_eq_right hc, hR.walk_attach_on hA hpath]
      refine Or.inr ⟨hl, hb, 0#64, by simp, by decide⟩
    · have hc : sharedLevels v w ≤ p.length := by
        rw [prefix_iff_shared hv] at hw
        omega
      rw [hR.walk_attach_off hA hw, Nat.min_eq_left (by omega)]
      rwa [Nat.min_eq_left hc] at hold
  · have := (hthrough w hc).1
    omega

end Stage

-- ---------------------------------------------------------------------------
-- The pages that a user mapping makes accessible
-- ---------------------------------------------------------------------------

/-- The page of `w` is accessible once the entries it shares with the path of
`v` carry the user bit. A 2 MB page that both lie in is split into kernel
pages instead, unless there is no frame for the split. -/
def UserAfterMarking (m : Machine) (r : Nat) (v w : BitVec 64) : Prop :=
  if sharedLevels v w = 3 ∧ (walk m r w)[2]?.any isHuge = true then
    (pmmAllocPage m.pmm).2 = 0 ∧ UserWalk (markFirst 2 (walk m r w))
  else UserWalk (markFirst (sharedLevels v w) (walk m r w))

theorem not_userAfterMarking_of_broken {m : Machine} {r : Nat} {v w : BitVec 64}
    (h : Broken (walk m r w)) : ¬ UserAfterMarking m r v w := by
  unfold UserAfterMarking
  split
  · exact fun hU => ((broken_markFirst _ _).mpr h).not_userWalk hU.2
  · exact ((broken_markFirst _ _).mpr h).not_userWalk

section Exits

variable {m mS : Machine} {r t f n : Nat} {i j : Fin 512} {p q : List (Fin 512)} {v w : BitVec 64}

/-- A page that leaves the path of `v` above depth `s` has its final walk after `s` stages. -/
theorem Marked.userWalk_of_le {s : Nat} (hS : Marked m mS r v s) (hs : s ≤ 2)
    (hc : sharedLevels v w ≤ s) : UserWalk (walk mS r w) ↔ UserAfterMarking m r v w := by
  have hold := hS.walks w
  rw [Nat.min_eq_left hc] at hold
  rw [hold.userWalk_iff, UserAfterMarking, if_neg]
  rintro ⟨h3, -⟩
  omega

/-- The mapping stops at an absent entry. -/
theorem Marked.userWalk_absent (hS : Marked m mS r v p.length) (hlen : p.length ≤ 2)
    (hv : vpath v = p ++ i :: q) (hp : tableAt tableChild mS.mem 3 r p = some t)
    (habs : isPresent (mS.mem t i) = false) (w : BitVec 64) :
    UserWalk (walk mS r w) ↔ UserAfterMarking m r v w := by
  rcases Nat.lt_or_ge p.length (sharedLevels v w) with hc | hc
  · obtain ⟨j, q', hpath⟩ := exists_next_index hlen ((prefix_iff_shared hv w).mpr hc)
    have hb : Broken (walk mS r w) := by
      rw [walk, hpath, trail_of_child_none hp (k := 2 - p.length) (by omega)
        (tableChild_absent habs)]
      exact broken_append_absent _ habs
    exact iff_of_false hb.not_userWalk (not_userAfterMarking_of_broken ((hS.walks w).broken hb))
  · exact hS.userWalk_of_le hlen hc

/-- The mapping stops at a 1 GB page, after marking its entry. -/
theorem Marked.userWalk_giant (hS : Marked m mS r v 2)
    (hp : tableAt tableChild mS.mem 3 r [pml4Idx v] = some t)
    (hhuge : isHuge (mS.mem t (pdptIdx v)) = true) (w : BitVec 64) :
    UserWalk (walk mS r w) ↔ UserAfterMarking m r v w := by
  rcases Nat.lt_or_ge 2 (sharedLevels v w) with hc | hc
  · have hv : vpath v = [pml4Idx v] ++ pdptIdx v :: [pdIdx v, ptIdx v] := rfl
    obtain ⟨j, q', hpath⟩ := exists_next_index (p := [pml4Idx v]) (by simp)
      ((prefix_iff_shared hv w).mpr (by simp; omega))
    have hlen : (walk mS r w).length = 2 := by
      rw [walk, hpath, trail_of_child_none hp (k := 1) rfl (by simp [tableChild, hhuge]),
        List.length_append, length_trail hp]
      rfl
    have hold := hS.walks w
    rw [Nat.min_eq_right (by omega)] at hold
    have hle : (walk m r w).length ≤ 2 := by
      rcases hold with hA | ⟨hl, -⟩
      · rw [← length_markFirst 2 (walk m r w), ← hA, hlen]
      · exact hl
    rw [hold.userWalk_iff, markFirst_of_length_le (k := sharedLevels v w) hle (by omega),
      UserAfterMarking, if_neg]
    rintro ⟨-, h2⟩
    rw [List.getElem?_eq_none (by omega)] at h2
    simp at h2
  · exact hS.userWalk_of_le (by decide) hc

/-- The pages of the 2 MB page that `v` lies in, before a split. -/
theorem Marked.walk_in_huge (hS : Marked m mS r v 2)
    (hp : tableAt tableChild mS.mem 3 r [pml4Idx v, pdptIdx v] = some t)
    (hhuge : isHuge (mS.mem t (pdIdx v)) = true) (hc : sharedLevels v w = 3) :
    Broken (walk m r w) ∨ ((walk m r w)[2]?.any isHuge = true ∧ mS.pmm = m.pmm) := by
  have hv : vpath v = [pml4Idx v, pdptIdx v] ++ pdIdx v :: [ptIdx v] := rfl
  obtain ⟨j, q', hpath⟩ := exists_next_index (p := [pml4Idx v, pdptIdx v]) (by simp)
    ((prefix_iff_shared hv w).mpr (by simp; omega))
  have hold := hS.walks w
  rw [hc] at hold
  rcases hold with hA | ⟨-, hb, -⟩
  · right
    have hget : (walk mS r w)[2]? = some (mS.mem t (pdIdx v)) := walk_getElem? hp hpath
    rw [hA, show min 3 2 = 2 from rfl, markFirst_getElem?_of_le (Nat.le_refl 2)] at hget
    refine ⟨by simp [hget, hhuge], hS.pmm w (by omega) ?_⟩
    exact (List.getElem?_eq_some_iff.mp hget).1
  · exact Or.inl hb

/-- The mapping stops at a 2 MB page it has no frame to split. -/
theorem Marked.userWalk_unsplit (hS : Marked m mS r v 2)
    (hp : tableAt tableChild mS.mem 3 r [pml4Idx v, pdptIdx v] = some t)
    (hhuge : isHuge (mS.mem t (pdIdx v)) = true) (h0 : (pmmAllocPage mS.pmm).2 = 0)
    (hc : sharedLevels v w ≤ 3) : UserWalk (walk mS r w) ↔ UserAfterMarking m r v w := by
  rcases Nat.lt_or_ge 2 (sharedLevels v w) with h2 | h2
  · have h3 : sharedLevels v w = 3 := by omega
    have hold := hS.walks w
    rw [h3, show min 3 2 = 2 from rfl] at hold
    rcases hS.walk_in_huge hp hhuge h3 with hb | ⟨hany, hpmm⟩
    · rw [hold.userWalk_iff]
      exact iff_of_false ((broken_markFirst _ _).mpr hb).not_userWalk
        (not_userAfterMarking_of_broken hb)
    · rw [hold.userWalk_iff, UserAfterMarking, if_pos ⟨h3, hany⟩, ← hpmm]
      exact (and_iff_right h0).symm
  · exact hS.userWalk_of_le (by decide) h2

/-- The mapping splits the 2 MB page: its pieces are kernel pages. -/
theorem Marked.userWalk_split (hS : Marked m mS r v 2)
    (hp : tableAt tableChild mS.mem 3 r [pml4Idx v, pdptIdx v] = some t)
    (hhuge : isHuge (mS.mem t (pdIdx v)) = true) (hg : Grants mS.pmm f)
    (hc : sharedLevels v w ≤ 3) :
    UserWalk (walk (mS.attachPieces true t (pdIdx v) f) r w) ↔ UserAfterMarking m r v w := by
  have hv : vpath v = [pml4Idx v, pdptIdx v] ++ pdIdx v :: [ptIdx v] := rfl
  have hR : Ready mS r (0 + 1) := hS.ready
  have hA := attaches_pieces hR hp rfl hg hhuge true
  rcases Nat.lt_or_ge 2 (sharedLevels v w) with h2 | h2
  · have h3 : sharedLevels v w = 3 := by omega
    obtain ⟨j, q', hpath⟩ := exists_next_index (p := [pml4Idx v, pdptIdx v]) (by simp)
      ((prefix_iff_shared hv w).mpr (by simp; omega))
    have hno : ¬ UserWalk (walk (mS.attachPieces true t (pdIdx v) f) r w) := by
      rw [Machine.attachPieces, hR.walk_attach_on hA hpath]
      intro hU
      have := (hU (hugePiece (mS.mem t (pdIdx v)) j) (by simp)).2
      rw [isUser_hugePiece] at this
      exact Bool.noConfusion this
    refine iff_of_false hno ?_
    rcases hS.walk_in_huge hp hhuge h3 with hb | ⟨hany, hpmm⟩
    · exact not_userAfterMarking_of_broken hb
    · rw [UserAfterMarking, if_pos ⟨h3, hany⟩, ← hpmm]
      exact fun hU => hg.ne_zero hU.1
  · rw [Machine.attachPieces, hR.walk_attach_off hA]
    · exact hS.userWalk_of_le (by decide) h2
    · rw [prefix_iff_shared hv]
      simp
      omega

/-- The mapping got through without a split. -/
theorem Marked.userWalk_done {m3 : Machine} (hS : Marked m mS r v 2)
    (hp : tableAt tableChild mS.mem 3 r [pml4Idx v, pdptIdx v] = some t)
    (hsmall : isHuge (mS.mem t (pdIdx v)) = false) (hS3 : Marked m m3 r v 3)
    (hc : sharedLevels v w ≤ 3) : UserWalk (walk m3 r w) ↔ UserAfterMarking m r v w := by
  have hnew := hS3.walks w
  rw [Nat.min_eq_left hc] at hnew
  by_cases hb : Broken (walk m r w)
  · rw [hnew.userWalk_iff]
    exact iff_of_false ((broken_markFirst _ _).mpr hb).not_userWalk
      (not_userAfterMarking_of_broken hb)
  · rw [hnew.userWalk_iff, UserAfterMarking, if_neg]
    rintro ⟨h3, hany⟩
    have hv : vpath v = [pml4Idx v, pdptIdx v] ++ pdIdx v :: [ptIdx v] := rfl
    obtain ⟨j, q', hpath⟩ := exists_next_index (p := [pml4Idx v, pdptIdx v]) (by simp)
      ((prefix_iff_shared hv w).mpr (by simp; omega))
    have hold := hS.walks w
    rw [h3, show min 3 2 = 2 from rfl] at hold
    have hget : (walk mS r w)[2]? = some (mS.mem t (pdIdx v)) := walk_getElem? hp hpath
    rw [hold.getElem? hb] at hget
    rw [hget, Option.any_some, hsmall] at hany
    exact Bool.noConfusion hany

end Exits

theorem path_of_length_two {v : BitVec 64} {i : Fin 512} {p q : List (Fin 512)}
    (hv : vpath v = p ++ i :: q) (hlen : p.length = 2) : p = [pml4Idx v, pdptIdx v] ∧ i = pdIdx v := by
  match p, hlen with
  | [a, b], _ =>
    simp only [vpath, List.cons_append, List.nil_append, List.cons.injEq] at hv
    exact ⟨by rw [hv.1, hv.2.1], hv.2.2.1.symm⟩

theorem sharedLevels_le_three {v w : BitVec 64} (h : pageNumber w ≠ pageNumber v) :
    sharedLevels v w ≤ 3 := by
  by_contra hc
  have hle : 4 ≤ shared (vpath v) (vpath w) := by
    unfold sharedLevels at hc
    omega
  have hpre := (take_prefix_iff (p := vpath v) (Nat.le_refl 4)).mpr hle
  exact h ((vpath_eq_iff v w).mp (hpre.eq_of_length rfl).symm)

/-- The walks of all other pages do not see the last store. -/
theorem walk_installPte {m : Machine} {r k pt : Nat} {v w paddr flags : BitVec 64} (hR : Ready m r k)
    (hp : tableAt tableChild m.mem 3 r [pml4Idx v, pdptIdx v, pdIdx v] = some pt)
    (hw : pageNumber w ≠ pageNumber v) :
    walk (installPte m pt (ptIdx v) paddr flags) r w = walk m r w := by
  rw [walk, walk, installPte_mem]
  refine hR.distinct.trail_write_off hp fun hpre => ?_
  have heq : vpath v = vpath w := hpre.eq_of_length rfl
  exact hw ((vpath_eq_iff v w).mp heq.symm)

/-- The pages other than that of `v` that user code can reach are those of `UserAfterMarking`. -/
def ReachedAfter (m mS : Machine) (r : Nat) (v : BitVec 64) : Prop :=
  ∀ w, sharedLevels v w ≤ 3 → (UserWalk (walk mS r w) ↔ UserAfterMarking m r v w)

/-- The stages of a user mapping of `v`, and where it gives up. -/
theorem marked_stageRule {m : Machine} {r : Nat} {v fl : BitVec 64} (hF : TableFlags fl) :
    StageRule r v fl true (fun d mS => Ready mS r (3 - d) ∧ (d ≤ 2 → Marked m mS r v d) ∧
      (d = 3 → ReachedAfter m mS r v)) (fun mS => ReachedAfter m mS r v) where
  ready := fun hd hS => hS.1.mono (by omega)
  mark := by
    intro mS t i p q hS hv hlen hp hH hP
    have hM := hS.2.1 hlen
    have hM' := hM.mark hv hp
    refine ⟨hM'.ready, fun _ => hM', fun h3 w hc => ?_⟩
    obtain ⟨rfl, rfl⟩ := path_of_length_two hv (by omega)
    exact hM.userWalk_done hp (hH rfl) hM' hc
  attach := by
    intro mS t i p q f hS hv hlen hp hH hP hg
    have hM := hS.2.1 hlen
    obtain ⟨k, hk⟩ : ∃ k, 3 - p.length = k + 1 := ⟨2 - p.length, by omega⟩
    have hR : Ready mS r (k + 1) := hk ▸ hM.ready
    have hA := attaches_empty hR hp hk hg hP hF.mask hF.present hF.huge true
    have hM' := hM.attachEmpty hlen hv hP hA
    refine ⟨hM'.ready, fun _ => hM', fun h3 w hc => ?_⟩
    obtain ⟨rfl, rfl⟩ := path_of_length_two hv (by omega)
    exact hM.userWalk_done hp (hH rfl) hM' hc
  starved := fun hS hv hlen hp hP _ w _ => (hS.2.1 hlen).userWalk_absent hlen hv hp hP w
  giant := fun hS hp hH w _ => (hS.2.1 (Nat.le_refl 2)).userWalk_giant hp hH w
  split := by
    intro mS t f hS hp hH hg
    have hM := hS.2.1 (Nat.le_refl 2)
    have hR : Ready mS r (0 + 1) := hM.ready
    refine ⟨hR.attach (attaches_pieces hR hp rfl hg hH true), fun h => by omega, fun _ w hc => ?_⟩
    exact hM.userWalk_split hp hH hg hc
  unsplit := fun hS hp hH h0 w hc => (hS.2.1 (Nat.le_refl 2)).userWalk_unsplit hp hH h0 hc

/-- The pages other than that of `v` that are accessible after a user mapping. -/
theorem userPage_vmmMapPage {m : Machine} {r : Nat} {v w paddr flags : BitVec 64}
    (hR : Ready m r 3) (hu : isUser flags = true) (hw : pageNumber w ≠ pageNumber v) :
    UserPage (vmmMapPage m r v paddr flags) r w ↔ UserAfterMarking m r v w := by
  have hc := sharedLevels_le_three hw
  have hstart : Ready m r (3 - 0) ∧ (0 ≤ 2 → Marked m m r v 0) ∧ (0 = 3 → ReachedAfter m m r v) :=
    ⟨hR, fun _ => Marked.start hR v, by simp⟩
  unfold vmmMapPage
  rw [hu]
  rcases (marked_stageRule (tableFlags_vmm true)).openPath (tableFlags_vmm true) hstart with
    ⟨m', hm', hJ⟩ | ⟨m', pt, hm', hI, hpt⟩
  · rw [hm']
    exact hJ w hc
  · rw [hm', UserPage]
    simp only
    rw [walk_installPte hI.1 hpt hw]
    exact hI.2.2 rfl w hc

/-- After the call only pages accessible before, or the page of `v`, are accessible. -/
def UserConfined (m m' : Machine) (r : Nat) (v : BitVec 64) : Prop :=
  ∀ w, UserPage m' r w → UserPage m r w ∨ pageNumber w = pageNumber v

/--
**User-accessibility confinement.** On every page table whose tables lie on
distinct frames, a user mapping of `v` keeps the set of accessible pages within
the old set and the page of `v` exactly when no other page is kept from user
mode only by the entries that it shares with the path of `v`: the PML4 entry,
the PDPT entry, a 1 GB page included, and the PD entry, unless it is a 2 MB page.
-/
theorem user_confined_iff (m : Machine) (pml4 : Nat) (v paddr flags : BitVec 64)
    (hR : Ready m pml4 3) (hu : isUser flags = true) :
    UserConfined m (vmmMapPage m pml4 v paddr flags) pml4 v ↔
      ∀ w, pageNumber w ≠ pageNumber v → UserAfterMarking m pml4 v w → UserPage m pml4 w := by
  constructor
  · intro hC w hw hU
    have hafter : UserPage (vmmMapPage m pml4 v paddr flags) pml4 w :=
      (userPage_vmmMapPage hR hu hw).mpr hU
    exact (hC w hafter).resolve_right hw
  · intro h w hU
    by_cases hw : pageNumber w = pageNumber v
    · exact Or.inr hw
    · exact Or.inl (h w hw ((userPage_vmmMapPage hR hu hw).mp hU))

theorem user_confined_iff_low :
    UserConfined lowMachine (vmmMapPage lowMachine 20 0x1000#64 0x5000#64 0x7#64) 20 0x1000#64 ↔
      ∀ w, pageNumber w ≠ pageNumber 0x1000#64 → UserAfterMarking lowMachine 20 0x1000#64 w →
        UserPage lowMachine 20 w :=
  user_confined_iff lowMachine 20 0x1000#64 0x5000#64 0x7#64 lowMachine_ready (by decide)

/-- A PML4 at frame 20 and a PDPT at frame 21 whose entry 1 is a supervisor
1 GB page. -/
def giantMachine : Machine where
  pmm := pmmInit smallLayout [⟨0, 0x10000, 1⟩]
  mem := write (hangTable blankMem 20 0 21 3#64) 21 1 0x40000083#64

theorem giantMachine_ready : Ready giantMachine 20 3 := by
  have hT0 : ∀ u, InTree tableChild blankMem 3 20 u ↔ u = 20 := fun u =>
    inTree_of_absent (blankMem_absent 20)
  obtain ⟨hD, hT, hp⟩ := hangTable_tree (u := 21) (i := 0)
    (distinct_of_absent (blankMem_absent 20)) tableAt_nil (by decide) (blankMem_absent 20 0)
    (by rw [hT0]; decide) (by decide) (show TableFlags 3#64 from ⟨by decide, by decide, by decide⟩)
  have hch : tableChild (3 - [(0 : Fin 512)].length) 0x40000083#64 =
      tableChild (3 - [(0 : Fin 512)].length) (hangTable blankMem 20 0 21 3#64 21 1) := by decide
  refine ⟨pmmGeometry_covers (by decide), by decide, hD.relabel hp hch, ?_⟩
  rintro f hf ⟨q, hq⟩
  have hnext : nextFrames giantMachine.pmm 3 = [1, 2, 3] := by decide
  have hq' : tableAt tableChild (hangTable blankMem 20 0 21 3#64) 3 20 q = some f := by
    rw [← hD.tableAt_relabel hp hch q]
    exact hq
  rw [hnext] at hf
  have hf' : f = 1 ∨ f = 2 ∨ f = 3 := by simpa using hf
  have hin := (hT f).mp ⟨q, hq'⟩
  rw [hT0] at hin
  omega

/-- A user mapping that gives up on a 1 GB page has set the user bit of its
entry already: every page of it becomes accessible. -/
theorem giant_page_exposed :
    Ready giantMachine 20 3 ∧ isUser 0x7#64 = true ∧
      ¬ UserConfined giantMachine (vmmMapPage giantMachine 20 0x40000000#64 0x5000#64 0x7#64) 20
        0x40000000#64 := by
  refine ⟨giantMachine_ready, by decide, fun h => ?_⟩
  have hpage : pageNumber 0x40001000#64 ≠ pageNumber 0x40000000#64 := by decide
  have hwalk : walk giantMachine 20 0x40001000#64 = [0x15003#64, 0x40000083#64] := by decide
  have hshared : sharedLevels 0x40000000#64 0x40001000#64 = 3 := by decide
  have hafter : UserAfterMarking giantMachine 20 0x40000000#64 0x40001000#64 := by
    rw [UserAfterMarking, hwalk, hshared, if_neg (by simp)]
    decide
  have hbefore : ¬ UserPage giantMachine 20 0x40001000#64 := by
    rw [UserPage, hwalk]
    decide
  rcases h 0x40001000#64 ((userPage_vmmMapPage giantMachine_ready (by decide) hpage).mpr hafter) with
    hU | heq
  · exact hbefore hU
  · exact hpage heq

end Lestra
