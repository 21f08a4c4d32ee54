import Lestra.Mm.VmmView
import Mathlib.Data.Finset.Card

/-!
# Virtual memory manager — fresh pages at a range of addresses

A frame is taken and zeroed, mapped, and so on for the next page. How many frames
this needs is known before it starts: one for each page and one for each table
that is missing on the path of some page (`missingTables`). With that many frames
every page of the range gets a frame of its own, and no other page changes.
-/

namespace Lestra

open Word64 Radix

-- ---------------------------------------------------------------------------
-- The frames that a range needs
-- ---------------------------------------------------------------------------

/-- No table is at the path. -/
def lacksTable (m : Machine) (r : Nat) (q : List (Fin 512)) : Bool :=
  (tableAt tableChild m.mem 3 r q).isNone

/-- The paths of the tables that the walk of `v` goes through. -/
def tablePaths (v : BitVec 64) : List (List (Fin 512)) :=
  [[pml4Idx v], [pml4Idx v, pdptIdx v], [pml4Idx v, pdptIdx v, pdIdx v]]

/-- The tables that the pages need and that are not there. -/
def missingTables (m : Machine) (r : Nat) (vas : List (BitVec 64)) : Finset (List (Fin 512)) :=
  (vas.flatMap tablePaths).toFinset.filter fun q => lacksTable m r q = true

/-- `k` frames can be taken one after the other. -/
def HasFrames (p : Pmm) (k : Nat) : Prop := (nextFrames p k).length = k

instance (p : Pmm) (k : Nat) : Decidable (HasFrames p k) := inferInstanceAs (Decidable (_ = _))

/-- No 1 GB page is on the path, so a mapping that finds the frames goes through. -/
def NoGiant (es : List (BitVec 64)) : Prop :=
  ∀ e, es[1]? = some e → isPresent e = true → isHuge e = false

/-- The page is not a user page, so a mapping gives no frame back. -/
def KernelLeaf (es : List (BitVec 64)) : Prop :=
  ∀ e, es[3]? = some e → isPresent e = true → isUser e = false

structure PageClear (es : List (BitVec 64)) : Prop where
  small : NoGiant es
  kernel : KernelLeaf es

theorem hasFrames_grant {p : Pmm} {f k : Nat} (hg : Grants p f) :
    HasFrames p (k + 1) ↔ HasFrames (pmmAllocPage p).1 k := by
  rw [HasFrames, HasFrames, nextFrames_grant hg, List.length_cons, Nat.succ.injEq]

theorem HasFrames.ne_zero {p : Pmm} {k : Nat} (h : HasFrames p (k + 1)) : (pmmAllocPage p).2 ≠ 0 := by
  intro h0
  rw [HasFrames, nextFrames_fail h0] at h
  exact absurd h (by simp)

theorem mem_tablePaths {v : BitVec 64} {q : List (Fin 512)} :
    q ∈ tablePaths v ↔ q <+: vpath v ∧ q ≠ [] ∧ q.length ≤ 3 := by
  constructor
  · intro h
    simp only [tablePaths, List.mem_cons, List.not_mem_nil, or_false] at h
    rcases h with rfl | rfl | rfl
    · exact ⟨⟨[pdptIdx v, pdIdx v, ptIdx v], rfl⟩, by simp, by simp⟩
    · exact ⟨⟨[pdIdx v, ptIdx v], rfl⟩, by simp, by simp⟩
    · exact ⟨⟨[ptIdx v], rfl⟩, by simp, by simp⟩
  · rintro ⟨hpre, hne, hlen⟩
    rw [List.prefix_iff_eq_take] at hpre
    have hpos := List.length_pos_of_ne_nil hne
    match hl : q.length, hpos, hlen with
    | 1, _, _ => rw [hpre, hl]; simp [tablePaths, vpath]
    | 2, _, _ => rw [hpre, hl]; simp [tablePaths, vpath]
    | 3, _, _ => rw [hpre, hl]; simp [tablePaths, vpath]

/-- A path goes on in one way. -/
theorem prefix_snoc {v : BitVec 64} {i : Fin 512} {p q s : List (Fin 512)} (hv : vpath v = p ++ i :: s)
    (hq : q <+: vpath v) (hlen : q.length ≤ p.length + 1) :
    q = p ++ [i] ∨ (q ≠ p ++ [i] ∧ q.length ≤ p.length) := by
  by_cases h : q.length = p.length + 1
  · left
    have hp : p ++ [i] <+: vpath v := ⟨s, by rw [hv]; simp⟩
    exact (List.prefix_of_prefix_length_le hq hp (by simp [h])).eq_of_length (by simp [h])
  · right
    refine ⟨?_, by omega⟩
    rintro rfl
    simp at h

theorem lacks_attach {m : Machine} {r t f n : Nat} {i : Fin 512} {p : List (Fin 512)}
    {row : Fin 512 → BitVec 64} {e : BitVec 64} (hS : Steady m r) (hA : Attaches m r t i p f row e n)
    (q : List (Fin 512)) : lacksTable (m.attach t i f row e) r q = true ↔
      lacksTable m r q = true ∧ q ≠ p ++ [i] := by
  unfold lacksTable
  rw [(hS.ready 1).tableAt_attach hA]
  by_cases h : q = p ++ [i]
  · simp [h]
  · simp [h]

theorem lacks_old {m : Machine} {r t f n : Nat} {i : Fin 512} {p : List (Fin 512)}
    {row : Fin 512 → BitVec 64} {e : BitVec 64} (hA : Attaches m r t i p f row e n) :
    lacksTable m r (p ++ [i]) = true := by
  have hlevel := hA.level
  rw [lacksTable, tableAt_snoc hA.at_path (by omega), hlevel, hA.old]
  rfl

theorem NoGiant.set_mark {es : List (BitVec 64)} {k : Nat} {e : BitVec 64} (h : NoGiant es)
    (he : es[k]? = some e) (user : Bool) : NoGiant (es.set k (markUser user e)) := by
  intro a ha hP
  by_cases h1 : k = 1
  · subst h1
    rw [List.getElem?_set_self (List.getElem?_eq_some_iff.mp he).1] at ha
    obtain rfl := Option.some.inj ha
    rw [isPresent_markUser] at hP
    rw [isHuge_markUser]
    exact h e he hP
  · rw [List.getElem?_set_ne h1] at ha
    exact h a ha hP

theorem KernelLeaf.set_mark {es : List (BitVec 64)} {k : Nat} {e : BitVec 64} (h : KernelLeaf es)
    (hk : k ≤ 2) : KernelLeaf (es.set k e) := by
  intro a ha
  rw [List.getElem?_set_ne (by omega)] at ha
  exact h a ha

/-- The entries of a walk that goes on through a new table. -/
theorem NoGiant.append {es : List (BitVec 64)} {a e b : BitVec 64} (h : NoGiant (es ++ [a]))
    (hlen : es.length ≤ 2) (he : isHuge e = false)
    (hb : es.length = 0 → isPresent b = false) : NoGiant (es ++ [e, b]) := by
  match es, hlen, h with
  | [], _, _ =>
    intro c hc hP
    obtain rfl : b = c := by simpa using hc
    rw [hb rfl] at hP
    exact Bool.noConfusion hP
  | [x], _, _ =>
    intro c hc _
    obtain rfl : e = c := by simpa using hc
    exact he
  | [x, y], _, h => exact fun c hc => h c hc

theorem KernelLeaf.append {es : List (BitVec 64)} {e b : BitVec 64} (hlen : es.length ≤ 2)
    (hb : isPresent b = true → isUser b = false) : KernelLeaf (es ++ [e, b]) := by
  match es, hlen with
  | [], _ => exact fun c hc => by simp at hc
  | [x], _ => exact fun c hc => by simp at hc
  | [x, y], _ =>
    intro c hc hP
    obtain rfl : b = c := by simpa using hc
    exact hb hP

-- ---------------------------------------------------------------------------
-- The stages
-- ---------------------------------------------------------------------------

section Stages

variable {m mS : Machine} {r t f k n : Nat} {i : Fin 512} {p s : List (Fin 512)} {v e : BitVec 64}
  {row : Fin 512 → BitVec 64}

/-- The machine `mS` is `m` after `d` stages of a mapping of `v`, with `k` frames to spare. -/
structure Filling (m mS : Machine) (r : Nat) (v : BitVec 64) (k d : Nat) : Prop where
  view : SameView m mS r
  avail : ∀ g, Avail mS.pmm g → Avail m.pmm g
  lacks : ∀ q, lacksTable mS r q = true ↔
    lacksTable m r q = true ∧ ¬ (q <+: vpath v ∧ q.length ≤ d)
  small : ∀ w, NoGiant (walk m r w) → NoGiant (walk mS r w)
  kernel : ∀ w, KernelLeaf (walk m r w) → KernelLeaf (walk mS r w)
  frames : HasFrames mS.pmm ((missingTables mS r [v]).card + k)

theorem missingTables_congr {m m' : Machine} (h : ∀ q, lacksTable m' r q = lacksTable m r q)
    (vas : List (BitVec 64)) : missingTables m' r vas = missingTables m r vas := by
  unfold missingTables
  simp only [h]

theorem Filling.mark (hF : Filling m mS r v k p.length) (hv : vpath v = p ++ i :: s)
    (hlen : p.length ≤ 2) (hp : tableAt tableChild mS.mem 3 r p = some t)
    (hchild : tableChild (3 - p.length) (mS.mem t i) ≠ none) (user : Bool) :
    Filling m (mS.mark user t i) r v k (p.length + 1) := by
  have hR := hF.view.steady.ready 0
  have hsame : ∀ q, lacksTable (mS.mark user t i) r q = lacksTable mS r q := fun q => by
    rw [lacksTable, lacksTable, hR.tableAt_mark hp]
  refine ⟨hF.view.trans (sameView_mark hF.view.steady hF.view.aligned hp user), hF.avail,
    fun q => ?_, fun w hw => ?_, fun w hw => ?_, ?_⟩
  · rw [hsame q, hF.lacks q]
    refine and_congr_right fun hq => not_congr (and_congr_right fun hpre => ⟨fun h => by omega,
      fun h => ?_⟩)
    rcases prefix_snoc hv hpre h with rfl | ⟨-, hle⟩
    · -- the entry itself has a table, before the call too
      exfalso
      have hno : lacksTable mS r (p ++ [i]) = false := by
        rw [lacksTable, tableAt_snoc hp hlen]
        exact Option.isNone_eq_false_iff.mpr (Option.isSome_iff_ne_none.mpr hchild)
      have := (hF.lacks (p ++ [i])).mpr ⟨hq, by simp⟩
      rw [hno] at this
      exact Bool.noConfusion this
    · exact hle
  · have hcl := hF.small w hw
    by_cases hpre : p ++ [i] <+: vpath w
    · obtain ⟨q, hq⟩ := hpre
      have hpath : vpath w = p ++ i :: q := by rw [← hq]; simp
      rw [hR.walk_mark_on hp hpath]
      exact hcl.set_mark (walk_getElem? hp hpath) user
    · rw [hR.walk_mark_off hp hpre]
      exact hcl
  · have hcl := hF.kernel w hw
    by_cases hpre : p ++ [i] <+: vpath w
    · obtain ⟨q, hq⟩ := hpre
      have hpath : vpath w = p ++ i :: q := by rw [← hq]; simp
      rw [hR.walk_mark_on hp hpath]
      exact hcl.set_mark hlen
    · rw [hR.walk_mark_off hp hpre]
      exact hcl
  · rw [missingTables_congr hsame]
    exact hF.frames

theorem Filling.attach (hF : Filling m mS r v k p.length) (hv : vpath v = p ++ i :: s)
    (hlen : p.length ≤ 2) (hA : Attaches mS r t i p f row e n) (he : isHuge e = false)
    (hrow : p.length ≤ 1 → ∀ j, isPresent (row j) = false)
    (hkernel : ∀ j, isPresent (row j) = true → isUser (row j) = false)
    (hview : SameView mS (mS.attach t i f row e) r) :
    Filling m (mS.attach t i f row e) r v k (p.length + 1) := by
  have hS := hF.view.steady
  have hR : Ready mS r (0 + 1) := hS.ready 1
  have hsnoc : p ++ [i] <+: vpath v := ⟨s, by rw [hv]; simp⟩
  refine ⟨hF.view.trans hview, fun g hg => hF.avail g ((hA.grant.avail_iff g).mp hg).1,
    fun q => ?_, fun w hw => ?_, fun w hw => ?_, ?_⟩
  · rw [lacks_attach hS hA, hF.lacks q, and_assoc]
    refine and_congr_right fun _ => ⟨fun ⟨hno, hne⟩ ⟨hpre, hle⟩ => ?_, fun h => ⟨fun h' => h ⟨h'.1, by omega⟩, ?_⟩⟩
    · rcases prefix_snoc hv hpre hle with rfl | ⟨-, hle'⟩
      · exact hne rfl
      · exact hno ⟨hpre, hle'⟩
    · rintro rfl
      exact h ⟨hsnoc, by simp⟩
  · have hcl := hF.small w hw
    by_cases hpre : p ++ [i] <+: vpath w
    · obtain ⟨j, q, hpath⟩ := exists_next_index hlen hpre
      rw [hR.walk_attach_on hA hpath]
      rw [hA.walk hpath] at hcl
      have htr := length_trail hA.at_path
      exact hcl.append (by omega) he (fun h0 => hrow (by omega) j)
    · rw [hR.walk_attach_off hA hpre]
      exact hcl
  · by_cases hpre : p ++ [i] <+: vpath w
    · obtain ⟨j, q, hpath⟩ := exists_next_index hlen hpre
      have htr := length_trail hA.at_path
      rw [hR.walk_attach_on hA hpath]
      exact .append (by omega) (hkernel j)
    · rw [hR.walk_attach_off hA hpre]
      exact hF.kernel w hw
  · -- the new table was missing, and it takes the frame
    have hmem : p ++ [i] ∈ missingTables mS r [v] := by
      rw [missingTables, Finset.mem_filter, List.mem_toFinset]
      refine ⟨?_, lacks_old hA⟩
      simp only [List.flatMap_cons, List.flatMap_nil, List.append_nil]
      exact mem_tablePaths.mpr ⟨hsnoc, by simp, by simp; omega⟩
    have herase : missingTables (mS.attach t i f row e) r [v] =
        (missingTables mS r [v]).erase (p ++ [i]) := by
      ext q
      simp only [missingTables, Finset.mem_filter, Finset.mem_erase, lacks_attach hS hA]
      tauto
    have hcard := Finset.card_erase_add_one hmem
    have hframes := hF.frames
    rw [← hcard, Nat.add_right_comm] at hframes
    rw [herase]
    exact (hasFrames_grant hA.grant).mp hframes

/-- A table that is missing on the path has a frame. -/
theorem Filling.has_frame (hF : Filling m mS r v k p.length) (hv : vpath v = p ++ i :: s)
    (hlen : p.length ≤ 2) (hlacks : lacksTable mS r (p ++ [i]) = true) :
    (pmmAllocPage mS.pmm).2 ≠ 0 := by
  have hmem : p ++ [i] ∈ missingTables mS r [v] := by
    rw [missingTables, Finset.mem_filter, List.mem_toFinset]
    refine ⟨?_, hlacks⟩
    simp only [List.flatMap_cons, List.flatMap_nil, List.append_nil]
    exact mem_tablePaths.mpr ⟨⟨s, by rw [hv]; simp⟩, by simp, by simp; omega⟩
  have hframes := hF.frames
  rw [← Finset.card_erase_add_one hmem, Nat.add_right_comm] at hframes
  exact hframes.ne_zero

theorem filling_stageRule {fl : BitVec 64} {user : Bool} (hfl : TableFlags fl)
    (hsmall : NoGiant (walk m r v)) :
    StageRule r v fl user (fun d mS => Filling m mS r v k d) (fun _ => False) where
  ready := fun _ hF => hF.view.steady.ready 1
  mark := by
    intro mS t i p s hF hv hlen hp hH hP
    refine hF.mark hv hlen hp ?_ user
    -- an entry that is present has a table below it, unless it is a huge page
    have hbig : p.length ≠ 0 → isHuge (mS.mem t i) = false := by
      intro h0
      by_cases h2 : p.length = 2
      · exact hH h2
      · have hget := walk_getElem? hp hv
        rw [show p.length = 1 by omega] at hget
        exact hF.small v hsmall _ hget hP
    rw [tableChild_present (by omega) hP]
    · simp
    · by_cases h0 : p.length = 0
      · left; omega
      · exact Or.inr (hbig h0)
  attach := by
    intro mS t i p s f hF hv hlen hp hH hP hg
    obtain ⟨n, hn⟩ : ∃ n, 3 - p.length = n + 1 := ⟨2 - p.length, by omega⟩
    have hA := attaches_empty (hF.view.steady.ready (0 + 1)) hp hn hg hP hfl.mask hfl.present hfl.huge user
    exact hF.attach hv hlen hA (isHuge_tableEntry hfl user f) (fun _ _ => by decide)
      (fun _ h => absurd h (by decide))
      (sameView_attachEmpty hF.view.steady hF.view.aligned hA hlen hP hfl)
  starved := by
    intro mS t i p s hF hv hlen hp hP h0
    refine hF.has_frame hv hlen ?_ h0
    rw [lacksTable, tableAt_snoc hp hlen, tableChild_absent hP]
    rfl
  giant := by
    intro mS t hF hp hH
    have hno : lacksTable mS r ([pml4Idx v] ++ [pdptIdx v]) = true := by
      rw [lacksTable, tableAt_snoc hp (by simp)]
      simp [tableChild, hH]
    exact ((hF.lacks _).mp hno).2 ⟨⟨[pdIdx v, ptIdx v], rfl⟩, by simp⟩
  split := by
    intro mS t f hF hp hH hg
    have hA := attaches_pieces (hF.view.steady.ready (0 + 1)) hp rfl hg hH user
    have hget : (walk mS r v)[2]? = some (mS.mem t (pdIdx v)) :=
      walk_getElem? (p := [pml4Idx v, pdptIdx v]) hp rfl
    exact hF.attach (p := [pml4Idx v, pdptIdx v]) (s := [ptIdx v]) rfl (by simp) hA
      ((tableChild_eq_some hA.new).2.1 (by decide)) (fun h => by simp at h)
      (fun j _ => isUser_hugePiece _ j)
      (sameView_attachPieces hF.view.steady hF.view.aligned hA rfl hH
        fun hP => hF.view.aligned v _ hget hP hH)
  unsplit := by
    intro mS t hF hp hH h0
    refine hF.has_frame (p := [pml4Idx v, pdptIdx v]) (s := [ptIdx v]) rfl (by simp) ?_ h0
    rw [lacksTable, tableAt_snoc hp (by simp)]
    simp [tableChild, hH]

end Stages

-- ---------------------------------------------------------------------------
-- One page
-- ---------------------------------------------------------------------------

section Page

variable {m m' : Machine} {r f k : Nat} {v flags : BitVec 64} {vas : List (BitVec 64)}

/-- No page but that of `v` changed, and no data. -/
structure KeepsOthers (m m' : Machine) (r : Nat) (v : BitVec 64) : Prop where
  steady : Steady m' r
  aligned : ∀ w, AlignedWalk (walk m' r w)
  broken : ∀ w, pageNumber w ≠ pageNumber v → (Broken (walk m' r w) ↔ Broken (walk m r w))
  frame : ∀ w, pageNumber w ≠ pageNumber v → frameAt m' r w = frameAt m r w
  data : ∀ g, DataFrame m r g → DataFrame m' r g ∧ m'.mem g = m.mem g

/-- The page of `v` got the frame `f`, and the tables that it needs. -/
structure PageFilled (m m' : Machine) (r : Nat) (v : BitVec 64) (f : Nat) : Prop
    extends KeepsOthers m m' r v where
  avail : ∀ g, Avail m'.pmm g → Avail m.pmm g
  here : ∀ w, pageNumber w = pageNumber v → PageHere m' r w ∧ frameAt m' r w = f
  lacks : ∀ q, lacksTable m' r q = true ↔
    lacksTable m r q = true ∧ ¬ (q <+: vpath v ∧ q.length ≤ 3)
  small : ∀ w, NoGiant (walk m r w) → NoGiant (walk m' r w)
  kernel : ∀ w, pageNumber w ≠ pageNumber v → KernelLeaf (walk m r w) → KernelLeaf (walk m' r w)

theorem SameView.keepsOthers (h : SameView m m' r) (v : BitVec 64) : KeepsOthers m m' r v :=
  ⟨h.steady, h.aligned, fun w _ => h.broken w, fun w _ => by rw [frameAt, frameAt, h.phys w], h.data⟩

theorem SameView.keepsOthers_of {m₁ : Machine} (h : SameView m m₁ r)
    (h' : KeepsOthers m₁ m' r v) : KeepsOthers m m' r v := by
  refine ⟨h'.steady, h'.aligned, fun w hw => (h'.broken w hw).trans (h.broken w), fun w hw => ?_,
    fun g hg => ?_⟩
  · rw [h'.frame w hw, frameAt, frameAt, h.phys w]
  · obtain ⟨hd, hmem⟩ := h.data g hg
    obtain ⟨hd', hmem'⟩ := h'.data g hd
    exact ⟨hd', hmem'.trans hmem⟩

/-- A store to the leaf entry of `v`, after steps that changed no page. -/
theorem SameView.storeLeaf {m₁ : Machine} {pt : Nat} (h : SameView m m₁ r)
    (hpt : tableAt tableChild m₁.mem 3 r [pml4Idx v, pdptIdx v, pdIdx v] = some pt) (e : BitVec 64) :
    KeepsOthers m (m₁.setEntry pt (ptIdx v) e) r v := by
  obtain ⟨hwalk, a, b, c, hold, hnew⟩ : (∀ w, pageNumber w ≠ pageNumber v →
      walk (m₁.setEntry pt (ptIdx v) e) r w = walk m₁ r w) ∧
        ∃ a b c, walk m₁ r v = [a, b, c, m₁.mem pt (ptIdx v)] ∧
          walk (m₁.setEntry pt (ptIdx v) e) r v = [a, b, c, e] :=
    walk_storeLeaf h.steady hpt (fun _ _ => rfl) _ m₁.pmm
  have htab : ∀ q, tableAt tableChild (m₁.setEntry pt (ptIdx v) e).mem 3 r q =
      tableAt tableChild m₁.mem 3 r q :=
    h.steady.distinct.tableAt_relabel hpt ((tableChild_zero _).trans (tableChild_zero _).symm)
  refine ⟨h.steady.setLeaf hpt rfl _, fun w => ?_, fun w hw => ?_, fun w hw => ?_, fun g hg => ?_⟩
  · by_cases hw : pageNumber w = pageNumber v
    · have hal := h.aligned v
      rw [hold] at hal
      rw [walk_congr hw, hnew]
      exact hal
    · rw [hwalk w hw]
      exact h.aligned w
  · rw [hwalk w hw]
    exact h.broken w
  · rw [frameAt, frameAt, vmmGetPhys_eq, hwalk w hw, ← vmmGetPhys_eq, h.phys w]
  · obtain ⟨hd, hmem⟩ := h.data g hg
    have hne : g ≠ pt := by
      rintro rfl
      exact hd.2 ⟨_, hpt⟩
    refine ⟨⟨hd.1, ?_⟩, (write_table_of_ne hne).trans hmem⟩
    rintro ⟨q, hq⟩
    exact hd.2 ⟨q, (htab q).symm.trans hq⟩

theorem Filling.start (hS : Steady m r) (hal : ∀ w, AlignedWalk (walk m r w))
    (hframes : HasFrames m.pmm ((missingTables m r [v]).card + k)) : Filling m m r v k 0 := by
  refine ⟨.refl hS hal, fun _ h => h, fun q => ⟨fun h => ⟨h, fun ⟨_, h0⟩ => ?_⟩, fun h => h.1⟩,
    fun _ h => h, fun _ h => h, hframes⟩
  obtain rfl := List.length_eq_zero_iff.mp (Nat.le_zero.mp h0)
  rw [lacksTable, tableAt_nil] at h
  exact Bool.noConfusion h

/-- Where the old entry is no user page, only the entry changes. -/
theorem installPte_kernel {pt : Nat} {i : Fin 512} {paddr : BitVec 64}
    (h : isPresent (m.mem pt i) = true → isUser (m.mem pt i) = false) :
    installPte m pt i paddr flags = m.setEntry pt i (paddr ||| flags ||| pagePresent) := by
  have hno : ¬ (isPresent (m.mem pt i) = true ∧ isUser (m.mem pt i) = true) := by
    rintro ⟨hP, hU⟩
    rw [h hP] at hU
    exact Bool.noConfusion hU
  unfold installPte
  simp only [if_neg hno, ite_self]

/-- The last store of a mapping that reached its leaf table. -/
theorem Filling.leaf {m₁ : Machine} {pt : Nat} (hF : Filling m m₁ r v k 3)
    (hpt : tableAt tableChild m₁.mem 3 r [pml4Idx v, pdptIdx v, pdIdx v] = some pt)
    (hf : f < 2 ^ 40) (hmask : flags &&& ptePhysMask = 0#64) (hsmall : isHuge flags = false) :
    let m' := m₁.setEntry pt (ptIdx v) (BitVec.ofNat 64 (f * 4096) ||| flags ||| pagePresent)
    PageFilled m m' r v f ∧ HasFrames m'.pmm k := by
  intro m'
  obtain ⟨hwalk, a, b, c, hold, hnew⟩ : (∀ w, pageNumber w ≠ pageNumber v →
      walk m' r w = walk m₁ r w) ∧ ∃ a b c, walk m₁ r v = [a, b, c, m₁.mem pt (ptIdx v)] ∧
        walk m' r v = [a, b, c, BitVec.ofNat 64 (f * 4096) ||| flags ||| pagePresent] :=
    walk_storeLeaf hF.view.steady hpt (fun _ _ => rfl) _ m₁.pmm
  have htab : ∀ q, tableAt tableChild m'.mem 3 r q = tableAt tableChild m₁.mem 3 r q :=
    hF.view.steady.distinct.tableAt_relabel hpt ((tableChild_zero _).trans (tableChild_zero _).symm)
  refine ⟨⟨hF.view.storeLeaf hpt _, hF.avail, fun w hw => leaf_shows hf hmask hsmall hnew hw,
    fun q => ?_, fun w hw => ?_, fun w hw hc => ?_⟩, ?_⟩
  · rw [← hF.lacks q, lacksTable, lacksTable, htab]
  · by_cases hpn : pageNumber w = pageNumber v
    · have hgiant := hF.small w hw
      rw [walk_congr hpn, hold] at hgiant
      rw [walk_congr hpn, hnew]
      exact hgiant
    · rw [hwalk w hpn]
      exact hF.small w hw
  · rw [hwalk w hw]
    exact hF.kernel w hc
  · -- all tables are there, so what is left is what was to spare
    have hnone : missingTables m₁ r [v] = ∅ := by
      rw [missingTables, Finset.filter_eq_empty_iff]
      intro q hq hl
      simp only [List.flatMap_cons, List.flatMap_nil, List.append_nil, List.mem_toFinset] at hq
      obtain ⟨hpre, -, hlen⟩ := mem_tablePaths.mp hq
      exact ((hF.lacks q).mp hl).2 ⟨hpre, hlen⟩
    have hspare := hF.frames
    rw [hnone, Finset.card_empty, Nat.zero_add] at hspare
    exact hspare

/-- A mapping that has the frames for the missing tables goes through. -/
theorem vmmMapPage_fills (hS : Steady m r) (hal : ∀ w, AlignedWalk (walk m r w))
    (hclear : PageClear (walk m r v)) (hf : f < 2 ^ 40) (hmask : flags &&& ptePhysMask = 0#64)
    (hsmall : isHuge flags = false)
    (hframes : HasFrames m.pmm ((missingTables m r [v]).card + k)) :
    PageFilled m (vmmMapPage m r v (BitVec.ofNat 64 (f * 4096)) flags) r v f ∧
      HasFrames (vmmMapPage m r v (BitVec.ofNat 64 (f * 4096)) flags).pmm k := by
  have hfl := tableFlags_vmm (isUser flags)
  have hrule : StageRule r v (vmmTableFlags (isUser flags)) (isUser flags)
      (fun d mS => Filling m mS r v k d) (fun _ => False) := filling_stageRule hfl hclear.small
  unfold vmmMapPage
  rcases hrule.openPath hfl (Filling.start hS hal hframes) with ⟨_, _, hno⟩ | ⟨m₁, pt, hm₁, hF, hpt⟩
  · exact hno.elim
  · rw [hm₁]
    obtain ⟨a, b, c, hold⟩ := walk_of_leaf hpt
    show PageFilled m (installPte m₁ pt (ptIdx v) _ flags) r v f ∧
      HasFrames (installPte m₁ pt (ptIdx v) _ flags).pmm k
    rw [installPte_kernel (hF.kernel v hclear.kernel _ (by rw [hold]; rfl))]
    exact hF.leaf hpt hf hmask hsmall

/-- The machine after frame `f` was taken and filled. -/
def Machine.takeFilled (m : Machine) (f : Nat) (row : Fin 512 → BitVec 64) : Machine :=
  m.starved.fillPage (f * 4096) row

theorem takeFilled_mem (m : Machine) (f : Nat) (row : Fin 512 → BitVec 64) :
    (m.takeFilled f row).mem = Function.update m.mem f row := by
  simp [Machine.takeFilled, Machine.fillPage, Machine.starved]

variable {row : Fin 512 → BitVec 64}

/-- Taking a frame and filling it changes no page and no data. -/
theorem takeFilled_view (hS : Steady m r) (hal : ∀ w, AlignedWalk (walk m r w))
    (hg : Grants m.pmm f) :
    SameView m (m.takeFilled f row) r ∧ (∀ w, walk (m.takeFilled f row) r w = walk m r w) ∧
      (∀ q, lacksTable (m.takeFilled f row) r q = lacksTable m r q) ∧
      DataFrame (m.takeFilled f row) r f ∧ (m.takeFilled f row).mem f = row := by
  have htab : ∀ u, IsTable m r u → (m.takeFilled f row).mem u = m.mem u := by
    intro u hu
    rw [takeFilled_mem]
    refine Function.update_of_ne ?_ _ _
    rintro rfl
    exact hS.fresh u hg.avail hu
  have hview : SameView m (m.takeFilled f row) r := by
    refine sameView_alloc hS hal htab fun g hdata => ?_
    show (m.takeFilled f row).mem g = m.mem g
    rw [takeFilled_mem]
    refine Function.update_of_ne ?_ _ _
    rintro rfl
    exact hdata.1 hg.avail
  have hat := tableAt_congr htab
  refine ⟨hview, fun w => trail_congr htab (vpath w), fun q => ?_, ⟨fun hA => ?_, ?_⟩, ?_⟩
  · rw [lacksTable, lacksTable, hat]
  · exact ((hg.avail_iff f).mp hA).2 rfl
  · rintro ⟨q, hq⟩
    exact hS.fresh f hg.avail ⟨q, (hat q).symm.trans hq⟩
  · rw [takeFilled_mem, Function.update_self]

/-- **One round.** Frame `f` was taken and filled, and a mapping puts it at `v`. -/
theorem PageFilled.of_filled {m' : Machine} (hS : Steady m r)
    (hal : ∀ w, AlignedWalk (walk m r w)) (hg : Grants m.pmm f)
    (hP : PageFilled (m.takeFilled f row) m' r v f) :
    PageFilled m m' r v f ∧ DataFrame m' r f ∧ m'.mem f = row := by
  obtain ⟨hview, hwalk, hlacks, hdata, hrow⟩ := takeFilled_view hS hal hg
  exact ⟨⟨hview.keepsOthers_of hP.toKeepsOthers, fun g h => avail_of_alloc hS.covers (hP.avail g h),
    hP.here, fun q => by rw [hP.lacks q, hlacks], fun w hc => hP.small w (by rw [hwalk]; exact hc),
    fun w hw hc => hP.kernel w hw (by rw [hwalk]; exact hc)⟩,
    (hP.data f hdata).1, (hP.data f hdata).2.trans hrow⟩

/-- The frames left for the mapping when one has been taken. -/
theorem HasFrames.takeFilled (hS : Steady m r) (hal : ∀ w, AlignedWalk (walk m r w))
    (hg : Grants m.pmm f) (h : HasFrames m.pmm ((missingTables m r [v]).card + k + 1)) :
    HasFrames (m.takeFilled f row).pmm ((missingTables (m.takeFilled f row) r [v]).card + k) := by
  obtain ⟨-, -, hlacks, -⟩ := takeFilled_view hS hal hg
  rw [missingTables_congr hlacks]
  exact (hasFrames_grant hg).mp h

-- ---------------------------------------------------------------------------
-- A range
-- ---------------------------------------------------------------------------

/-- The page of `w` shows a frame with the content `row` that was free in `m` and is now in use. -/
structure FreshPage (m m' : Machine) (r : Nat) (w : BitVec 64) (row : Fin 512 → BitVec 64) :
    Prop where
  here : PageHere m' r w
  taken : Avail m.pmm (frameAt m' r w)
  data : DataFrame m' r (frameAt m' r w)
  content : m'.mem (frameAt m' r w) = row

def InPages (vas : List (BitVec 64)) (w : BitVec 64) : Prop :=
  ∃ va ∈ vas, pageNumber w = pageNumber va

/-- Every page of `vas` got a frame of its own, filled with what `content` says for its number; no
other page changed and no data. -/
structure RangeFilled (m m' : Machine) (r : Nat) (vas : List (BitVec 64))
    (content : Nat → Fin 512 → BitVec 64) : Prop where
  steady : Steady m' r
  aligned : ∀ w, AlignedWalk (walk m' r w)
  fresh : ∀ w, InPages vas w → FreshPage m m' r w (content (pageNumber w))
  own : ∀ w w', InPages vas w → InPages vas w' → frameAt m' r w = frameAt m' r w' →
    pageNumber w = pageNumber w'
  broken : ∀ w, ¬ InPages vas w → (Broken (walk m' r w) ↔ Broken (walk m r w))
  frame : ∀ w, ¬ InPages vas w → frameAt m' r w = frameAt m r w
  data : ∀ g, DataFrame m r g → DataFrame m' r g ∧ m'.mem g = m.mem g

variable {content : Nat → Fin 512 → BitVec 64}

theorem RangeFilled.nil (hS : Steady m r) (hal : ∀ w, AlignedWalk (walk m r w)) :
    RangeFilled m m r [] content := by
  have hno : ∀ {w}, ¬ InPages [] w := fun ⟨_, h, _⟩ => absurd h (by simp)
  exact ⟨hS, hal, fun _ h => absurd h hno, fun _ _ h => absurd h hno, fun _ _ => Iff.rfl,
    fun _ _ => rfl, fun _ hg => ⟨hg, rfl⟩⟩

/-- A page, and then a range that it does not belong to. -/
theorem RangeFilled.cons {m₁ : Machine} (hP : PageFilled m m₁ r v f) (hg : Avail m.pmm f)
    (hdata : DataFrame m₁ r f) (hrow : m₁.mem f = content (pageNumber v))
    (hR : RangeFilled m₁ m' r vas content) (hv : ¬ InPages vas v) :
    RangeFilled m m' r (v :: vas) content := by
  have hcase : ∀ {w}, InPages (v :: vas) w → pageNumber w = pageNumber v ∨ InPages vas w := by
    rintro w ⟨va, hva, hw⟩
    rcases List.mem_cons.mp hva with rfl | hva
    · exact Or.inl hw
    · exact Or.inr ⟨va, hva, hw⟩
  have hskip : ∀ {w}, pageNumber w = pageNumber v → ¬ InPages vas w := by
    rintro w hw ⟨va, hva, hw'⟩
    exact hv ⟨va, hva, hw.symm.trans hw'⟩
  -- the page of `v` still shows `f`
  have hhere : ∀ {w}, pageNumber w = pageNumber v → frameAt m' r w = f := fun {w} hw => by
    rw [hR.frame w (hskip hw), (hP.here w hw).2]
  have hne : ∀ {w}, InPages vas w → frameAt m' r w ≠ f := by
    rintro w hw rfl
    exact hdata.1 (hR.fresh w hw).taken
  have hdata' := hR.data f hdata
  refine ⟨hR.steady, hR.aligned, fun w hw => ?_, fun w w' hw hw' heq => ?_, fun w hw => ?_,
    fun w hw => ?_, fun g hdg => ?_⟩
  · rcases hcase hw with h | h
    · have hframe : frameAt m' r w = f := hhere h
      refine ⟨fun hb => (hP.here w h).1 ((hR.broken w (hskip h)).mp hb), ?_, ?_, ?_⟩
      · exact hframe ▸ hg
      · exact hframe ▸ hdata'.1
      · rw [hframe, hdata'.2, hrow, h]
    · have hF := hR.fresh w h
      exact ⟨hF.here, hP.avail _ hF.taken, hF.data, hF.content⟩
  · rcases hcase hw with h | h
    · rcases hcase hw' with h' | h'
      · exact h.trans h'.symm
      · exact absurd (heq.symm.trans (hhere h)) (hne h')
    · rcases hcase hw' with h' | h'
      · exact absurd (heq.trans (hhere h')) (hne h)
      · exact hR.own w w' h h' heq
  · have h1 : pageNumber w ≠ pageNumber v := fun h => hw ⟨v, List.mem_cons_self, h⟩
    have h2 : ¬ InPages vas w := fun ⟨va, hva, h⟩ => hw ⟨va, List.mem_cons_of_mem _ hva, h⟩
    exact (hR.broken w h2).trans (hP.broken w h1)
  · have h1 : pageNumber w ≠ pageNumber v := fun h => hw ⟨v, List.mem_cons_self, h⟩
    have h2 : ¬ InPages vas w := fun ⟨va, hva, h⟩ => hw ⟨va, List.mem_cons_of_mem _ hva, h⟩
    rw [hR.frame w h2, hP.frame w h1]
  · obtain ⟨hd, hmem⟩ := hP.data g hdg
    obtain ⟨hd', hmem'⟩ := hR.data g hd
    exact ⟨hd', hmem'.trans hmem⟩

/-- The tables that a page needs, and then those that the rest of the range needs. -/
theorem card_missingTables_cons {m₁ : Machine} (hP : PageFilled m m₁ r v f) :
    (missingTables m r (v :: vas)).card =
      (missingTables m r [v]).card + (missingTables m₁ r vas).card := by
  have hdisj : Disjoint (missingTables m r [v]) (missingTables m₁ r vas) := by
    rw [Finset.disjoint_left]
    intro q hq hq'
    simp only [missingTables, Finset.mem_filter, List.mem_toFinset, List.flatMap_cons,
      List.flatMap_nil, List.append_nil] at hq hq'
    obtain ⟨hpre, -, hlen⟩ := mem_tablePaths.mp hq.1
    exact ((hP.lacks q).mp hq'.2).2 ⟨hpre, hlen⟩
  rw [← Finset.card_union_of_disjoint hdisj]
  congr 1
  ext q
  simp only [missingTables, Finset.mem_union, Finset.mem_filter, List.mem_toFinset,
    List.flatMap_cons, List.flatMap_nil, List.append_nil, List.mem_append, hP.lacks q]
  constructor
  · rintro ⟨h, hl⟩
    by_cases hq : q ∈ tablePaths v
    · exact Or.inl ⟨hq, hl⟩
    · have hrest := h.resolve_left hq
      obtain ⟨va, -, hva⟩ := List.mem_flatMap.mp hrest
      obtain ⟨-, hne, -⟩ := mem_tablePaths.mp hva
      exact Or.inr ⟨hrest, hl, fun h' => hq (mem_tablePaths.mpr ⟨h'.1, hne, h'.2⟩)⟩
  · rintro (⟨h, hl⟩ | ⟨h, hl, -⟩)
    · exact ⟨Or.inl h, hl⟩
    · exact ⟨Or.inr h, hl⟩

theorem card_missingTables_le (m : Machine) (v : BitVec 64) (vas : List (BitVec 64)) :
    (missingTables m r [v]).card ≤ (missingTables m r (v :: vas)).card := by
  refine Finset.card_le_card fun q hq => ?_
  simp only [missingTables, Finset.mem_filter, List.mem_toFinset, List.flatMap_cons,
    List.flatMap_nil, List.append_nil, List.mem_append] at hq ⊢
  exact ⟨Or.inl hq.1, hq.2⟩

end Page

end Lestra
