import Lestra.Mm.VmmGrow
import Lestra.Mm.Space
import Lestra.Syscall.Unmap

/-!
# Virtual memory manager — what a mapping leaves alone

A mapping of a page adds tables, user bits and the pieces of split 2 MB pages.
`SameView` says what all of this keeps: which pages are present, the frame that
each of them shows, and the content of the frames that hold data.
`map_page_view` adds the last store, wherever the mapping gives up.
-/

namespace Lestra

open Word64 Radix

-- ---------------------------------------------------------------------------
-- Pages and data
-- ---------------------------------------------------------------------------

/-- The frame is neither free nor a table of the address space. -/
def DataFrame (m : Machine) (r g : Nat) : Prop := ¬ Avail m.pmm g ∧ ¬ IsTable m r g

/-- The page of `w` is present. -/
def PageHere (m : Machine) (r : Nat) (w : BitVec 64) : Prop := ¬ Broken (walk m r w)

/-- A 2 MB page has an address that is a multiple of its size. -/
def AlignedWalk (es : List (BitVec 64)) : Prop :=
  ∀ e, es[2]? = some e → isPresent e = true → isHuge e = true → e &&& 0x1FF000#64 = 0#64

/-- Page tables as the kernel builds them: besides `Steady`, 2 MB pages are aligned and
the entries for 4 KB pages do not carry `PAGE_HUGE`. -/
structure Paged (m : Machine) (r : Nat) : Prop where
  steady : Steady m r
  aligned : ∀ w, AlignedWalk (walk m r w)
  leaves : ∀ w e, (walk m r w)[3]? = some e → isHuge e = false

theorem AlignedWalk.set_mark {es : List (BitVec 64)} {k : Nat} {e : BitVec 64}
    (h : AlignedWalk es) (he : es[k]? = some e) (user : Bool) :
    AlignedWalk (es.set k (markUser user e)) := by
  intro a ha hP hH
  by_cases hk : k = 2
  · subst hk
    rw [List.getElem?_set_self (List.getElem?_eq_some_iff.mp he).1] at ha
    obtain rfl := Option.some.inj ha
    rw [isPresent_markUser] at hP
    rw [isHuge_markUser] at hH
    rw [markUser_and _ (by decide)]
    exact h e he hP hH
  · rw [List.getElem?_set_ne hk] at ha
    exact h a ha hP hH

/-- Frames of one page are one frame. -/
theorem frameAt_congr {m : Machine} {r : Nat} {v w : BitVec 64} (h : pageNumber w = pageNumber v) :
    frameAt m r w = frameAt m r v := by
  have hpart : ∀ (a : BitVec 64) (k : Nat), k ≤ 36 →
      (a ||| (w &&& BitVec.ofNat 64 (2 ^ (12 + k) - 1))).toNat / pageSize =
        (a ||| (v &&& BitVec.ofNat 64 (2 ^ (12 + k) - 1))).toNat / pageSize := by
    intro a k hk
    have hmask : (BitVec.ofNat 64 (2 ^ (12 + k) - 1)).toNat = 2 ^ (12 + k) - 1 := by
      rw [BitVec.toNat_ofNat, Nat.mod_eq_of_lt]
      have := Nat.pow_le_pow_right (show 0 < 2 by decide) (show 12 + k ≤ 48 by omega)
      omega
    have hlow : ∀ x : BitVec 64, (x.toNat % 2 ^ (12 + k)) / 2 ^ 12 = pageNumber x % 2 ^ k := by
      intro x
      rw [pageNumber, Nat.pow_add, Nat.mod_mul_right_div_self,
        Nat.mod_mod_of_dvd _ (Nat.pow_dvd_pow 2 hk)]
    rw [pageSize_eq, show 4096 = 2 ^ 12 from rfl, BitVec.toNat_or, BitVec.toNat_or,
      BitVec.toNat_and, BitVec.toNat_and, hmask, Nat.and_two_pow_sub_one_eq_mod,
      Nat.and_two_pow_sub_one_eq_mod, ← Nat.shiftRight_eq_div_pow, ← Nat.shiftRight_eq_div_pow,
      Nat.shiftRight_or_distrib, Nat.shiftRight_or_distrib, Nat.shiftRight_eq_div_pow,
      Nat.shiftRight_eq_div_pow, Nat.shiftRight_eq_div_pow, hlow, hlow, h]
  have hentry : ∀ level e, (entryPhys level e w).toNat / pageSize =
      (entryPhys level e v).toNat / pageSize := by
    intro level e
    unfold entryPhys
    split
    · split
      · dsimp only
        split
        · exact hpart _ 18 (by decide)
        · exact hpart _ 9 (by decide)
      · exact hpart _ 0 (by decide)
    · rfl
  rw [frameAt, frameAt, vmmGetPhys_eq, vmmGetPhys_eq, walk_congr h]
  unfold walkPhys
  split
  · exact hentry _ _
  · exact hentry _ _
  · exact hentry _ _
  · rfl

-- ---------------------------------------------------------------------------
-- A store to a leaf entry
-- ---------------------------------------------------------------------------

/-- What a store to the leaf entry of `a` does to every walk, whatever else happens outside the
tables. -/
theorem walk_storeLeaf {m : Machine} {r pt : Nat} {a : BitVec 64} (hS : Steady m r)
    (hpt : tableAt tableChild m.mem 3 r [pml4Idx a, pdptIdx a, pdIdx a] = some pt)
    {mem : Nat → Fin 512 → BitVec 64} (hmem : ∀ t, IsTable m r t → mem t = m.mem t) (e : BitVec 64)
    (p : Pmm) :
    (∀ w, pageNumber w ≠ pageNumber a → walk ⟨p, write mem pt (ptIdx a) e⟩ r w = walk m r w) ∧
      ∃ x y z, walk m r a = [x, y, z, m.mem pt (ptIdx a)] ∧
        walk ⟨p, write mem pt (ptIdx a) e⟩ r a = [x, y, z, e] := by
  have htab : ∀ q, tableAt tableChild mem 3 r q = tableAt tableChild m.mem 3 r q :=
    tableAt_congr hmem
  have hD : Distinct tableChild mem 3 r := fun p q u hp hq =>
    hS.distinct p q u ((htab p).symm.trans hp) ((htab q).symm.trans hq)
  have hpt' := (htab _).trans hpt
  have htrail : ∀ q, trail tableChild mem 3 r q = trail tableChild m.mem 3 r q := trail_congr hmem
  refine ⟨fun w hw => ?_, ?_⟩
  · show trail tableChild (write mem pt (ptIdx a) e) 3 r (vpath w) = _
    rw [hD.trail_write_off hpt', htrail, walk]
    intro hpre
    have heq : vpath a = vpath w := hpre.eq_of_length rfl
    exact hw ((vpath_eq_iff a w).mp heq.symm)
  · have hl := length_trail hpt
    have hpath : vpath a = [pml4Idx a, pdptIdx a, pdIdx a] ++ ptIdx a :: [] := rfl
    have hold : walk m r a = trail tableChild m.mem 3 r [pml4Idx a, pdptIdx a, pdIdx a] ++
        [m.mem pt (ptIdx a)] := by
      rw [walk, hpath, trail_append hpt]
      rfl
    have hnew : walk ⟨p, write mem pt (ptIdx a) e⟩ r a =
        trail tableChild m.mem 3 r [pml4Idx a, pdptIdx a, pdIdx a] ++ [e] := by
      show trail tableChild (write mem pt (ptIdx a) e) 3 r (vpath a) = _
      rw [hpath, hD.trail_write_on hpt', htrail]
      simp [trail]
    obtain ⟨x, y, z, htr⟩ := List.length_eq_three.mp hl
    rw [htr] at hold hnew
    exact ⟨x, y, z, hold, hnew⟩

-- ---------------------------------------------------------------------------
-- The stages of a mapping
-- ---------------------------------------------------------------------------

/-- The machine `mS` shows the same pages as `m` and holds the same data. -/
structure SameView (m mS : Machine) (r : Nat) : Prop where
  steady : Steady mS r
  aligned : ∀ w, AlignedWalk (walk mS r w)
  broken : ∀ w, Broken (walk mS r w) ↔ Broken (walk m r w)
  phys : ∀ w, vmmGetPhys mS r w = vmmGetPhys m r w
  data : ∀ g, DataFrame m r g → DataFrame mS r g ∧ mS.mem g = m.mem g

theorem SameView.trans {m₁ m₂ m₃ : Machine} {r : Nat} (h : SameView m₁ m₂ r)
    (h' : SameView m₂ m₃ r) : SameView m₁ m₃ r := by
  refine ⟨h'.steady, h'.aligned, fun w => (h'.broken w).trans (h.broken w),
    fun w => (h'.phys w).trans (h.phys w), fun g hg => ?_⟩
  obtain ⟨hd, hm⟩ := h.data g hg
  obtain ⟨hd', hm'⟩ := h'.data g hd
  exact ⟨hd', hm'.trans hm⟩

section Stages

variable {m : Machine} {r t f : Nat} {i : Fin 512} {p : List (Fin 512)}

theorem SameView.refl (hS : Steady m r) (hal : ∀ w, AlignedWalk (walk m r w)) : SameView m m r :=
  ⟨hS, hal, fun _ => Iff.rfl, fun _ => rfl, fun _ hg => ⟨hg, rfl⟩⟩

/-- A change of memory outside the tables and the data, and frames that are taken. -/
theorem sameView_alloc {mem : Nat → Fin 512 → BitVec 64} (hS : Steady m r)
    (hal : ∀ w, AlignedWalk (walk m r w)) (htab : ∀ u, IsTable m r u → mem u = m.mem u)
    (hdata : ∀ g, DataFrame m r g → mem g = m.mem g) :
    SameView m ⟨(pmmAllocPage m.pmm).1, mem⟩ r := by
  have hwalk : ∀ w, walk ⟨(pmmAllocPage m.pmm).1, mem⟩ r w = walk m r w :=
    fun w => trail_congr htab (vpath w)
  refine ⟨hS.alloc htab, fun w => by rw [hwalk]; exact hal w, fun w => by rw [hwalk],
    fun w => by rw [vmmGetPhys_eq, vmmGetPhys_eq, hwalk], fun g hg => ⟨⟨?_, ?_⟩, hdata g hg⟩⟩
  · exact fun hA => hg.1 (avail_of_alloc hS.covers hA)
  · rintro ⟨q, hq⟩
    exact hg.2 ⟨q, (tableAt_congr htab q).symm.trans hq⟩

theorem sameView_starved (hS : Steady m r) (hal : ∀ w, AlignedWalk (walk m r w)) :
    SameView m m.starved r := sameView_alloc hS hal (fun _ _ => rfl) fun _ _ => rfl

theorem sameView_mark (hS : Steady m r) (hal : ∀ w, AlignedWalk (walk m r w))
    (hp : tableAt tableChild m.mem 3 r p = some t) (user : Bool) :
    SameView m (m.mark user t i) r := by
  have hR := hS.ready 0
  have hcase : ∀ w, walk (m.mark user t i) r w = walk m r w ∨
      ∃ k e, (walk m r w)[k]? = some e ∧
        walk (m.mark user t i) r w = (walk m r w).set k (markUser user e) := by
    intro w
    by_cases hw : p ++ [i] <+: vpath w
    · obtain ⟨q, hq⟩ := hw
      have hpath : vpath w = p ++ i :: q := by rw [← hq]; simp
      exact Or.inr ⟨p.length, _, walk_getElem? hp hpath, hR.walk_mark_on hp hpath⟩
    · exact Or.inl (hR.walk_mark_off hp hw)
  refine ⟨hS.mark hp user, fun w => ?_, fun w => ?_, hR.getPhys_mark hp, fun g hg => ⟨⟨hg.1, ?_⟩, ?_⟩⟩
  · rcases hcase w with h | ⟨k, e, he, h⟩
    · rw [h]
      exact hal w
    · rw [h]
      exact (hal w).set_mark he user
  · rcases hcase w with h | ⟨k, e, he, h⟩
    · rw [h]
    · rw [h]
      exact broken_iff_of_forall₂ (forall₂_set_mark he user)
  · rintro ⟨q, hq⟩
    rw [hR.tableAt_mark hp] at hq
    exact hg.2 ⟨q, hq⟩
  · have hne : g ≠ t := by
      rintro rfl
      exact hg.2 ⟨p, hp⟩
    exact write_table_of_ne hne

variable {row : Fin 512 → BitVec 64} {e : BitVec 64} {n : Nat}

/-- A table hung below an entry is neither free nor data, and nothing else changes. -/
theorem data_attach (hS : Steady m r) (hA : Attaches m r t i p f row e n) {g : Nat}
    (hg : DataFrame m r g) :
    DataFrame (m.attach t i f row e) r g ∧ (m.attach t i f row e).mem g = m.mem g := by
  have hgf : g ≠ f := by
    rintro rfl
    exact hg.1 hA.grant.avail
  have hgt : g ≠ t := by
    rintro rfl
    exact hg.2 ⟨p, hA.at_path⟩
  refine ⟨⟨fun h => hg.1 ((hA.grant.avail_iff g).mp h).1, fun h => ?_⟩, ?_⟩
  · exact (((hS.ready 1).isTable_attach hA g).mp h).elim hg.2 hgf
  · exact (write_table_of_ne hgt).trans (Function.update_of_ne hgf _ _)

theorem broken_append (as bs : List (BitVec 64)) :
    Broken (as ++ bs) ↔ Broken as ∨ Broken bs := by
  unfold Broken
  simp only [List.mem_append, or_and_right, exists_or]

theorem broken_pair (a b : BitVec 64) :
    Broken [a, b] ↔ isPresent a = false ∨ isPresent b = false := by simp [Broken]

theorem broken_single (a : BitVec 64) : Broken [a] ↔ isPresent a = false := by simp [Broken]

/-- An entry without a table gets one whose entry `j` is present just if the entry was, and
translates as it did. -/
theorem sameView_attach (hS : Steady m r) (hal : ∀ w, AlignedWalk (walk m r w))
    (hA : Attaches m r t i p f row e n) (hlen : p.length ≤ 2) (he : p.length = 2 → isHuge e = false)
    (hrow : p.length ≤ 1 → ∀ j, isPresent (row j) = false)
    (hpres : ∀ j, isPresent (row j) = isPresent (m.mem t i))
    (hphys : ∀ w, vmmGetPhys (m.attach t i f row e) r w = vmmGetPhys m r w) :
    SameView m (m.attach t i f row e) r := by
  have hR : Ready m r (0 + 1) := hS.ready 1
  have hcase : ∀ w, walk (m.attach t i f row e) r w = walk m r w ∨
      ∃ j, walk m r w = trail tableChild m.mem 3 r p ++ [m.mem t i] ∧
        walk (m.attach t i f row e) r w = trail tableChild m.mem 3 r p ++ [e, row j] := by
    intro w
    by_cases hw : p ++ [i] <+: vpath w
    · obtain ⟨j, q, hpath⟩ := exists_next_index hlen hw
      exact Or.inr ⟨j, hA.walk hpath, hR.walk_attach_on hA hpath⟩
    · exact Or.inl (hR.walk_attach_off hA hw)
  have htr := length_trail hA.at_path
  refine ⟨hS.attach hA, fun w => ?_, fun w => ?_, hphys, fun g hg => data_attach hS hA hg⟩
  · rcases hcase w with h | ⟨j, h, h'⟩
    · rw [h]
      exact hal w
    · have hold := hal w
      rw [h] at hold
      rw [h']
      intro a ha hP hH
      by_cases h2 : p.length = 2
      · rw [List.getElem?_append_right (by omega), htr, h2] at ha
        obtain rfl : e = a := by simpa using ha
        rw [he h2] at hH
        exact Bool.noConfusion hH
      · rw [List.getElem?_append_right (by omega), htr] at ha
        have h1 : p.length ≤ 1 := by omega
        have hrow' : ∀ d, [e, row j][d + 1]? = some a → a = row j := by
          intro d hd
          cases d with
          | zero => simpa using hd.symm
          | succ d => simp at hd
        rw [show 2 - p.length = (1 - p.length) + 1 by omega] at ha
        rw [hrow' _ ha, hrow h1 j] at hP
        exact Bool.noConfusion hP
  · rcases hcase w with h | ⟨j, h, h'⟩
    · rw [h]
    · rw [h, h', broken_append, broken_append, broken_pair, broken_single, hpres j,
        (tableChild_eq_some hA.new).1]
      simp

theorem isHuge_tableEntry {fl : BitVec 64} (hF : TableFlags fl) (user : Bool) (f : Nat) :
    isHuge (markUser user (BitVec.ofNat 64 (f * 4096) ||| fl)) = false := by
  rw [isHuge_markUser, isHuge_or, isHuge_ofNat_frame, hF.huge]
  rfl

/-- An absent entry gets an empty table. -/
theorem sameView_attachEmpty {fl : BitVec 64} {user : Bool} (hS : Steady m r)
    (hal : ∀ w, AlignedWalk (walk m r w))
    (hA : Attaches m r t i p f (fun _ => 0#64)
      (markUser user (BitVec.ofNat 64 (f * 4096) ||| fl)) n)
    (hlen : p.length ≤ 2) (hP : isPresent (m.mem t i) = false) (hF : TableFlags fl) :
    SameView m (m.attachEmpty user t i f fl) r :=
  have hR : Ready m r (0 + 1) := hS.ready 1
  sameView_attach hS hal hA hlen (fun _ => isHuge_tableEntry hF user f) (fun _ _ => by decide)
    (fun _ => by rw [hP]; decide) (hR.getPhys_attachEmpty hlen hA hP)

/-- A 2 MB entry gets the table of its pieces. -/
theorem sameView_attachPieces {user : Bool} (hS : Steady m r)
    (hal : ∀ w, AlignedWalk (walk m r w))
    (hA : Attaches m r t i p f (hugePiece (m.mem t i)) (markUser user (BitVec.ofNat 64 (f * 4096) |||
      (m.mem t i &&& ~~~pageHuge &&& ~~~ptePhysMask) ||| pagePresent)) n)
    (hlen : p.length = 2) (hH : isHuge (m.mem t i) = true)
    (hbase : isPresent (m.mem t i) = true → m.mem t i &&& 0x1FF000#64 = 0#64) :
    SameView m (m.attachPieces user t i f) r := by
  have hR : Ready m r (0 + 1) := hS.ready 1
  refine sameView_attach hS hal hA (by omega) (fun _ => ?_) (fun h => by omega)
    (fun j => isPresent_hugePiece _ j) (hR.getPhys_attachPieces hlen hA hH hbase)
  have hlevel := hA.level
  exact (tableChild_eq_some hA.new).2.1 (by omega)

end Stages

-- ---------------------------------------------------------------------------
-- The way down
-- ---------------------------------------------------------------------------

section Path

variable {m : Machine} {r : Nat} {v fl : BitVec 64} {user : Bool}

/-- The machine `mS` is `m` after `d` stages of a mapping of `v`. Where the page is present,
they only mark the entries of its walk, and the last one may split a 2 MB page. -/
structure Opening (m mS : Machine) (r : Nat) (v : BitVec 64) (d : Nat) : Prop where
  view : SameView m mS r
  onPath : d ≤ 2 → PageHere m r v →
    mS.pmm = m.pmm ∧ (walk mS r v).length = (walk m r v).length
  reached : d = 3 → PageHere m r v →
    (walk m r v).length = 4 ∨ ((walk m r v).length = 3 ∧ (pmmAllocPage m.pmm).2 ≠ 0)

/-- The mapping gave up. Where the page is present it is a 1 GB page, or a 2 MB page and there
was no frame for its pieces. -/
structure GaveUp (m mS : Machine) (r : Nat) (v : BitVec 64) : Prop where
  view : SameView m mS r
  stopped : PageHere m r v →
    (walk m r v).length = 2 ∨ ((walk m r v).length = 3 ∧ (pmmAllocPage m.pmm).2 = 0)

/-- An absent entry on the path means that the page was not present. -/
theorem Opening.absent {mS : Machine} {t d : Nat} {i : Fin 512} {p q : List (Fin 512)}
    (hO : Opening m mS r v d) (hv : vpath v = p ++ i :: q) (hlen : p.length ≤ 2)
    (hp : tableAt tableChild mS.mem 3 r p = some t) (hP : isPresent (mS.mem t i) = false) :
    ¬ PageHere m r v := by
  intro hhere
  have hw : walk mS r v = trail tableChild mS.mem 3 r p ++ [mS.mem t i] := by
    rw [walk, hv]
    exact trail_of_child_none hp (k := 2 - p.length) (by omega) (tableChild_absent hP) q
  refine hhere ((hO.view.broken v).mp ?_)
  rw [hw]
  exact broken_append_absent _ hP

theorem opening_stageRule (hF : TableFlags fl) : StageRule r v fl user
    (fun d mS => Opening m mS r v d) (fun mS => GaveUp m mS r v) where
  ready := fun _ hO => hO.view.steady.ready 1
  mark := by
    intro mS t i p q hO hv hlen hp hH hP
    have hV := sameView_mark (i := i) hO.view.steady hO.view.aligned hp user
    have hset : walk (mS.mark user t i) r v =
        (walk mS r v).set p.length (markUser user (mS.mem t i)) :=
      (hO.view.steady.ready 0).walk_mark_on hp hv
    refine ⟨hO.view.trans hV, fun _ hhere => ?_, fun h3 hhere => Or.inl ?_⟩
    · obtain ⟨hpmm, hl⟩ := hO.onPath hlen hhere
      exact ⟨hpmm, by rw [hset, List.length_set, hl]⟩
    · -- the walk goes on below the entry, to a leaf table
      obtain ⟨rfl, rfl⟩ := path_of_length_two hv (by omega)
      have hnext := tableAt_snoc hp hlen (pdIdx v)
      rw [tableChild_present (by simp) hP (Or.inr (hH rfl))] at hnext
      obtain ⟨a, b, c, hw⟩ := walk_of_leaf hnext
      rw [← (hO.onPath hlen hhere).2, hw]
      rfl
  attach := by
    intro mS t i p q f hO hv hlen hp hH hP hg
    obtain ⟨n, hn⟩ : ∃ n, 3 - p.length = n + 1 := ⟨2 - p.length, by omega⟩
    have hR : Ready mS r (0 + 1) := hO.view.steady.ready 1
    have hA := attaches_empty hR hp hn hg hP hF.mask hF.present hF.huge user
    have hno := hO.absent hv hlen hp hP
    exact ⟨hO.view.trans (sameView_attachEmpty hO.view.steady hO.view.aligned hA hlen hP hF),
      fun _ h => absurd h hno, fun _ h => absurd h hno⟩
  starved := fun hO hv hlen hp hP _ =>
    ⟨hO.view.trans (sameView_starved hO.view.steady hO.view.aligned),
      fun h => absurd h (hO.absent hv hlen hp hP)⟩
  giant := by
    intro mS t hO hp hH
    refine ⟨hO.view, fun hhere => Or.inl ?_⟩
    have hw : walk mS r v = trail tableChild mS.mem 3 r [pml4Idx v] ++ [mS.mem t (pdptIdx v)] :=
      trail_of_child_none (p := [pml4Idx v]) hp rfl (by simp [tableChild, hH]) _
    rw [← (hO.onPath (Nat.le_refl 2) hhere).2, hw, List.length_append, length_trail hp]
    rfl
  split := by
    intro mS t f hO hp hH hg
    have hR : Ready mS r (0 + 1) := hO.view.steady.ready 1
    have hA := attaches_pieces hR hp rfl hg hH user
    have hget : (walk mS r v)[2]? = some (mS.mem t (pdIdx v)) :=
      walk_getElem? (p := [pml4Idx v, pdptIdx v]) hp rfl
    have hal : isPresent (mS.mem t (pdIdx v)) = true →
        mS.mem t (pdIdx v) &&& 0x1FF000#64 = 0#64 := fun hP => hO.view.aligned v _ hget hP hH
    refine ⟨hO.view.trans (sameView_attachPieces hO.view.steady hO.view.aligned hA rfl hH hal),
      fun h => by omega, fun _ hhere => Or.inr ⟨?_, ?_⟩⟩
    · rw [← (hO.onPath (Nat.le_refl 2) hhere).2, hA.walk (q := [ptIdx v]) rfl, List.length_append,
        length_trail hp]
      rfl
    · rw [← (hO.onPath (Nat.le_refl 2) hhere).1]
      exact hg.ne_zero
  unsplit := by
    intro mS t hO hp hH h0
    refine ⟨hO.view.trans (sameView_starved hO.view.steady hO.view.aligned), fun hhere => Or.inr ?_⟩
    obtain ⟨hpmm, hl⟩ := hO.onPath (Nat.le_refl 2) hhere
    have hw : walk mS r v = trail tableChild mS.mem 3 r [pml4Idx v, pdptIdx v] ++
        [mS.mem t (pdIdx v)] :=
      trail_of_child_none (p := [pml4Idx v, pdptIdx v]) hp rfl (by simp [tableChild, hH]) _
    refine ⟨?_, hpmm ▸ h0⟩
    rw [← hl, hw, List.length_append, length_trail hp]
    rfl

end Path

-- ---------------------------------------------------------------------------
-- The whole mapping
-- ---------------------------------------------------------------------------

/-- The page of `v` shows frame `f` in `m'`; otherwise `m'` shows what `m` shows. -/
structure ShowsNew (m m' : Machine) (r : Nat) (v : BitVec 64) (f : Nat) : Prop where
  here : ∀ w, pageNumber w = pageNumber v → PageHere m' r w ∧ frameAt m' r w = f
  broken : ∀ w, pageNumber w ≠ pageNumber v → (Broken (walk m' r w) ↔ Broken (walk m r w))
  phys : ∀ w, pageNumber w ≠ pageNumber v → vmmGetPhys m' r w = vmmGetPhys m r w
  data : ∀ g, DataFrame m r g → m'.mem g = m.mem g
  reached : PageHere m r v →
    (walk m r v).length = 4 ∨ ((walk m r v).length = 3 ∧ (pmmAllocPage m.pmm).2 ≠ 0)

/-- A leaf entry for frame `f` shows it. -/
theorem leaf_shows {m : Machine} {r f : Nat} {v w flags a b c : BitVec 64} (hf : f < 2 ^ 40)
    (hmask : flags &&& ptePhysMask = 0#64) (hsmall : isHuge flags = false)
    (hleaf : walk m r v = [a, b, c, BitVec.ofNat 64 (f * 4096) ||| flags ||| pagePresent])
    (hw : pageNumber w = pageNumber v) : PageHere m r w ∧ frameAt m r w = f := by
  have hP : isPresent (BitVec.ofNat 64 (f * 4096) ||| flags ||| pagePresent) = true := by
    rw [isPresent_or, show isPresent pagePresent = true by decide, Bool.or_true]
  have hH : isHuge (BitVec.ofNat 64 (f * 4096) ||| flags ||| pagePresent) = false := by
    rw [isHuge_or, isHuge_or, isHuge_ofNat_frame, hsmall]
    decide
  constructor
  · rw [PageHere, walk_congr hw]
    exact not_broken_of_last [a, b, c] hleaf hP
  · have hpage : smallPage (walk m r v) = true := by
      rw [hleaf]
      simp [smallPage, hP, hH]
    obtain ⟨e, he, hframe⟩ := smallPage_frame hpage
    rw [hleaf] at he
    obtain rfl := Option.some.inj he
    rw [frameAt_congr hw, frameAt, vmmGetPhys_eq, (hframe v).1]
    exact frameOf_leaf hf hmask

/-- **A mapping seen from every page.** It gives up and shows what was there before, or the one
page shows the new frame. -/
theorem map_page_view {m : Machine} {r f : Nat} {v flags : BitVec 64} (hS : Steady m r)
    (hal : ∀ w, AlignedWalk (walk m r w)) (hf : f < 2 ^ 40) (hmask : flags &&& ptePhysMask = 0#64)
    (hsmall : isHuge flags = false) :
    GaveUp m (vmmMapPage m r v (BitVec.ofNat 64 (f * 4096)) flags) r v ∨
      ShowsNew m (vmmMapPage m r v (BitVec.ofNat 64 (f * 4096)) flags) r v f := by
  have hF := tableFlags_vmm (isUser flags)
  have hstart : Opening m m r v 0 :=
    ⟨.refl hS hal, fun _ _ => ⟨rfl, rfl⟩, fun h => by omega⟩
  unfold vmmMapPage
  have hrule : StageRule r v (vmmTableFlags (isUser flags)) (isUser flags)
      (fun d mS => Opening m mS r v d) (fun mS => GaveUp m mS r v) := opening_stageRule hF
  rcases hrule.openPath hF hstart with
    ⟨m₁, hm₁, hG⟩ | ⟨m₁, pt, hm₁, hO, hpt⟩
  · rw [hm₁]
    exact Or.inl hG
  · rw [hm₁]
    right
    have hR := hO.view.steady.ready 0
    have hwalk : ∀ w, pageNumber w ≠ pageNumber v →
        walk (installPte m₁ pt (ptIdx v) (BitVec.ofNat 64 (f * 4096)) flags) r w = walk m₁ r w :=
      fun w => walk_installPte hR hpt
    -- the walk of the page itself ends in the new leaf entry
    have hleaf : ∃ a b c, walk (installPte m₁ pt (ptIdx v) (BitVec.ofNat 64 (f * 4096)) flags) r v =
        [a, b, c, BitVec.ofNat 64 (f * 4096) ||| flags ||| pagePresent] := by
      have hl := length_trail hpt
      rw [walk, installPte_mem, show vpath v = [pml4Idx v, pdptIdx v, pdIdx v] ++ ptIdx v :: [] from
        rfl, hR.distinct.trail_write_on hpt]
      obtain ⟨a, b, c, htr⟩ := List.length_eq_three.mp hl
      rw [htr]
      exact ⟨a, b, c, by simp [trail]⟩
    obtain ⟨a, b, c, hleaf⟩ := hleaf
    refine ⟨fun w hw => leaf_shows hf hmask hsmall hleaf hw, fun w hw => ?_, fun w hw => ?_,
      fun g hg => ?_, hO.reached rfl⟩
    · rw [hwalk w hw]
      exact hO.view.broken w
    · rw [vmmGetPhys_eq, hwalk w hw, ← vmmGetPhys_eq]
      exact hO.view.phys w
    · obtain ⟨hd, hmem⟩ := hO.view.data g hg
      have hne : g ≠ pt := by
        rintro rfl
        exact hd.2 ⟨_, hpt⟩
      rw [installPte_mem, write_table_of_ne hne, hmem]

end Lestra
