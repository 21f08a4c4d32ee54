import Lestra.Mm.PmmOwnership
import Lestra.Mm.VmmStages

/-!
# Virtual memory manager — mapping and translation

What `vmm_map_page` does to `vmm_get_phys`. The stages that build the path to
the leaf table change no translation at all: user bits are not part of it, an
empty table maps what an absent entry maps, and the pieces of a 2 MB page map
what the page mapped. Only the last store does, for the one page it is about.
-/

namespace Lestra

open Word64 Radix

-- ---------------------------------------------------------------------------
-- Walks before and after a stage
-- ---------------------------------------------------------------------------

theorem length_vpath (v : BitVec 64) : (vpath v).length = 4 := rfl

section Walk

variable {m : Machine} {r k t f n : Nat} {i j : Fin 512} {p q : List (Fin 512)} {v w : BitVec 64}
  {row : Fin 512 → BitVec 64} {e : BitVec 64} {user : Bool}

theorem Ready.walk_mark_off (hR : Ready m r k) (hp : tableAt tableChild m.mem 3 r p = some t)
    (hw : ¬ p ++ [i] <+: vpath w) : walk (m.mark user t i) r w = walk m r w :=
  hR.distinct.trail_write_off hp hw

theorem Ready.walk_mark_on (hR : Ready m r k) (hp : tableAt tableChild m.mem 3 r p = some t)
    (hw : vpath w = p ++ i :: q) :
    walk (m.mark user t i) r w = (walk m r w).set p.length (markUser user (m.mem t i)) := by
  unfold walk
  rw [hw]
  exact hR.distinct.trail_relabel hp (tableChild_markUser _ _ _) q

theorem Ready.walk_attach_off (hR : Ready m r (k + 1)) (hA : Attaches m r t i p f row e n)
    (hw : ¬ p ++ [i] <+: vpath w) : walk (m.attach t i f row e) r w = walk m r w :=
  hR.distinct.trail_attach_off hA.at_path (hA.grant.not_table hR) hw

theorem Ready.walk_attach_on (hR : Ready m r (k + 1)) (hA : Attaches m r t i p f row e n)
    (hw : vpath w = p ++ i :: j :: q) :
    walk (m.attach t i f row e) r w = trail tableChild m.mem 3 r p ++ [e, row j] := by
  unfold walk
  rw [hw]
  exact hR.distinct.trail_attach hA.at_path hA.level hA.old hA.new (hA.grant.not_table hR) hA.row j q

/-- Before the attachment the walk ended at the entry. -/
theorem Attaches.walk (hA : Attaches m r t i p f row e n) (hw : vpath w = p ++ i :: q) :
    walk m r w = trail tableChild m.mem 3 r p ++ [m.mem t i] := by
  unfold Lestra.walk
  rw [hw]
  exact trail_of_child_none hA.at_path hA.level hA.old q

/-- The entry a walk reads at the depth of a table it comes past. -/
theorem walk_getElem? (hp : tableAt tableChild m.mem 3 r p = some t)
    (hw : vpath w = p ++ i :: q) : (walk m r w)[p.length]? = some (m.mem t i) := by
  unfold walk
  rw [hw]
  exact trail_getElem? hp i q

/-- A path that goes on past depth `p.length + 1`. -/
theorem exists_next_index (hlen : p.length ≤ 2) (hw : p ++ [i] <+: vpath w) :
    ∃ j q, vpath w = p ++ i :: j :: q := by
  obtain ⟨q, hq⟩ := hw
  have h4 := congrArg List.length hq
  simp only [List.length_append, List.length_singleton, length_vpath] at h4
  cases q with
  | nil => simp at h4; omega
  | cons j q => exact ⟨j, q, by rw [← hq]; simp⟩

end Walk

-- ---------------------------------------------------------------------------
-- Translations through an entry
-- ---------------------------------------------------------------------------

theorem entryPhys_markUser (level : PtLevel) (user : Bool) (e v : BitVec 64) :
    entryPhys level (markUser user e) v = entryPhys level e v := by
  have hmask : ∀ c : BitVec 64, pageUser &&& c = 0#64 → markUser user e &&& c = e &&& c := by
    intro c hc
    cases user
    · rfl
    · rw [markUser, if_pos rfl, BitVec.and_or_distrib_right, hc, BitVec.or_zero]
  simp only [entryPhys, isPresent_markUser, isHuge_markUser,
    hmask 0x000FFFFFFFFFF000#64 (by decide), hmask ptePhysMask (by decide)]

theorem entryPhys_absent {level : PtLevel} {e v : BitVec 64} (h : isPresent e = false) :
    entryPhys level e v = 0#64 := by
  simp [entryPhys, h]

/-- Marking one entry of a walk keeps its translation. -/
theorem walkPhys_set_mark {es : List (BitVec 64)} {j : Nat} {e : BitVec 64} (h : es[j]? = some e)
    (user : Bool) (v : BitVec 64) : walkPhys (es.set j (markUser user e)) v = walkPhys es v := by
  match es, j, h with
  | [a], 0, _ => rfl
  | [a, b], 0, _ => rfl
  | [a, b], 1, h =>
    obtain rfl : b = e := by simpa using h
    exact entryPhys_markUser _ _ _ _
  | [a, b, c], 0, _ => rfl
  | [a, b, c], 1, _ => rfl
  | [a, b, c], 2, h =>
    obtain rfl : c = e := by simpa using h
    exact entryPhys_markUser _ _ _ _
  | [a, b, c, d], 0, _ => rfl
  | [a, b, c, d], 1, _ => rfl
  | [a, b, c, d], 2, _ => rfl
  | [a, b, c, d], 3, h =>
    obtain rfl : d = e := by simpa using h
    exact entryPhys_markUser _ _ _ _
  | a :: b :: c :: d :: x :: es, 0, _ => rfl
  | a :: b :: c :: d :: x :: es, 1, _ => rfl
  | a :: b :: c :: d :: x :: es, 2, _ => rfl
  | a :: b :: c :: d :: x :: es, 3, _ => rfl
  | a :: b :: c :: d :: x :: es, 4, _ => rfl
  | a :: b :: c :: d :: x :: es, j + 5, _ => rfl

/-- A walk that ends in an absent entry translates nothing. -/
theorem walkPhys_absent {es : List (BitVec 64)} {e : BitVec 64} (h : isPresent e = false)
    (v : BitVec 64) : walkPhys (es ++ [e]) v = 0#64 := by
  match es with
  | [] => rfl
  | [_] => exact entryPhys_absent h
  | [_, _] => exact entryPhys_absent h
  | [_, _, _] => exact entryPhys_absent h
  | _ :: _ :: _ :: _ :: es =>
    cases es <;> rfl

theorem getLsbD_ptIdx (v : BitVec 64) (b : Nat) :
    (BitVec.ofNat 64 (ptIdx v).val).getLsbD b = (decide (b < 9) && v.getLsbD (12 + b)) := by
  have hval : (ptIdx v).val = ((v >>> 12) &&& 0x1FF#64).toNat := by
    unfold ptIdx tableIdx
    rw [Fin.val_ofNat, Nat.mod_eq_of_lt]
    rw [BitVec.toNat_and]
    exact Nat.lt_of_le_of_lt Nat.and_le_right (by decide)
  rw [hval, BitVec.ofNat_toNat, BitVec.setWidth_eq, BitVec.getLsbD_and,
    show (0x1FF#64) = BitVec.ofNat 64 (2 ^ 9 - 1) from rfl, getLsbD_lowMask (by decide),
    BitVec.getLsbD_ushiftRight, Bool.and_comm]

/-- The address of piece `j` of a 2 MB page has no low bits. -/
theorem hugePiece_base (old : BitVec 64) (j : BitVec 64) {b : Nat} (hb : b < 12) :
    ((old &&& ptePhysMask) + j * 0x1000#64).getLsbD b = false := by
  have hbase : old &&& ptePhysMask = ((old &&& ptePhysMask) >>> 12) <<< 12 := by
    apply BitVec.eq_of_getLsbD_eq
    intro b hb
    rw [BitVec.getLsbD_shiftLeft, BitVec.getLsbD_ushiftRight, BitVec.getLsbD_and,
      getLsbD_ptePhysMask]
    rcases Nat.lt_or_ge b 12 with h | h
    · have h' : ¬ (12 ≤ b ∧ b < 52) := by omega
      simp [h, h']
    · rw [show 12 + (b - 12) = b by omega, BitVec.getLsbD_and, getLsbD_ptePhysMask]
      simp [hb, Nat.not_lt.mpr h]
  rw [hbase, show (0x1000#64) = BitVec.twoPow 64 12 by decide, BitVec.mul_twoPow_eq_shiftLeft,
    ← BitVec.shiftLeft_add_distrib, BitVec.getLsbD_shiftLeft]
  simp [hb]

theorem isPresent_hugePiece (old : BitVec 64) (j : Fin 512) :
    isPresent (hugePiece old j) = isPresent old := by
  rw [hugePiece, isPresent_or, isPresent_eq, hugePiece_base _ _ (by decide), Bool.false_or,
    isPresent_eq, isPresent_eq, BitVec.getLsbD_and, BitVec.getLsbD_and, BitVec.getLsbD_and,
    BitVec.getLsbD_not, getLsbD_ptePhysMask]
  simp [pageHuge, pageUser]

theorem isHuge_hugePiece (old : BitVec 64) (j : Fin 512) : isHuge (hugePiece old j) = false := by
  rw [hugePiece, isHuge_or, isHuge_eq, hugePiece_base _ _ (by decide), Bool.false_or, isHuge_eq]
  simp [pageHuge]

theorem isUser_hugePiece (old : BitVec 64) (j : Fin 512) : isUser (hugePiece old j) = false := by
  rw [hugePiece, isUser_or, isUser_eq, hugePiece_base _ _ (by decide), Bool.false_or, isUser_eq]
  simp [pageUser]

/-- The pieces of an aligned 2 MB page translate as the page did. -/
theorem entryPhys_hugePiece {old : BitVec 64} (hhuge : isHuge old = true)
    (hal : isPresent old = true → old &&& 0x1FF000#64 = 0#64) (v : BitVec 64) :
    entryPhys .pt (hugePiece old (ptIdx v)) v = entryPhys .pd old v := by
  unfold entryPhys
  rw [isPresent_hugePiece, isHuge_hugePiece, hhuge]
  cases hP : isPresent old with
  | false => simp
  | true =>
    simp only [if_true, Bool.false_eq_true, if_false, reduceCtorEq]
    have halign := hal hP
    have hzero : ∀ b, 12 ≤ b → b < 21 → old.getLsbD b = false := by
      intro b h1 h2
      have hb := congrArg (fun x => x.getLsbD b) halign
      have hm : (0x1FF000#64).getLsbD b = true := by
        rw [show (0x1FF000#64) = BitVec.ofNat 64 (2 ^ 21 - 1) &&& ~~~BitVec.ofNat 64 (2 ^ 12 - 1) by
          decide, BitVec.getLsbD_and, BitVec.getLsbD_not, getLsbD_lowMask (by decide),
          getLsbD_lowMask (by decide)]
        simp
        omega
      simpa [hm] using hb
    have hadd : (old &&& ptePhysMask) + BitVec.ofNat 64 (ptIdx v).val * 0x1000#64 =
        (old &&& ptePhysMask) ||| (BitVec.ofNat 64 (ptIdx v).val <<< 12) := by
      rw [show (0x1000#64) = BitVec.twoPow 64 12 by decide, BitVec.mul_twoPow_eq_shiftLeft]
      refine BitVec.add_eq_or_of_and_eq_zero _ _ ?_
      apply BitVec.eq_of_getLsbD_eq
      intro b hb
      rw [BitVec.getLsbD_and, BitVec.getLsbD_shiftLeft, getLsbD_ptIdx, BitVec.getLsbD_and,
        BitVec.getLsbD_zero]
      by_cases h : 12 ≤ b ∧ b < 21
      · simp [hzero b h.1 h.2]
      · have h' : b < 12 ∨ ¬ b - 12 < 9 := by omega
        rcases h' with h' | h' <;> simp [h']
    rw [hugePiece, hadd]
    apply BitVec.eq_of_getLsbD_eq
    intro b hb
    simp only [BitVec.getLsbD_or, BitVec.getLsbD_and, BitVec.getLsbD_not, BitVec.getLsbD_shiftLeft,
      getLsbD_ptIdx, getLsbD_ptePhysMask, show (0xFFF#64) = BitVec.ofNat 64 (2 ^ 12 - 1) from rfl,
      show (0x1FFFFF#64) = BitVec.ofNat 64 (2 ^ 21 - 1) from rfl,
      show (0x000FFFFFFFFFF000#64) = ptePhysMask from rfl, getLsbD_lowMask (by decide : 12 ≤ 64),
      getLsbD_lowMask (by decide : 21 ≤ 64)]
    rcases Nat.lt_or_ge b 12 with h12 | h12
    · simp [h12, show ¬ 12 ≤ b by omega, show b < 21 by omega]
    · rw [show 12 + (b - 12) = b by omega]
      rcases Nat.lt_or_ge b 21 with h21 | h21
      · rw [hzero b h12 h21]
        have h52 : b < 52 := by omega
        have h9 : b - 12 < 9 := by omega
        generalize v.getLsbD b = y
        simp [h12, h21, hb, h52, h9, Nat.not_lt.mpr h12]
      · have h9 : ¬ b - 12 < 9 := by omega
        generalize old.getLsbD b = x
        generalize v.getLsbD b = y
        simp only [h12, hb, h9, Nat.not_lt.mpr h12, Nat.not_lt.mpr h21, decide_true, decide_false,
          Bool.and_false, Bool.false_and, Bool.or_false, Bool.true_and, Bool.not_false,
          Bool.and_true]
        by_cases h52 : b < 52 <;> cases x <;> simp [h52]

-- ---------------------------------------------------------------------------
-- The stages keep every translation
-- ---------------------------------------------------------------------------

section Stages

variable {m : Machine} {r k t f n : Nat} {i : Fin 512} {p : List (Fin 512)} {user : Bool}

theorem Ready.getPhys_mark (hR : Ready m r k) (hp : tableAt tableChild m.mem 3 r p = some t)
    (w : BitVec 64) : vmmGetPhys (m.mark user t i) r w = vmmGetPhys m r w := by
  rw [vmmGetPhys_eq, vmmGetPhys_eq]
  by_cases hw : p ++ [i] <+: vpath w
  · obtain ⟨q, hq⟩ := hw
    have hq' : vpath w = p ++ i :: q := by rw [← hq]; simp
    rw [hR.walk_mark_on hp hq', walkPhys_set_mark (walk_getElem? hp hq')]
  · rw [hR.walk_mark_off hp hw]

theorem Ready.getPhys_attachEmpty {e : BitVec 64} (hR : Ready m r (k + 1)) (hlen : p.length ≤ 2)
    (hA : Attaches m r t i p f (fun _ => 0#64) e n) (habs : isPresent (m.mem t i) = false)
    (w : BitVec 64) : vmmGetPhys (m.attach t i f (fun _ => 0#64) e) r w = vmmGetPhys m r w := by
  rw [vmmGetPhys_eq, vmmGetPhys_eq]
  by_cases hw : p ++ [i] <+: vpath w
  · obtain ⟨j, q, hq⟩ := exists_next_index hlen hw
    rw [hR.walk_attach_on hA hq, hA.walk hq, walkPhys_absent habs,
      show ∀ es : List (BitVec 64), es ++ [e, 0#64] = (es ++ [e]) ++ [0#64] by simp,
      walkPhys_absent (by decide)]
  · rw [hR.walk_attach_off hA hw]

/-- A path of length two leaves the PT index last. -/
theorem vpath_last {w : BitVec 64} {i j : Fin 512} {p q : List (Fin 512)} (hlen : p.length = 2)
    (hw : vpath w = p ++ i :: j :: q) : j = ptIdx w := by
  match p, hlen with
  | [a, b], _ =>
    simp only [vpath, List.cons_append, List.nil_append, List.cons.injEq] at hw
    exact hw.2.2.2.1.symm

theorem Ready.getPhys_attachPieces {e : BitVec 64} (hR : Ready m r (k + 1)) (hlen : p.length = 2)
    (hA : Attaches m r t i p f (hugePiece (m.mem t i)) e n) (hhuge : isHuge (m.mem t i) = true)
    (hal : isPresent (m.mem t i) = true → m.mem t i &&& 0x1FF000#64 = 0#64) (w : BitVec 64) :
    vmmGetPhys (m.attach t i f (hugePiece (m.mem t i)) e) r w = vmmGetPhys m r w := by
  rw [vmmGetPhys_eq, vmmGetPhys_eq]
  by_cases hw : p ++ [i] <+: vpath w
  · obtain ⟨j, q, hq⟩ := exists_next_index (by omega) hw
    have hl : (trail tableChild m.mem 3 r p).length = 2 := by rw [length_trail hA.at_path, hlen]
    rw [hR.walk_attach_on hA hq, hA.walk hq, vpath_last hlen hq]
    match trail tableChild m.mem 3 r p, hl with
    | [a, b], _ => exact entryPhys_hugePiece hhuge hal w
  · rw [hR.walk_attach_off hA hw]

end Stages

-- ---------------------------------------------------------------------------
-- A mapping that goes through
-- ---------------------------------------------------------------------------

/-- The number of tables missing on the path of `v`. -/
def tablesMissing (m : Machine) (r : Nat) (v : BitVec 64) : Nat := 4 - (walk m r v).length

/-- The page of `v` can be mapped: the tables lie on distinct frames, the frames
for the missing tables are there and are no tables yet, and the path of `v` has
no 1 GB page and no misaligned 2 MB page. -/
structure Mappable (m : Machine) (r : Nat) (v : BitVec 64) : Prop where
  ready : Ready m r (tablesMissing m r v)
  enough : (nextFrames m.pmm (tablesMissing m r v)).length = tablesMissing m r v
  noGiant : ∀ e, (walk m r v)[1]? = some e → isPresent e = true → isHuge e = false
  aligned : ∀ e, (walk m r v)[2]? = some e → isPresent e = true → isHuge e = true →
    e &&& 0x1FF000#64 = 0#64

/-- What a stage leaves behind: the walk can go on through `t[i]`, and no
translation has changed. -/
structure Opened (m m' : Machine) (r : Nat) (v : BitVec 64) (t : Nat) (i : Fin 512)
    (p : List (Fin 512)) : Prop where
  mappable : Mappable m' r v
  here : tableAt tableChild m'.mem 3 r p = some t
  next : tableAt tableChild m'.mem 3 r (p ++ [i]) = some (frameOf (m'.mem t i))
  phys : ∀ w, vmmGetPhys m' r w = vmmGetPhys m r w

section Open

variable {m : Machine} {r t f n : Nat} {i j : Fin 512} {p q : List (Fin 512)} {v : BitVec 64}
  {row : Fin 512 → BitVec 64} {e : BitVec 64} {user : Bool}

theorem markUser_and (c : BitVec 64) (hc : pageUser &&& c = 0#64) (user : Bool) (e : BitVec 64) :
    markUser user e &&& c = e &&& c := by
  cases user
  · rfl
  · rw [markUser, if_pos rfl, BitVec.and_or_distrib_right, hc, BitVec.or_zero]

theorem Mappable.mark (hM : Mappable m r v) (hp : tableAt tableChild m.mem 3 r p = some t)
    (hpath : vpath v = p ++ i :: q) (user : Bool) : Mappable (m.mark user t i) r v := by
  have hwalk : walk (m.mark user t i) r v = (walk m r v).set p.length (markUser user (m.mem t i)) :=
    hM.ready.walk_mark_on hp hpath
  have hmiss : tablesMissing (m.mark user t i) r v = tablesMissing m r v := by
    rw [tablesMissing, tablesMissing, hwalk, List.length_set]
  -- every entry of the new walk is an old one, marked or not
  have hentry : ∀ (d : Nat) (e' : BitVec 64), (walk (m.mark user t i) r v)[d]? = some e' →
      ∃ e u, (walk m r v)[d]? = some e ∧ e' = markUser u e := by
    intro d e' he'
    rw [hwalk, List.getElem?_set] at he'
    split at he'
    · next hd =>
      refine ⟨m.mem t i, user, hd ▸ walk_getElem? hp hpath, ?_⟩
      split at he'
      · exact (Option.some.inj he').symm
      · simp at he'
    · exact ⟨e', false, he', rfl⟩
  refine ⟨hmiss ▸ hM.ready.mark hp user, hmiss ▸ hM.enough, ?_, ?_⟩
  · intro e' he' hP
    obtain ⟨e, u, he, rfl⟩ := hentry 1 e' he'
    rw [isPresent_markUser] at hP
    rw [isHuge_markUser]
    exact hM.noGiant e he hP
  · intro e' he' hP hH
    obtain ⟨e, u, he, rfl⟩ := hentry 2 e' he'
    rw [isPresent_markUser] at hP
    rw [isHuge_markUser] at hH
    rw [markUser_and _ (by decide)]
    exact hM.aligned e he hP hH

theorem Mappable.attach (hM : Mappable m r v) (hlen : p.length ≤ 2)
    (hpath : vpath v = p ++ i :: j :: q) (hA : Attaches m r t i p f row e n)
    (he : p.length ≠ 0 → isHuge e = false) (hrow : p.length ≤ 1 → row j = 0#64) :
    (∃ k, tablesMissing m r v = k + 1) ∧ Mappable (m.attach t i f row e) r v := by
  have hl : (trail tableChild m.mem 3 r p).length = p.length := length_trail hA.at_path
  have hold : (walk m r v).length = p.length + 1 := by rw [hA.walk hpath]; simp [hl]
  obtain ⟨k, hk⟩ : ∃ k, tablesMissing m r v = k + 1 := ⟨2 - p.length, by rw [tablesMissing]; omega⟩
  have hR : Ready m r (k + 1) := hk ▸ hM.ready
  have hwalk := hR.walk_attach_on hA hpath
  have hmiss : tablesMissing (m.attach t i f row e) r v = k := by
    rw [tablesMissing] at hk ⊢
    rw [hwalk]
    simp only [List.length_append, List.length_cons, List.length_nil, hl]
    omega
  have henough := hM.enough
  rw [hk, nextFrames_grant hA.grant, List.length_cons] at henough
  -- below the depth of the entry the walk is the old one
  have hlow : ∀ d : Nat, d < p.length → (walk (m.attach t i f row e) r v)[d]? = (walk m r v)[d]? := by
    intro d hd
    rw [hwalk, hA.walk hpath, List.getElem?_append_left (by omega),
      List.getElem?_append_left (by omega)]
  have hhigh : ∀ (d : Nat) (e' : BitVec 64), p.length ≤ d → (walk (m.attach t i f row e) r v)[d]? = some e' →
      (d = p.length ∧ e' = e) ∨ (d = p.length + 1 ∧ e' = row j) := by
    intro d e' hd he'
    rw [hwalk, List.getElem?_append_right (by omega), hl] at he'
    match hx : d - p.length, he' with
    | 0, he' => exact Or.inl ⟨by omega, by simpa using he'.symm⟩
    | 1, he' => exact Or.inr ⟨by omega, by simpa using he'.symm⟩
  refine ⟨⟨k, hk⟩, hmiss ▸ hR.attach hA, ?_, ?_, ?_⟩
  · rw [hmiss]
    exact Nat.succ.inj henough
  · intro e' he' hP
    rcases Nat.lt_or_ge 1 p.length with hd | hd
    · rw [hlow 1 hd] at he'
      exact hM.noGiant e' he' hP
    · rcases hhigh 1 e' hd he' with ⟨h1, rfl⟩ | ⟨h1, rfl⟩
      · exact he (by omega)
      · rw [hrow (by omega)]
        decide
  · intro e' he' hP hH
    rcases hhigh 2 e' (by omega) he' with ⟨h1, rfl⟩ | ⟨h1, rfl⟩
    · rw [he (by omega)] at hH
      exact absurd hH (by simp)
    · rw [hrow (by omega)] at hP
      exact absurd hP (by decide)

theorem Mappable.openEntry (hM : Mappable m r v) (hp : tableAt tableChild m.mem 3 r p = some t)
    (hpath : vpath v = p ++ i :: j :: q) (hlen : p.length ≤ 2)
    (hbig : p.length = 0 ∨ (isPresent (m.mem t i) = true → isHuge (m.mem t i) = false))
    {flags : BitVec 64} (hf : TableFlags flags) (user : Bool) :
    ∃ m', openEntry m t i flags user = (m', true) ∧ Opened m m' r v t i p := by
  rcases openEntry_cases hM.ready.covers t i flags user with ⟨hP, hm⟩ | ⟨hP, ⟨f, hg, hm⟩ | ⟨h0, hm⟩⟩
  · refine ⟨_, hm, hM.mark hp hpath user, (hM.ready.tableAt_mark hp user p).trans hp, ?_,
      hM.ready.getPhys_mark hp⟩
    have hlevel : 3 ≤ 3 - p.length ∨ isHuge (m.mem t i) = false := by
      rcases hbig with h | h
      · left; omega
      · exact Or.inr (h hP)
    rw [hM.ready.tableAt_mark hp, tableAt_snoc hp hlen, tableChild_present (by omega) hP hlevel]
    simp [Machine.mark]
  · have hn : 3 - p.length = (2 - p.length) + 1 := by omega
    have hR : Ready m r (2 - p.length + 1) := by
      have hold : (walk m r v).length = p.length + 1 := by
        rw [walk, hpath, trail_of_child_none hp hn (tableChild_absent hP), List.length_append,
          length_trail hp]
        rfl
      have hmiss : tablesMissing m r v = 2 - p.length + 1 := by rw [tablesMissing]; omega
      exact hmiss ▸ hM.ready
    have hA := attaches_empty hR hp hn hg hP hf.mask hf.present hf.huge user
    have hhuge : isHuge (markUser user (BitVec.ofNat 64 (f * 4096) ||| flags)) = false := by
      rw [isHuge_markUser, isHuge_or, isHuge_ofNat_frame, hf.huge]
      rfl
    have hM' := (hM.attach hlen hpath hA (fun _ => hhuge) (fun _ => rfl)).2
    exact ⟨_, hm, hM', hA.here_eq hR, hA.next_eq hR, hR.getPhys_attachEmpty hlen hA hP⟩
  · -- the PMM has a frame for every missing table
    have hold : (walk m r v).length = p.length + 1 := by
      rw [walk, hpath, trail_of_child_none hp (k := 2 - p.length) (by omega) (tableChild_absent hP),
        List.length_append, length_trail hp]
      rfl
    have henough := hM.enough
    rw [nextFrames_fail h0, tablesMissing, List.length_nil] at henough
    omega

theorem Mappable.openPdEntry (hM : Mappable m r v) (hp : tableAt tableChild m.mem 3 r p = some t)
    (hpath : vpath v = p ++ i :: j :: q) (hlen : p.length = 2)
    {flags : BitVec 64} (hf : TableFlags flags) (user : Bool) :
    ∃ m', openPdEntry m t i flags user = (m', true) ∧ Opened m m' r v t i p := by
  rcases openPdEntry_cases hM.ready.covers t i flags user with
    ⟨hH, hm⟩ | ⟨hH, ⟨f, hg, hm⟩ | ⟨h0, hm⟩⟩
  · rw [hm]
    exact hM.openEntry hp hpath (by omega) (Or.inr fun _ => hH) hf user
  · have hold : (walk m r v).length = 3 := by
      rw [walk, hpath, trail_of_child_none hp (k := 0) (by omega) (by simp [tableChild, hH]),
        List.length_append, length_trail hp, hlen]
      rfl
    have hR : Ready m r (0 + 1) := by
      have hmiss : tablesMissing m r v = 0 + 1 := by rw [tablesMissing]; omega
      exact hmiss ▸ hM.ready
    have hA := attaches_pieces hR hp hlen hg hH user
    have hal := hM.aligned (m.mem t i) (hlen ▸ walk_getElem? hp hpath)
    have hhuge := (tableChild_eq_some hA.new).2.1 (by decide)
    have hM' := (hM.attach (by omega) hpath hA (fun _ => hhuge) (fun h => by omega)).2
    exact ⟨_, hm, hM', hA.here_eq hR, hA.next_eq hR,
      hR.getPhys_attachPieces hlen hA hH fun hP => hal hP hH⟩
  · have hold : (walk m r v).length = 3 := by
      rw [walk, hpath, trail_of_child_none hp (k := 0) (by omega) (by simp [tableChild, hH]),
        List.length_append, length_trail hp, hlen]
      rfl
    have henough := hM.enough
    rw [nextFrames_fail h0, tablesMissing, List.length_nil] at henough
    omega

end Open

-- ---------------------------------------------------------------------------
-- The leaf
-- ---------------------------------------------------------------------------

/-- The 36-bit page number of an address. -/
def pageNumber (v : BitVec 64) : Nat := v.toNat / 2 ^ 12 % 2 ^ 36

theorem val_tableIdx (v : BitVec 64) (s : Nat) : (tableIdx v s).val = v.toNat / 2 ^ s % 512 := by
  unfold tableIdx
  rw [Fin.val_ofNat, BitVec.toNat_and, BitVec.toNat_ushiftRight, Nat.shiftRight_eq_div_pow,
    show (0x1FF#64).toNat = 2 ^ 9 - 1 from rfl, Nat.and_two_pow_sub_one_eq_mod]
  exact Nat.mod_mod_of_dvd _ (by decide)

theorem vpath_eq_iff (v w : BitVec 64) : vpath w = vpath v ↔ pageNumber w = pageNumber v := by
  simp only [vpath, List.cons.injEq, and_true, pml4Idx, pdptIdx, pdIdx, ptIdx, Fin.ext_iff,
    val_tableIdx, pageNumber]
  omega

@[simp] theorem installPte_mem (m : Machine) (pt : Nat) (i : Fin 512) (paddr flags : BitVec 64) :
    (installPte m pt i paddr flags).mem =
      write m.mem pt i (paddr ||| flags ||| pagePresent) := by
  unfold installPte
  dsimp only
  split <;> rfl

/-- A leaf entry with an aligned address translates to it plus the page offset. -/
theorem entryPhys_leaf {paddr flags : BitVec 64} (hpa : paddr &&& ptePhysMask = paddr)
    (hfl : flags &&& ptePhysMask = 0#64) (hfh : isHuge flags = false) (w : BitVec 64) :
    entryPhys .pt (paddr ||| flags ||| pagePresent) w = paddr + (w &&& 0xFFF#64) := by
  have hbits : ∀ b, paddr.getLsbD b = true → 12 ≤ b := by
    intro b hb
    rw [← hpa, BitVec.getLsbD_and, getLsbD_ptePhysMask, Bool.and_eq_true, decide_eq_true_eq] at hb
    exact hb.2.1
  have hP : isPresent (paddr ||| flags ||| pagePresent) = true := by
    rw [isPresent_or, show isPresent pagePresent = true by decide, Bool.or_true]
  have hH : isHuge (paddr ||| flags ||| pagePresent) = false := by
    have h7 : paddr.getLsbD 7 = false := by
      cases h : paddr.getLsbD 7 with
      | false => rfl
      | true => exact absurd (hbits 7 h) (by decide)
    rw [isHuge_or, isHuge_or, hfh, isHuge_eq, h7]
    decide
  have hmask : (paddr ||| flags ||| pagePresent) &&& ptePhysMask = paddr := by
    rw [BitVec.and_or_distrib_right, BitVec.and_or_distrib_right, hpa, hfl,
      show pagePresent &&& ptePhysMask = 0#64 by decide, BitVec.or_zero, BitVec.or_zero]
  have hdisj : paddr &&& (w &&& 0xFFF#64) = 0#64 := by
    apply BitVec.eq_of_getLsbD_eq
    intro b _
    rw [BitVec.getLsbD_and, BitVec.getLsbD_and,
      show (0xFFF#64) = BitVec.ofNat 64 (2 ^ 12 - 1) from rfl, getLsbD_lowMask (by decide),
      BitVec.getLsbD_zero]
    cases h : paddr.getLsbD b with
    | false => rfl
    | true => simp [Nat.not_lt.mpr (hbits b h)]
  unfold entryPhys
  rw [if_pos hP, hH, if_neg (by simp), hmask, BitVec.add_eq_or_of_and_eq_zero _ _ hdisj]

/-- What the last store does to every translation. -/
theorem getPhys_installPte {m : Machine} {r k pt : Nat} {v : BitVec 64} (hR : Ready m r k)
    (hp : tableAt tableChild m.mem 3 r [pml4Idx v, pdptIdx v, pdIdx v] = some pt)
    {paddr flags : BitVec 64} (w : BitVec 64) :
    vmmGetPhys (installPte m pt (ptIdx v) paddr flags) r w =
      if pageNumber w = pageNumber v then entryPhys .pt (paddr ||| flags ||| pagePresent) w
      else vmmGetPhys m r w := by
  rw [vmmGetPhys_eq, vmmGetPhys_eq, walk, walk, installPte_mem]
  split
  · next hpn =>
    have hl := length_trail hp
    rw [(vpath_eq_iff v w).mpr hpn, show vpath v = [pml4Idx v, pdptIdx v, pdIdx v] ++ [ptIdx v] from
      rfl, hR.distinct.trail_write_on hp]
    obtain ⟨a, b, c, htr⟩ := List.length_eq_three.mp hl
    rw [htr]
    simp [trail, walkPhys]
  · next hpn =>
    rw [hR.distinct.trail_write_off hp]
    intro hpre
    have heq : vpath v = vpath w := hpre.eq_of_length rfl
    exact hpn ((vpath_eq_iff v w).mp heq.symm)

theorem tableFlags_vmm (user : Bool) : TableFlags (vmmTableFlags user) := by
  cases user <;> exact ⟨by decide, by decide, by decide⟩

/-- The way to the leaf table of a mappable page is opened without a change to
any translation. -/
theorem Mappable.openPath {m : Machine} {r : Nat} {v : BitVec 64} (hM : Mappable m r v)
    {fl : BitVec 64} (hF : TableFlags fl) (user : Bool) :
    ∃ m' pt, openPath m r v fl user = (m', some pt) ∧ Mappable m' r v ∧
      tableAt tableChild m'.mem 3 r [pml4Idx v, pdptIdx v, pdIdx v] = some pt ∧
      ∀ w, vmmGetPhys m' r w = vmmGetPhys m r w := by
  obtain ⟨m1, hm1, h1⟩ := hM.openEntry (p := []) tableAt_nil rfl (by decide) (Or.inl rfl) hF user
  have hnext1 := h1.next
  obtain ⟨pdpt, hpdpt⟩ : ∃ x, frameOf (m1.mem r (pml4Idx v)) = x := ⟨_, rfl⟩
  rw [hpdpt] at hnext1
  obtain ⟨m2, hm2, h2⟩ := h1.mappable.openEntry (p := [pml4Idx v]) hnext1 rfl (by simp)
    (Or.inr (h1.mappable.noGiant _ (walk_getElem? (p := [pml4Idx v]) hnext1 rfl))) hF user
  have hnext2 := h2.next
  obtain ⟨pd, hpd⟩ : ∃ x, frameOf (m2.mem pdpt (pdptIdx v)) = x := ⟨_, rfl⟩
  rw [hpd] at hnext2
  obtain ⟨m3, hm3, h3⟩ := h2.mappable.openPdEntry (p := [pml4Idx v, pdptIdx v]) hnext2 rfl rfl hF
    user
  -- the walk goes on below the PDPT entry, so it is no 1 GB page
  have hsmall : isHuge (m2.mem pdpt (pdptIdx v)) = false := by
    have hnext := h2.next
    rw [tableAt_snoc h2.here (by simp)] at hnext
    exact (tableChild_eq_some hnext).2.1 (by simp)
  refine ⟨m3, frameOf (m3.mem pd (pdIdx v)), ?_, h3.mappable, h3.next, fun w => ?_⟩
  · simp only [Lestra.openPath, hm1, hpdpt, hm2, hsmall, hpd, hm3, Bool.not_true,
      Bool.false_eq_true, if_false]
  · rw [h3.phys, h2.phys, h1.phys]

/--
**Map and translate.** On every page table whose tables lie on distinct frames,
with no 1 GB page and no misaligned 2 MB page on the path of `v`, when the PMM
has a frame that is no table of it for every table the path is missing,
`vmm_map_page` makes `vmm_get_phys` return `paddr` plus the page offset for every
address of the page of `v` and leaves it unchanged for every address with
another page number.
-/
theorem vmm_map_page_translates (m : Machine) (pml4 : Nat) (v paddr flags : BitVec 64)
    (hM : Mappable m pml4 v) (hpa : paddr &&& ptePhysMask = paddr)
    (hfl : flags &&& ptePhysMask = 0#64) (hfh : isHuge flags = false) :
    let m' := vmmMapPage m pml4 v paddr flags
    (∀ w, pageNumber w = pageNumber v → vmmGetPhys m' pml4 w = paddr + (w &&& 0xFFF#64)) ∧
      ∀ w, pageNumber w ≠ pageNumber v → vmmGetPhys m' pml4 w = vmmGetPhys m pml4 w := by
  intro m'
  obtain ⟨m3, pt, hm3, hM3, hpt, hphys⟩ := hM.openPath (tableFlags_vmm (isUser flags)) (isUser flags)
  have hm' : m' = installPte m3 pt (ptIdx v) paddr flags := by
    simp only [m', vmmMapPage, hm3]
  rw [hm']
  refine ⟨fun w hw => ?_, fun w hw => ?_⟩
  · rw [getPhys_installPte hM3.ready hpt, if_pos hw, entryPhys_leaf hpa hfl hfh]
  · rw [getPhys_installPte hM3.ready hpt, if_neg hw, hphys]

-- ---------------------------------------------------------------------------
-- A small address space
-- ---------------------------------------------------------------------------

/-- Memory with an empty table at frame `u` that `t[i]` points to. -/
def hangTable (mem : Nat → Fin 512 → BitVec 64) (t : Nat) (i : Fin 512) (u : Nat)
    (flags : BitVec 64) : Nat → Fin 512 → BitVec 64 :=
  write (Function.update mem u fun _ => 0#64) t i (BitVec.ofNat 64 (u * 4096) ||| flags)

theorem hangTable_tree {mem : Nat → Fin 512 → BitVec 64} {r t u : Nat} {i : Fin 512}
    {p : List (Fin 512)} {flags : BitVec 64} (hD : Distinct tableChild mem 3 r)
    (hp : tableAt tableChild mem 3 r p = some t) (hlen : p.length ≤ 2)
    (habs : isPresent (mem t i) = false) (hu : ¬ InTree tableChild mem 3 r u) (hlt : u < 2 ^ 40)
    (hf : TableFlags flags) :
    Distinct tableChild (hangTable mem t i u flags) 3 r ∧
      (∀ v, InTree tableChild (hangTable mem t i u flags) 3 r v ↔ InTree tableChild mem 3 r v ∨ v = u) ∧
      tableAt tableChild (hangTable mem t i u flags) 3 r (p ++ [i]) = some u := by
  have hn : 3 - p.length = 2 - p.length + 1 := by omega
  have hold : tableChild (2 - p.length + 1) (mem t i) = none := tableChild_absent habs
  have hnew : tableChild (2 - p.length + 1) (BitVec.ofNat 64 (u * 4096) ||| flags) = some u := by
    rw [tableChild_present (by omega), frameOf_ofNat_or hlt hf.mask]
    · rw [isPresent_or, hf.present, Bool.or_true]
    · right
      rw [isHuge_or, hf.huge, isHuge_ofNat_frame]
      rfl
  have hrow : ∀ j : Fin 512, tableChild (2 - p.length) ((fun _ => 0#64 : Fin 512 → BitVec 64) j) =
      none := fun _ => tableChild_absent (by simp [isPresent])
  refine ⟨hD.attach hp hn hold hnew hu hrow, hD.inTree_attach hp hn hold hnew hu hrow, ?_⟩
  rw [hangTable, hD.tableAt_attach hp hn hold hnew hu hrow, if_pos rfl]

def blankMem : Nat → Fin 512 → BitVec 64 := fun _ _ => 0#64

theorem blankMem_absent (r : Nat) (i : Fin 512) : isPresent (blankMem r i) = false := by
  simp [blankMem, isPresent]

/-- A PML4 at frame 20, a PDPT at frame 21 and an empty PD at frame 22. -/
def lowTables : Nat → Fin 512 → BitVec 64 := hangTable (hangTable blankMem 20 0 21 3#64) 21 0 22 3#64

theorem lowTables_tree : Distinct tableChild lowTables 3 20 ∧
    (∀ u, InTree tableChild lowTables 3 20 u ↔ (u = 20 ∨ u = 21) ∨ u = 22) ∧
    tableAt tableChild lowTables 3 20 [0, 0] = some 22 := by
  have hF : TableFlags 3#64 := ⟨by decide, by decide, by decide⟩
  have hT0 : ∀ u, InTree tableChild blankMem 3 20 u ↔ u = 20 := fun u =>
    inTree_of_absent (blankMem_absent 20)
  obtain ⟨hD1, hT1, hp1⟩ := hangTable_tree (u := 21) (i := 0)
    (distinct_of_absent (blankMem_absent 20)) (tableAt_nil) (by decide) (blankMem_absent 20 0)
    (by rw [hT0]; decide) (by decide) hF
  obtain ⟨hD2, hT2, hp2⟩ := hangTable_tree (u := 22) (i := 0) hD1 hp1 (by decide)
    (by decide) (by rw [hT1, hT0]; decide) (by decide) hF
  refine ⟨hD2, fun u => ?_, hp2⟩
  rw [lowTables, hT2, hT1, hT0]

/-- The low 2 MB mapped with one supervisor page, beside a PMM with the frames
1 to 15. -/
def lowMachine : Machine where
  pmm := pmmInit smallLayout [⟨0, 0x10000, 1⟩]
  mem := write lowTables 22 0 0x83#64

theorem lowMachine_ready : Ready lowMachine 20 3 := by
  obtain ⟨hD, hT, hp⟩ := lowTables_tree
  have hch : tableChild (3 - [(0 : Fin 512), 0].length) 0x83#64 =
      tableChild (3 - [(0 : Fin 512), 0].length) (lowTables 22 0) := by decide
  refine ⟨pmmGeometry_covers (by decide), by decide, hD.relabel hp hch, ?_⟩
  rintro f hf ⟨q, hq⟩
  have hnext : nextFrames lowMachine.pmm 3 = [1, 2, 3] := by decide
  have hq' : tableAt tableChild lowTables 3 20 q = some f := by
    rw [← hD.tableAt_relabel hp hch q]
    exact hq
  rw [hnext] at hf
  have hf' : f = 1 ∨ f = 2 ∨ f = 3 := by simpa using hf
  have := (hT f).mp ⟨q, hq'⟩
  omega

theorem lowMachine_mappable : Mappable lowMachine 20 0x1000#64 := by
  have hwalk : walk lowMachine 20 0x1000#64 = [0x15003#64, 0x16003#64, 0x83#64] := by decide
  have hnext : nextFrames lowMachine.pmm 1 = [1] := by decide
  have hmiss : tablesMissing lowMachine 20 0x1000#64 = 1 := by rw [tablesMissing, hwalk]; rfl
  refine ⟨?_, ?_, ?_, ?_⟩
  · rw [hmiss]
    exact lowMachine_ready.mono (by decide)
  · rw [hmiss, hnext]
    rfl
  · intro e he
    rw [hwalk] at he
    obtain rfl : 0x16003#64 = e := by simpa using he
    decide
  · intro e he
    rw [hwalk] at he
    obtain rfl : 0x83#64 = e := by simpa using he
    decide

theorem vmm_map_page_translates_split :
    let m' := vmmMapPage lowMachine 20 0x1000#64 0x5000#64 0x7#64
    (∀ w, pageNumber w = pageNumber 0x1000#64 → vmmGetPhys m' 20 w = 0x5000#64 + (w &&& 0xFFF#64)) ∧
      ∀ w, pageNumber w ≠ pageNumber 0x1000#64 → vmmGetPhys m' 20 w = vmmGetPhys lowMachine 20 w :=
  vmm_map_page_translates lowMachine 20 0x1000#64 0x5000#64 0x7#64 lowMachine_mappable
    (by decide) (by decide) (by decide)

end Lestra
