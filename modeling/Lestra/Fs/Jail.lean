import Lestra.Fs.JailPath
import Lestra.Fs.MemfsTree

/-!
# Confinement to a set of nodes

`Confines S r files root`: a process with this root reaches only nodes of `S`, the part of
memfs below `r`. `Within S` says that an edit keeps to `S`, and `Confines.step` that such an
edit leaves the process confined.
-/

namespace Lestra

variable {S S' : Fin maxFiles → Prop} {r : Option (Fin maxFiles)}
  {files files' files'' : MemFiles} {root path : Path} {i p dir child : Fin maxFiles}

structure Confines (S : Fin maxFiles → Prop) (r : Option (Fin maxFiles)) (files : MemFiles)
    (root : Path) : Prop where
  closed : ∀ p, S p → ∀ i : Fin maxFiles, ((i : Nat) : Int) ∈ (files p).children → S i
  parents : ∀ i, S i → r ≠ some i → ∀ p, parentOf files i = some p → S p
  outside : ∀ j, ¬ S j → isLive files j → ∀ i : Fin maxFiles,
    ((i : Nat) : Int) ∈ (files j).children → isLive files i ∧ (S i → r = some i)
  top : ∀ i, r = some i → S i ∧ isLive files i
  root_live : isLive files rootIdx
  root_inside : S rootIdx → r = some rootIdx
  depth : jailedRoot root → (rootComps root).length ≤ rootDepth root
  leads : ∀ i, (rootComps root).foldlM (resolveComp files) rootIdx = some i → S i

-- ---------------------------------------------------------------------------
-- Resolution stays inside
-- ---------------------------------------------------------------------------

theorem resolveComp_plain {cur : Fin maxFiles} {comp : List UInt8} (h : PlainComp comp) :
    resolveComp files cur comp = memfsFindChild files cur comp := by
  rw [resolveComp, if_neg h.not_dot, if_neg h.not_dotdot]

/-- From inside, plain components lead to the inside. -/
theorem walk_inside (hclosed : ∀ p, S p → ∀ i : Fin maxFiles,
      ((i : Nat) : Int) ∈ (files p).children → S i) :
    ∀ (comps : List (List UInt8)) (cur : Fin maxFiles), (∀ c ∈ comps, PlainComp c) → S cur →
      ∀ i, comps.foldlM (resolveComp files) cur = some i → S i
  | [], cur, _, hcur, i, h => Option.some.inj h ▸ hcur
  | c :: comps, cur, hplain, hcur, i, h => by
    obtain ⟨next, hnext, hrest⟩ := Option.bind_eq_some_iff.mp h
    rw [resolveComp_plain (hplain c List.mem_cons_self)] at hnext
    exact walk_inside hclosed comps next (fun x hx => hplain x (List.mem_cons_of_mem _ hx))
      (hclosed cur hcur next (memfsFindChild_some hnext).1) i hrest

theorem foldlM_append_some {α β : Type} {f : β → α → Option β} {l l' : List α} {b c : β}
    (h : (l ++ l').foldlM f b = some c) :
    ∃ d, l.foldlM f b = some d ∧ l'.foldlM f d = some c := by
  rw [List.foldlM_append] at h
  exact Option.bind_eq_some_iff.mp h

/-- A process with the root of memfs is confined where `S` holds all it can name. -/
theorem Confines.unjailed (h : Confines S r files root) (hroot : ¬ jailedRoot root) :
    S rootIdx ∧ r = some rootIdx := by
  have hcomps : rootComps root = [] := by
    unfold jailedRoot at hroot
    rcases Decidable.not_and_iff_or_not.mp hroot with h | h
    · rw [not_not.mp h]
      rfl
    · rw [not_not.mp h]
      decide
  have hin : S rootIdx := h.leads rootIdx (by rw [hcomps]; rfl)
  exact ⟨hin, h.root_inside hin⟩

/-- **Every path leads to the inside.** -/
theorem Confines.resolve (h : Confines S r files root)
    (hres : memfsResolvePath files root path = some i) : S i := by
  by_cases hjail : jailedRoot root
  · obtain ⟨rest, hplain, hwalk⟩ := memfsResolvePath_jailed hjail (h.depth hjail) hres
    obtain ⟨j, hbase, hrest⟩ := foldlM_append_some hwalk
    exact walk_inside h.closed rest j hplain (h.leads j hbase) i hrest
  · obtain ⟨hroot, hr⟩ := h.unjailed hjail
    obtain ⟨comps, hwalk⟩ := memfsResolvePath_walk hres
    refine resolve_inv (P := S) ?_ comps rootIdx hroot hwalk
    intro cur comp next hcur hnext
    unfold resolveComp at hnext
    split at hnext
    · exact Option.some.inj hnext ▸ hcur
    · split at hnext
      · split at hnext <;> obtain rfl := Option.some.inj hnext
        · rename_i hne
          unfold memfsParent
          split
          · rename_i par hpar
            split
            · refine h.parents cur hcur ?_ par hpar
              rw [hr]
              exact fun he => hne (Option.some.inj he).symm
            · exact hcur
          · exact hcur
        · exact hcur
      · exact h.closed cur hcur next (memfsFindChild_some hnext).1

/-- The parent of a path is inside, unless the process is in a chroot and the parent is
`/`. -/
theorem Confines.split (h : Confines S r files root) {parent : Fin maxFiles}
    {name : List UInt8} (hsplit : memfsSplitPath files root path = some (parent, name))
    (hslash : jailedRoot root → parentPath path ≠ [slash]) : S parent := by
  rcases memfsSplitPath_parent hsplit with ⟨hpar, rfl⟩ | ⟨-, hres⟩
  · exact (h.unjailed fun hjail => hslash hjail hpar).1
  · exact h.resolve hres

-- ---------------------------------------------------------------------------
-- Edits inside a set
-- ---------------------------------------------------------------------------

/-- The edit changes only nodes of `S`, and links them only among themselves. -/
structure Within (S : Fin maxFiles → Prop) (files files' : MemFiles) : Prop where
  frame : ∀ i, ¬ S i → files' i = files i
  children : ∀ p, S p → ∀ i : Fin maxFiles, ((i : Nat) : Int) ∈ (files' p).children →
    ((i : Nat) : Int) ∈ (files p).children ∨ S i
  parents : ∀ i, S i → (files' i).parentIdx = (files i).parentIdx ∨
    ∃ p, S p ∧ parentOf files' i = some p

theorem Within.refl (files : MemFiles) : Within S files files :=
  ⟨fun _ _ => rfl, fun _ _ _ h => .inl h, fun _ _ => .inl rfl⟩

theorem Within.trans (h : Within S files files') (h' : Within S files' files'') :
    Within S files files'' where
  frame i hi := (h'.frame i hi).trans (h.frame i hi)
  children p hp i hi := (h'.children p hp i hi).elim (h.children p hp i) .inr
  parents i hi := by
    rcases h'.parents i hi with heq | hp
    · rcases h.parents i hi with heq' | ⟨p, hp, hpar⟩
      · exact .inl (heq.trans heq')
      · exact .inr ⟨p, hp, by rwa [parentOf, heq]⟩
    · exact .inr hp

/-- The parent of a node of `S`, if it has one, is in `S`. -/
theorem Within.parent_inside (h : Within S files files')
    (hpar : ∀ p, parentOf files i = some p → S p) (hi : S i) :
    ∀ p, parentOf files' i = some p → S p := by
  intro p hp
  rcases h.parents i hi with heq | ⟨q, hq, hpar'⟩
  · rw [parentOf, heq] at hp
    exact hpar p hp
  · rw [hpar'] at hp
    exact Option.some.inj hp ▸ hq

theorem within_setNode {f : MemFile → MemFile} (hi : S i)
    (hchildren : ∀ j : Fin maxFiles, ((j : Nat) : Int) ∈ (f (files i)).children →
      ((j : Nat) : Int) ∈ (files i).children ∨ S j)
    (hparent : (f (files i)).parentIdx = (files i).parentIdx ∨
      ∃ p, S p ∧ fileIdx (f (files i)).parentIdx = some p) :
    Within S files (setNode files i f) where
  frame j hj := setNode_ne files f fun he => hj (he ▸ hi)
  children p _ j hj := by
    by_cases hp : p = i
    · rw [hp] at hj ⊢
      rw [setNode_same] at hj
      exact hchildren j hj
    · rw [setNode_ne files f hp] at hj
      exact .inl hj
  parents j _ := by
    by_cases hj : j = i
    · rw [hj, parentOf, setNode_same]
      exact hparent
    · rw [setNode_ne files f hj]
      exact .inl rfl

/-- An update of fields that the tree does not depend on. -/
theorem within_setNode_field {f : MemFile → MemFile} (hi : S i)
    (hchildren : (f (files i)).children = (files i).children)
    (hparent : (f (files i)).parentIdx = (files i).parentIdx) :
    Within S files (setNode files i f) :=
  within_setNode hi (fun _ hj => .inl (hchildren ▸ hj)) (.inl hparent)

theorem within_addChild (hdir : S dir) (hchild : S child) :
    Within S files ((memfsAddChild files dir child).getD files) := by
  unfold memfsAddChild
  split_ifs
  · exact .refl files
  · exact .refl files
  · exact .refl files
  · rw [Option.getD_some]
    refine within_setNode hdir (fun j hj => ?_) (.inl rfl)
    rcases List.mem_append.mp hj with h | h
    · exact .inl h
    · have heq : j = child := Fin.ext (by exact_mod_cast List.mem_singleton.mp h)
      exact .inr (heq ▸ hchild)

theorem within_addChild_some (hdir : S dir) (hchild : S child)
    (h : memfsAddChild files dir child = some files') : Within S files files' := by
  have hwithin : Within S files ((memfsAddChild files dir child).getD files) :=
    within_addChild hdir hchild
  rwa [h] at hwithin

theorem within_detach (hpar : ∀ p, parentOf files i = some p → S p) :
    Within S files (detach files i) := by
  unfold detach memfsRemoveChild
  unfold parentOf at hpar
  split
  · rename_i p hp
    split
    · exact .refl files
    · exact within_setNode (hpar p hp) (fun _ hj => .inl (List.mem_of_mem_erase hj)) (.inl rfl)
  · exact .refl files

theorem within_reattach {x : Int} (hpar : ∀ p, fileIdx x = some p → S p) (hchild : S child) :
    Within S files (reattach files x child) := by
  unfold reattach
  split
  · rename_i p hp
    exact within_addChild (hpar p hp) hchild
  · exact .refl files

theorem within_removeNode {m : Memfs} (hi : S i)
    (hpar : ∀ p, parentOf m.files i = some p → S p) :
    Within S m.files (removeNode m i).files := by
  refine (within_detach hpar).trans ?_
  simp only [removeNode]
  exact within_setNode hi (fun _ hj => absurd hj (List.not_mem_nil)) (.inl rfl)

theorem within_clearTarget {m : Memfs} {new : Option (Fin maxFiles)}
    (hnew : ∀ n, new = some n → S n ∧ ∀ p, parentOf m.files n = some p → S p) :
    Within S m.files (clearTarget m new).files := by
  cases new with
  | none => exact .refl _
  | some n => exact within_removeNode (hnew n rfl).1 (hnew n rfl).2

/-- A move among nodes of `S`, or its roll-back, keeps to `S`. -/
theorem within_moveNode {m m₁ : Memfs} {old parent : Fin maxFiles}
    {new : Option (Fin maxFiles)} {name : List UInt8} (hm : Within S m.files m₁.files)
    (hold : S old) (hparent : S parent)
    (holdpar : ∀ p, parentOf m.files old = some p → S p)
    (hclosed : ∀ p, S p → ∀ i : Fin maxFiles, ((i : Nat) : Int) ∈ (m.files p).children → S i)
    (hnew : ∀ n, new = some n → S n ∧ ∀ p, parentOf m.files n = some p → S p) :
    Within S m.files (moveNode m m₁ old new parent name).1.files := by
  have hpar₁ := hm.parent_inside holdpar hold
  have hdetach : Within S m.files (detach m₁.files old) := hm.trans (within_detach hpar₁)
  have hset : Within S m.files (setNode (detach m₁.files old) old
      fun f => { f with name, parentIdx := parent }) :=
    hdetach.trans (within_setNode hold (fun _ hj => .inl hj)
      (.inr ⟨parent, hparent, fileIdx_natCast parent⟩))
  unfold moveNode
  dsimp only
  split
  · rename_i files hadd
    exact hset.trans (within_addChild_some hparent hold hadd)
  · -- the roll-back puts back a parent that is inside
    have hback : Within S m.files (reattach (setNode (setNode (detach m₁.files old) old
        fun f => { f with name, parentIdx := parent }) old fun f => { f with
          name := (m₁.files old).name, parentIdx := (m₁.files old).parentIdx })
        (m₁.files old).parentIdx old) := by
      refine Within.trans ?_ (within_reattach hpar₁ hold)
      refine ⟨fun j hj => ?_, fun p hp j hj => ?_, fun j hj => ?_⟩
      · rw [setNode_ne _ _ (show j ≠ old from fun he => hj (he ▸ hold))]
        exact hset.frame j hj
      · rw [setNode_field (fun f => f.children) _ _ _ rfl] at hj
        exact hset.children p hp j hj
      · by_cases hjo : j = old
        · rw [hjo, parentOf, setNode_same]
          exact hm.parents old hold
        · rw [parentOf, setNode_ne _ _ hjo]
          exact hset.parents j hj
    split
    · exact hback
    · rename_i n
      obtain ⟨hn, hnpar⟩ := hnew n rfl
      refine Within.trans ?_
        (within_reattach hnpar hn)
      refine ⟨fun j hj => ?_, fun p hp j hj => ?_, fun j hj => ?_⟩
      · rw [setNode_ne _ _ (show j ≠ n from fun he => hj (he ▸ hn))]
        exact hback.frame j hj
      · by_cases hpn : p = n
        · rw [hpn, setNode_same] at hj
          exact .inr (hclosed n hn j hj)
        · rw [setNode_ne _ _ hpn] at hj
          exact hback.children p hp j hj
      · by_cases hjn : j = n
        · rw [hjn, setNode_same]
          exact .inl rfl
        · rw [parentOf, setNode_ne _ _ hjn]
          exact hback.parents j hj

-- ---------------------------------------------------------------------------
-- Confinement is kept
-- ---------------------------------------------------------------------------

/-- What an edit does to the set: old nodes stay, and a node that joins was free and hangs
below an old one. -/
structure Joins (S S' : Fin maxFiles → Prop) (files files' : MemFiles) : Prop where
  sub : ∀ i, S i → S' i
  fresh : ∀ i, S' i → ¬ S i → ¬ isLive files i ∧ (files' i).children = [] ∧
    ∃ p, S p ∧ parentOf files' i = some p

theorem Joins.refl (files files' : MemFiles) : Joins S S files files' :=
  ⟨fun _ h => h, fun _ h hn => absurd h hn⟩

/-- The node `r` keeps its name and its existence. -/
def KeepsTop (r : Option (Fin maxFiles)) (files files' : MemFiles) : Prop :=
  ∀ i, r = some i → (files' i).name = (files i).name ∧ (files' i).live = (files i).live

section
variable (h : Confines S r files root) (hw : Within S' files files')
  (hg : Joins S S' files files')
include h hw hg

theorem Confines.closed' : ∀ p, S' p → ∀ i : Fin maxFiles,
    ((i : Nat) : Int) ∈ (files' p).children → S' i := by
  intro p hp i hi
  by_cases hS : S p
  · exact (hw.children p hp i hi).elim (fun hi => hg.sub i (h.closed p hS i hi)) id
  · rw [(hg.fresh p hp hS).2.1] at hi
    exact absurd hi (List.not_mem_nil)

variable (htop : KeepsTop r files files')
include htop

/-- A node that an outside directory lists keeps its name and its existence. -/
theorem Confines.listed_same {j : Fin maxFiles} (hj : ¬ S j) (hlive : isLive files j)
    (hmem : ((i : Nat) : Int) ∈ (files j).children) :
    (files' i).name = (files i).name ∧ (files' i).live = (files i).live := by
  obtain ⟨hi, hr⟩ := h.outside j hj hlive i hmem
  by_cases hin : S' i
  · by_cases hS : S i
    · exact htop i (hr hS)
    · exact absurd hi (hg.fresh i hin hS).1
  · rw [hw.frame i hin]
    exact ⟨rfl, rfl⟩

/-- A walk through the outside ends inside after the edit, if it did before. -/
theorem Confines.walk_outside :
    ∀ (comps : List (List UInt8)) (cur : Fin maxFiles), (∀ c ∈ comps, PlainComp c) →
      ¬ S' cur → isLive files cur →
      (∀ i, comps.foldlM (resolveComp files) cur = some i → S i) →
      ∀ i, comps.foldlM (resolveComp files') cur = some i → S' i
  | [], cur, _, hcur, _, hlead, i, _ => absurd (hg.sub cur (hlead cur rfl)) hcur
  | c :: comps, cur, hplain, hcur, hlive, hlead, i, hi => by
    have hS : ¬ S cur := fun hS => hcur (hg.sub cur hS)
    have hc := hplain c List.mem_cons_self
    have hplain' : ∀ x ∈ comps, PlainComp x := fun x hx => hplain x (List.mem_cons_of_mem _ hx)
    obtain ⟨next, hnext, hrest⟩ := Option.bind_eq_some_iff.mp hi
    rw [resolveComp_plain hc] at hnext
    have hsame : memfsFindChild files cur c = some next := by
      rw [← hnext, memfsFindChild, memfsFindChild, hw.frame cur hcur]
      by_cases hl : (files cur).live
      · rw [if_neg (by simp [hl]), if_neg (by simp [hl])]
        refine findSome_congr fun x hx => ?_
        cases hidx : fileIdx x with
        | none => rfl
        | some k =>
          rw [fileIdx_eq_some] at hidx
          obtain ⟨hname, hlv⟩ := h.listed_same hw hg htop hS hlive (hidx ▸ hx)
          simp [Option.filter, hname, hlv]
      · rw [if_pos (by simpa using hl), if_pos (by simpa using hl)]
    have hmem := (memfsFindChild_some hsame).1
    by_cases hin : S next
    · exact walk_inside (h.closed' hw hg) comps next hplain' (hg.sub next hin) i hrest
    · have hnl : isLive files next := (memfsFindChild_some hsame).2.1
      refine Confines.walk_outside comps next hplain' (fun hin' => (hg.fresh next hin' hin).1 hnl)
        hnl (fun k hk => hlead k ?_) i hrest
      refine Option.bind_eq_some_iff.mpr ⟨next, ?_, hk⟩
      rw [resolveComp_plain hc, hsame]

/-- **An edit inside the set leaves the process confined.** -/
theorem Confines.step : Confines S' r files' root where
  closed := h.closed' hw hg
  parents i hi hr p hp := by
    by_cases hS : S i
    · rcases hw.parents i hi with heq | ⟨q, hq, hpar⟩
      · rw [parentOf, heq] at hp
        exact hg.sub p (h.parents i hS hr p hp)
      · rw [hpar] at hp
        exact Option.some.inj hp ▸ hq
    · obtain ⟨-, -, q, hq, hpar⟩ := hg.fresh i hi hS
      rw [hpar] at hp
      exact Option.some.inj hp ▸ hg.sub q hq
  outside j hj hlive i hi := by
    have hS : ¬ S j := fun hS => hj (hg.sub j hS)
    rw [isLive, hw.frame j hj] at hlive
    rw [hw.frame j hj] at hi
    obtain ⟨hil, hir⟩ := h.outside j hS hlive i hi
    have hsame := h.listed_same hw hg htop hS hlive hi
    refine ⟨by rwa [isLive, hsame.2], fun hin => hir ?_⟩
    by_contra hiS
    exact (hg.fresh i hin hiS).1 hil
  top i hi := ⟨hg.sub i (h.top i hi).1, by rw [isLive, (htop i hi).2]; exact (h.top i hi).2⟩
  root_live := by
    by_cases hin : S' rootIdx
    · by_cases hS : S rootIdx
      · rw [isLive, (htop _ (h.root_inside hS)).2]
        exact h.root_live
      · exact absurd h.root_live (hg.fresh _ hin hS).1
    · rw [isLive, hw.frame _ hin]
      exact h.root_live
  root_inside hin := by
    by_contra hr
    exact (hg.fresh _ hin fun hS => hr (h.root_inside hS)).1 h.root_live
  depth := h.depth
  leads := by
    have hplain : ∀ c ∈ rootComps root, PlainComp c := fun c hc => rootComps_plain hc
    by_cases hin : S' rootIdx
    · exact walk_inside (h.closed' hw hg) _ _ hplain hin
    · exact h.walk_outside hw hg htop _ _ hplain hin h.root_live h.leads

end

end Lestra
