import Mathlib.Data.Fintype.Card
import Lestra.Fs.FileIo
import Lestra.Lib.ParentTree
import Lestra.Lib.Run

/-!
# The memfs tree

`MemfsTree`: the existing nodes form a tree rooted at index 0, its directories list their
children, siblings have distinct names, and `fs_num_files` counts the nodes. Creating,
removing and moving a node keep this where the source's own checks suffice for it.
-/

namespace Lestra

open ParentTree

def isLive (files : MemFiles) (i : Fin maxFiles) : Prop := (files i).live

instance (files : MemFiles) (i : Fin maxFiles) : Decidable (isLive files i) :=
  inferInstanceAs (Decidable (_ = true))

def parentOf (files : MemFiles) (i : Fin maxFiles) : Option (Fin maxFiles) :=
  fileIdx (files i).parentIdx

def liveCount (files : MemFiles) : Nat := (Finset.univ.filter fun i => isLive files i).card

structure MemfsTree (m : Memfs) : Prop where
  rooted : Rooted (isLive m.files) (parentOf m.files) rootIdx
  dirs : ∀ i p, isLive m.files i → parentOf m.files i = some p → (m.files p).isDir
  listed : ∀ p, isLive m.files p → ∀ x : Int, x ∈ (m.files p).children ↔
    ∃ i : Fin maxFiles, x = i ∧ isLive m.files i ∧ parentOf m.files i = some p
  nodup : ∀ p, isLive m.files p → (m.files p).children.Nodup
  named : ∀ i, isLive m.files i → (m.files i).name ≠ []
  distinct : ∀ i j, isLive m.files i → isLive m.files j →
    parentOf m.files i = parentOf m.files j → (m.files i).name = (m.files j).name → i = j
  count : m.numFiles = liveCount m.files

-- ---------------------------------------------------------------------------
-- Edits that leave the shape
-- ---------------------------------------------------------------------------

/-- The part of a node that the tree depends on. -/
def MemFile.shape (f : MemFile) : Bool × Int × Bool × List Int × List UInt8 :=
  (f.live, f.parentIdx, f.isDir, f.children, f.name)

theorem MemfsTree.congr {m m' : Memfs} (h : MemfsTree m) (hnum : m'.numFiles = m.numFiles)
    (hshape : ∀ i, (m'.files i).shape = (m.files i).shape) : MemfsTree m' := by
  have hlive : isLive m'.files = isLive m.files := by
    funext i
    rw [isLive, isLive, show (m'.files i).live = (m.files i).live from congrArg (·.1) (hshape i)]
  have hparent : parentOf m'.files = parentOf m.files := by
    funext i
    exact congrArg (fun s => fileIdx s.2.1) (hshape i)
  have hdir : ∀ i, (m'.files i).isDir = (m.files i).isDir := fun i =>
    congrArg (fun s => s.2.2.1) (hshape i)
  have hchildren : ∀ i, (m'.files i).children = (m.files i).children := fun i =>
    congrArg (fun s => s.2.2.2.1) (hshape i)
  have hname : ∀ i, (m'.files i).name = (m.files i).name := fun i =>
    congrArg (fun s => s.2.2.2.2) (hshape i)
  constructor
  · rw [hlive, hparent]
    exact h.rooted
  · simpa only [hlive, hparent, hdir] using h.dirs
  · simpa only [hlive, hparent, hchildren] using h.listed
  · simpa only [hlive, hchildren] using h.nodup
  · simpa only [hlive, hname] using h.named
  · simpa only [hlive, hparent, hname] using h.distinct
  · rw [hnum, h.count]
    simp only [liveCount, hlive]

-- ---------------------------------------------------------------------------
-- Consequences
-- ---------------------------------------------------------------------------

section
variable {m : Memfs} {i p slot parent : Fin maxFiles}

theorem MemfsTree.mem_children (h : MemfsTree m) (hp : isLive m.files p) :
    ((i : Nat) : Int) ∈ (m.files p).children ↔
      isLive m.files i ∧ parentOf m.files i = some p := by
  rw [h.listed p hp]
  constructor
  · rintro ⟨j, hj, hlive, hparent⟩
    obtain rfl : i = j := Fin.ext (by exact_mod_cast hj)
    exact ⟨hlive, hparent⟩
  · exact fun hi => ⟨i, rfl, hi⟩

/-- A directory never reaches `MAX_CHILDREN`: the root is nobody's child. -/
theorem MemfsTree.children_lt (h : MemfsTree m) (hp : isLive m.files p) :
    (m.files p).children.length < maxChildren := by
  have hsub : (m.files p).children.toFinset ⊆
      (Finset.univ.erase rootIdx).image fun i : Fin maxFiles => ((i : Nat) : Int) := by
    intro x hx
    obtain ⟨i, rfl, -, hparent⟩ := (h.listed p hp x).mp (List.mem_toFinset.mp hx)
    refine Finset.mem_image.mpr ⟨i, Finset.mem_erase.mpr ⟨?_, Finset.mem_univ i⟩, rfl⟩
    rintro rfl
    rw [h.rooted.root_parent] at hparent
    exact absurd hparent (by simp)
  have hcard := (Finset.card_le_card hsub).trans Finset.card_image_le
  rw [List.toFinset_card_of_nodup (h.nodup p hp), Finset.card_erase_of_mem (Finset.mem_univ _),
    Finset.card_univ, Fintype.card_fin] at hcard
  simp only [maxChildren, maxFiles] at hcard ⊢
  omega

/-- Only the root has no parent. -/
theorem MemfsTree.ne_root (h : MemfsTree m) (hi : parentOf m.files i = some p) :
    i ≠ rootIdx := by
  rintro rfl
  rw [h.rooted.root_parent] at hi
  exact absurd hi (by simp)

theorem MemfsTree.parent_ne (h : MemfsTree m) (hi : isLive m.files i)
    (hp : parentOf m.files i = some p) : p ≠ i := by
  rintro rfl
  exact h.rooted.acyclic hi (.single hp)

/-- A name that the directory does not have is not the name of any of its children. -/
theorem MemfsTree.name_free (h : MemfsTree m) {name : List UInt8} (hp : isLive m.files p)
    (hfree : memfsFindChild m.files p name = none) (hi : isLive m.files i)
    (hip : parentOf m.files i = some p) : (m.files i).name ≠ name :=
  memfsFindChild_none hfree hp ((h.mem_children hp).mpr ⟨hi, hip⟩) hi

/-- Regular files have no children. -/
theorem MemfsTree.file_children (h : MemfsTree m) (hp : isLive m.files p)
    (hdir : (m.files p).isDir = false) : (m.files p).children = [] := by
  rw [List.eq_nil_iff_forall_not_mem]
  intro x hx
  obtain ⟨i, -, hi, hip⟩ := (h.listed p hp x).mp hx
  rw [h.dirs i p hi hip] at hdir
  exact absurd hdir (by simp)

end

-- ---------------------------------------------------------------------------
-- A new node
-- ---------------------------------------------------------------------------

section
variable {m : Memfs} {c : Caller} {name : List UInt8} {isDir : Bool} {mode : BitVec 32}
  {parent slot : Fin maxFiles}

/-- The nodes after `addNode`, where the parent takes the new one. -/
theorem addNode_apply (files : MemFiles) (hne : parent ≠ slot)
    (hdir : (files parent).isDir) (hroom : (files parent).children.length < maxChildren)
    (hnew : ((slot : Nat) : Int) ∉ (files parent).children) (i : Fin maxFiles) :
    addNode c name isDir mode parent slot files i =
      if i = parent then
        { files parent with children := (files parent).children ++ [((slot : Nat) : Int)] }
      else if i = slot then newNode c name isDir mode parent (files slot) else files i := by
  simp only [addNode, memfsAddChild, setNode_ne files _ hne]
  rw [if_neg (by simp [hdir]), if_neg (by omega), if_neg hnew, Option.getD_some]
  by_cases hi : i = parent
  · rw [hi, setNode_same, setNode_ne _ _ hne, if_pos rfl]
  · rw [setNode_ne _ _ hi, if_neg hi]
    by_cases hs : i = slot
    · rw [hs, setNode_same, if_pos rfl]
    · rw [setNode_ne _ _ hs, if_neg hs]

/-- **A new node in a directory that has no child of its name keeps the tree.** -/
theorem MemfsTree.add (h : MemfsTree m) (hslot : ¬ isLive m.files slot)
    (hp : isLive m.files parent) (hdir : (m.files parent).isDir) (hname : name ≠ [])
    (hfree : memfsFindChild m.files parent name = none) (offsets : Fin maxFiles → Nat)
    (flags : Fin maxFiles → BitVec 32) :
    MemfsTree ⟨addNode c name isDir mode parent slot m.files, m.numFiles + 1, offsets, flags⟩ := by
  have hne : parent ≠ slot := fun he => hslot (he ▸ hp)
  have hnew : ((slot : Nat) : Int) ∉ (m.files parent).children := fun hmem =>
    hslot ((h.mem_children hp).mp hmem).1
  have hnode : ∀ i, addNode c name isDir mode parent slot m.files i = _ :=
    addNode_apply m.files hne hdir (h.children_lt hp) hnew
  set files := addNode c name isDir mode parent slot m.files with hfiles
  have hlive : ∀ y, isLive files y ↔ isLive m.files y ∨ y = slot := by
    intro y
    simp only [isLive, hnode]
    split_ifs with hyp hys
    · rw [hyp]
      exact ⟨.inl, fun hor => hor.resolve_right hne⟩
    · exact ⟨fun _ => .inr hys, fun _ => rfl⟩
    · exact ⟨.inl, fun hor => hor.resolve_right hys⟩
  have hparent : ∀ y, y ≠ slot → parentOf files y = parentOf m.files y := by
    intro y hy
    simp only [parentOf, hnode]
    split_ifs with hyp
    · rw [hyp]
    · rfl
  have hparentSlot : parentOf files slot = some parent := by
    simp [parentOf, hnode, hne.symm, newNode]
  have hnames : ∀ y, y ≠ slot → (files y).name = (m.files y).name := by
    intro y hy
    simp only [hnode]
    split_ifs with hyp
    · rw [hyp]
    · rfl
  have hnameSlot : (files slot).name = name := by simp [hnode, hne.symm, newNode]
  have hlive_ne : ∀ y, isLive m.files y → y ≠ slot := fun y hy he => hslot (he ▸ hy)
  constructor
  · exact h.rooted.grow hslot hp hlive hparentSlot fun y hy => hparent y (hlive_ne y hy)
  · intro i p hi hip
    have hisDir : ∀ q, (m.files q).isDir → q ≠ slot → (files q).isDir := by
      intro q hq hqs
      simp only [hnode, if_neg hqs]
      split_ifs with hqp
      · exact hqp ▸ hq
      · exact hq
    rcases (hlive i).mp hi with hold | rfl
    · rw [hparent i (hlive_ne i hold)] at hip
      exact hisDir p (h.dirs i p hold hip) (hlive_ne p (h.rooted.live_parent hold hip))
    · rw [hparentSlot] at hip
      obtain rfl := Option.some.inj hip
      exact hisDir parent hdir hne
  · intro p hp' x
    have hmem : x ∈ (files p).children ↔
        p ≠ slot ∧ x ∈ (m.files p).children ∨ p = parent ∧ x = ((slot : Nat) : Int) := by
      simp only [hnode]
      split_ifs with hpp hps
      · rw [hpp]
        simp [hne]
      · simp [hps, newNode, hne.symm]
      · simp [hpp, hps]
    rw [hmem]
    constructor
    · rintro (⟨hps, hx⟩ | ⟨rfl, rfl⟩)
      · obtain ⟨i, rfl, hi, hip⟩ :=
          (h.listed p (((hlive p).mp hp').resolve_right hps) x).mp hx
        exact ⟨i, rfl, (hlive i).mpr (.inl hi), (hparent i (hlive_ne i hi)).trans hip⟩
      · exact ⟨slot, rfl, (hlive slot).mpr (.inr rfl), hparentSlot⟩
    · rintro ⟨i, rfl, hi, hip⟩
      rcases (hlive i).mp hi with hold | rfl
      · rw [hparent i (hlive_ne i hold)] at hip
        have hpold := h.rooted.live_parent hold hip
        exact .inl ⟨hlive_ne p hpold, (h.mem_children hpold).mpr ⟨hold, hip⟩⟩
      · rw [hparentSlot] at hip
        exact .inr ⟨(Option.some.inj hip).symm, rfl⟩
  · intro p hp'
    simp only [hnode]
    split_ifs with hpp hps
    · exact (h.nodup parent hp).append (List.nodup_singleton _)
        (List.disjoint_singleton.mpr hnew)
    · exact List.nodup_nil
    · exact h.nodup p (((hlive p).mp hp').resolve_right hps)
  · intro i hi
    rcases (hlive i).mp hi with hold | rfl
    · rw [hnames i (hlive_ne i hold)]
      exact h.named i hold
    · rwa [hnameSlot]
  · -- a child of the parent cannot have the name of the new node
    have hclash : ∀ i, isLive m.files i → parentOf m.files i = some parent →
        (m.files i).name ≠ name := fun i hi hip => h.name_free hp hfree hi hip
    intro i j hi hj hpar hnm
    rcases (hlive i).mp hi with holdi | rfl <;> rcases (hlive j).mp hj with holdj | rfl
    · rw [hparent i (hlive_ne i holdi), hparent j (hlive_ne j holdj)] at hpar
      rw [hnames i (hlive_ne i holdi), hnames j (hlive_ne j holdj)] at hnm
      exact h.distinct i j holdi holdj hpar hnm
    · rw [hparent i (hlive_ne i holdi), hparentSlot] at hpar
      rw [hnames i (hlive_ne i holdi), hnameSlot] at hnm
      exact absurd hnm (hclash i holdi hpar)
    · rw [hparent j (hlive_ne j holdj), hparentSlot] at hpar
      rw [hnames j (hlive_ne j holdj), hnameSlot] at hnm
      exact absurd hnm.symm (hclash j holdj hpar.symm)
    · rfl
  · have hset : (Finset.univ.filter fun i => isLive files i)
        = insert slot (Finset.univ.filter fun i => isLive m.files i) := by
      ext y
      simp only [Finset.mem_filter, Finset.mem_univ, true_and, Finset.mem_insert, hlive]
      exact or_comm
    rw [h.count, liveCount, liveCount, hset, Finset.card_insert_of_notMem (by simpa using hslot)]
    push_cast
    rfl

end

-- ---------------------------------------------------------------------------
-- Taking a node out of its directory
-- ---------------------------------------------------------------------------

section
variable {m m₁ : Memfs} {files : MemFiles} {i j old : Fin maxFiles}

/-- `detach` changes nothing but lists of children. -/
theorem detach_node (files : MemFiles) (i j : Fin maxFiles) :
    ∃ children, detach files i j = { files j with children } := by
  unfold detach memfsRemoveChild
  cases fileIdx (files i).parentIdx with
  | none => exact ⟨_, rfl⟩
  | some p =>
    dsimp only
    split
    · exact ⟨_, rfl⟩
    · by_cases hj : j = p
      · exact ⟨_, by rw [hj, setNode_same]⟩
      · exact ⟨_, by rw [setNode_ne _ _ hj]⟩

/-- A field that `detach` leaves alone. -/
theorem detach_field {β : Type} (g : MemFile → β) (hg : ∀ f cs, g { f with children := cs } = g f)
    (files : MemFiles) (i j : Fin maxFiles) : g (detach files i j) = g (files j) := by
  obtain ⟨cs, hcs⟩ := detach_node files i j
  rw [hcs, hg]

theorem addChild_field {β : Type} (g : MemFile → β)
    (hg : ∀ f cs, g { f with children := cs } = g f) {files files' : MemFiles}
    {dir child : Fin maxFiles} (h : memfsAddChild files dir child = some files')
    (i : Fin maxFiles) : g (files' i) = g (files i) := by
  unfold memfsAddChild at h
  split_ifs at h
  · rw [← Option.some.inj h]
  · rw [← Option.some.inj h]
    refine setNode_field g files dir i ?_
    exact hg _ _

theorem addChild_getD_field {β : Type} (g : MemFile → β)
    (hg : ∀ f cs, g { f with children := cs } = g f) (files : MemFiles)
    (dir child i : Fin maxFiles) :
    g ((memfsAddChild files dir child).getD files i) = g (files i) := by
  cases hadd : memfsAddChild files dir child with
  | none => rw [Option.getD_none]
  | some files' => rw [Option.getD_some, addChild_field g hg hadd i]

/-- Apart from the children of its parent, `addNode` changes only the new node. -/
theorem addNode_field {β : Type} (g : MemFile → β)
    (hg : ∀ f cs, g { f with children := cs } = g f) {c : Caller} {name : List UInt8}
    {isDir : Bool} {mode : BitVec 32} {parent slot i : Fin maxFiles} {files : MemFiles} :
    g (addNode c name isDir mode parent slot files i)
      = g (setNode files slot (newNode c name isDir mode parent) i) :=
  addChild_getD_field g hg _ parent slot i

theorem reattach_field {β : Type} (g : MemFile → β)
    (hg : ∀ f cs, g { f with children := cs } = g f) (files : MemFiles) (x : Int)
    (child i : Fin maxFiles) : g (reattach files x child i) = g (files i) := by
  unfold reattach
  cases fileIdx x with
  | none => rfl
  | some p => exact addChild_getD_field g hg files p child i

/-- `detach` takes the node out of every list that names it, if that is its parent's. -/
theorem detach_children (h : ((i : Nat) : Int) ∈ (files j).children →
      parentOf files i = some j ∧ (files j).isDir) :
    (detach files i j).children = (files j).children.erase ((i : Nat) : Int) := by
  have absent : ((i : Nat) : Int) ∉ (files j).children →
      (files j).children = (files j).children.erase ((i : Nat) : Int) := fun hmem =>
    (List.erase_of_not_mem hmem).symm
  unfold detach memfsRemoveChild
  unfold parentOf at h
  cases hp : fileIdx (files i).parentIdx with
  | none => exact absent fun hmem => absurd (hp ▸ (h hmem).1) (by simp)
  | some p =>
    rw [hp] at h
    dsimp only
    by_cases hj : j = p
    · by_cases hdir : (files p).isDir
      · rw [hj, if_neg (by simp [hdir]), setNode_same]
      · rw [if_pos (by simp [hdir])]
        exact absent fun hmem => hdir (hj ▸ (h hmem).2)
    · have hout : ((i : Nat) : Int) ∉ (files j).children := fun hmem =>
        hj (Option.some.inj (h hmem).1).symm
      split
      · exact absent hout
      · rw [setNode_ne _ _ hj]
        exact absent hout

/-- A node without children may be taken out of the tree, and where its only child is
`keep`, so may it if `keep` then moves elsewhere. -/
structure Vacated (m m₁ : Memfs) (new : Option (Fin maxFiles)) : Prop where
  live : ∀ i, isLive m₁.files i ↔ isLive m.files i ∧ new ≠ some i
  same : ∀ i, (m₁.files i).parentIdx = (m.files i).parentIdx ∧
    (m₁.files i).isDir = (m.files i).isDir ∧ (m₁.files i).name = (m.files i).name
  children : ∀ i, isLive m.files i → new ≠ some i → ∀ x : Int,
    x ∈ (m₁.files i).children ↔ x ∈ (m.files i).children ∧ ∀ n, new = some n → x ≠ (n : Nat)
  nodup : ∀ i, isLive m.files i → (m₁.files i).children.Nodup
  count : m₁.numFiles = liveCount m₁.files

theorem Vacated.parentOf (h : Vacated m m₁ new) (i : Fin maxFiles) :
    parentOf m₁.files i = Lestra.parentOf m.files i := by
  rw [Lestra.parentOf, Lestra.parentOf, (h.same i).1]

theorem MemfsTree.vacated_none (h : MemfsTree m) : Vacated m m none where
  live := by simp
  same := fun _ => ⟨rfl, rfl, rfl⟩
  children := by simp
  nodup := h.nodup
  count := h.count

theorem removeNode_ne (m : Memfs) (h : j ≠ i) :
    (removeNode m i).files j = detach m.files i j := by
  simp only [removeNode, setNode_ne _ _ h]

theorem removeNode_same (m : Memfs) (i : Fin maxFiles) :
    (removeNode m i).files i = { detach m.files i i with live := false, children := [] } := by
  simp only [removeNode, setNode_same]

theorem MemfsTree.vacated_some (h : MemfsTree m) (hi : isLive m.files i) :
    Vacated m (removeNode m i) (some i) := by
  have hchildren : ∀ j, isLive m.files j → j ≠ i → ((removeNode m i).files j).children
      = (m.files j).children.erase ((i : Nat) : Int) := by
    intro j hj hne
    rw [removeNode_ne m hne, detach_children]
    intro hmem
    obtain ⟨-, hip⟩ := (h.mem_children hj).mp hmem
    exact ⟨hip, h.dirs i j hi hip⟩
  have hlive : ∀ j, isLive (removeNode m i).files j ↔ isLive m.files j ∧ some i ≠ some j := by
    intro j
    obtain ⟨cs, hcs⟩ := detach_node m.files i j
    by_cases hj : j = i
    · simp [isLive, hj, removeNode_same]
    · simp [isLive, removeNode_ne m hj, hcs, Ne.symm hj]
  constructor
  · exact hlive
  · intro j
    obtain ⟨cs, hcs⟩ := detach_node m.files i j
    by_cases hj : j = i
    · rw [hj] at hcs ⊢
      simp [removeNode_same, hcs]
    · simp [removeNode_ne m hj, hcs]
  · intro j hj hne x
    have hji : j ≠ i := fun he => hne (congrArg some he.symm)
    rw [hchildren j hj hji, (h.nodup j hj).mem_erase_iff]
    simp only [Option.some.injEq, forall_eq']
    exact and_comm
  · intro j hj
    by_cases hji : j = i
    · rw [hji, removeNode_same]
      exact List.nodup_nil
    · rw [hchildren j hj hji]
      exact (h.nodup j hj).erase _
  · have hset : (Finset.univ.filter fun j => isLive (removeNode m i).files j)
        = (Finset.univ.filter fun j => isLive m.files j).erase i := by
      ext j
      simp only [Finset.mem_filter, Finset.mem_univ, true_and, Finset.mem_erase, hlive, ne_eq,
        Option.some.injEq, eq_comm (a := i)]
      exact and_comm
    have hmem : i ∈ Finset.univ.filter fun j => isLive m.files j := by simpa using hi
    rw [liveCount, hset, Finset.card_erase_of_mem hmem]
    change m.numFiles - 1 = _
    have := Finset.card_pos.mpr ⟨i, hmem⟩
    rw [h.count, liveCount]
    omega

/-- **Removing a node without children keeps the tree.** -/
theorem MemfsTree.remove (h : MemfsTree m) (hi : isLive m.files i) (hroot : i ≠ rootIdx)
    (hempty : (m.files i).children = []) : MemfsTree (removeNode m i) := by
  have hc := h.vacated_some hi
  have hparent : parentOf (removeNode m i).files = parentOf m.files := funext hc.parentOf
  have hleaf : ∀ y, isLive m.files y → parentOf m.files y ≠ some i := by
    intro y hy hyi
    have := (h.mem_children hi).mpr ⟨hy, hyi⟩
    rw [hempty] at this
    exact absurd this (by simp)
  constructor
  · refine h.rooted.prune hroot hleaf (fun y => ?_) fun y _ => hc.parentOf y
    rw [hc.live, ne_eq, Option.some.injEq, eq_comm]
  · intro j p hj hjp
    rw [hparent] at hjp
    rw [(hc.same p).2.1]
    exact h.dirs j p ((hc.live j).mp hj).1 hjp
  · intro p hp x
    obtain ⟨hp, hne⟩ := (hc.live p).mp hp
    rw [hc.children p hp hne, h.listed p hp]
    constructor
    · rintro ⟨⟨j, rfl, hj, hjp⟩, hx⟩
      refine ⟨j, rfl, (hc.live j).mpr ⟨hj, ?_⟩, hparent ▸ hjp⟩
      intro he
      exact hx j he rfl
    · rintro ⟨j, rfl, hj, hjp⟩
      obtain ⟨hj, hji⟩ := (hc.live j).mp hj
      refine ⟨⟨j, rfl, hj, hparent ▸ hjp⟩, ?_⟩
      rintro n hn hjn
      exact hji (hn.trans (congrArg some (Fin.ext (by exact_mod_cast hjn.symm))))
  · exact fun p hp => hc.nodup p ((hc.live p).mp hp).1
  · intro j hj
    rw [(hc.same j).2.2]
    exact h.named j ((hc.live j).mp hj).1
  · intro j k hj hk hpar hnm
    rw [hparent] at hpar
    rw [(hc.same j).2.2, (hc.same k).2.2] at hnm
    exact h.distinct j k ((hc.live j).mp hj).1 ((hc.live k).mp hk).1 hpar hnm
  · exact hc.count

end

-- ---------------------------------------------------------------------------
-- Moving a node
-- ---------------------------------------------------------------------------

section
variable {m m₁ : Memfs} {old parent : Fin maxFiles} {new : Option (Fin maxFiles)}
  {name : List UInt8}

/-- The destination takes `old`: it does not lie below it, and what `old` replaces is
another node, with no children but perhaps `old`; no other child has the new name. -/
structure MoveSafe (m : Memfs) (old : Fin maxFiles) (new : Option (Fin maxFiles))
    (parent : Fin maxFiles) (name : List UInt8) : Prop where
  outside : ¬ Below (isLive m.files) (parentOf m.files) old parent
  replaced : ∀ n, new = some n → n ≠ old ∧ n ≠ parent
  emptied : ∀ n, new = some n → ∀ x ∈ (m.files n).children, x = ((old : Nat) : Int)
  free : ∀ i, isLive m.files i → parentOf m.files i = some parent → i ≠ old → new ≠ some i →
    (m.files i).name ≠ name

/-- The nodes after a move that finds room. -/
structure Moved (m₁ m' : Memfs) (old parent : Fin maxFiles) (name : List UInt8) : Prop where
  same : ∀ j, (m'.files j).live = (m₁.files j).live ∧ (m'.files j).isDir = (m₁.files j).isDir
  moved : (m'.files old).name = name ∧ parentOf m'.files old = some parent
  others : ∀ j, j ≠ old → (m'.files j).name = (m₁.files j).name ∧
    parentOf m'.files j = parentOf m₁.files j
  children : ∀ j, (((old : Nat) : Int) ∈ (m₁.files j).children →
      parentOf m₁.files old = some j ∧ (m₁.files j).isDir) →
    (m'.files j).children = (m₁.files j).children.erase ((old : Nat) : Int) ++
      if j = parent then [((old : Nat) : Int)] else []
  count : m'.numFiles = m₁.numFiles

theorem moveNode_moved (saved : Memfs) (new : Option (Fin maxFiles)) (name : List UInt8)
    (hne : parent ≠ old) (hdir : (m₁.files parent).isDir)
    (hroom : (m₁.files parent).children.length < maxChildren)
    (hnodup : (m₁.files parent).children.Nodup)
    (hlist : ((old : Nat) : Int) ∈ (m₁.files parent).children →
      parentOf m₁.files old = some parent ∧ (m₁.files parent).isDir) :
    ∃ m', moveNode saved m₁ old new parent name = (m', 0) ∧ Moved m₁ m' old parent name := by
  set files := setNode (detach m₁.files old) old fun f => { f with name, parentIdx := parent }
    with hfiles
  have hfiles_ne : ∀ j, j ≠ old → files j = detach m₁.files old j := fun j hj => by
    rw [hfiles, setNode_ne _ _ hj]
  have hchildren : (files parent).children
      = (m₁.files parent).children.erase ((old : Nat) : Int) := by
    rw [hfiles_ne parent hne, detach_children hlist]
  have hadd : memfsAddChild files parent old = some
      (setNode files parent fun f => { f with children := f.children ++ [((old : Nat) : Int)] }) := by
    obtain ⟨cs, hcs⟩ := detach_node m₁.files old parent
    have hdir' : (files parent).isDir := by rw [hfiles_ne parent hne, hcs]; exact hdir
    have hlen := List.length_erase_le (l := (m₁.files parent).children) (a := ((old : Nat) : Int))
    rw [memfsAddChild, hchildren, if_neg (by simp [hdir']), if_neg (by omega), if_neg]
    exact fun hmem => (hnodup.mem_erase_iff.mp hmem).1 rfl
  refine ⟨{ m₁ with files := setNode files parent fun f =>
    { f with children := f.children ++ [((old : Nat) : Int)] } }, ?_, ?_⟩
  · rw [moveNode]
    simp only [← hfiles, hadd]
  have hnode : ∀ j, ∃ cs, files j = { m₁.files j with
      name := if j = old then name else (m₁.files j).name
      parentIdx := if j = old then ((parent : Nat) : Int) else (m₁.files j).parentIdx
      children := cs } := by
    intro j
    obtain ⟨cs, hcs⟩ := detach_node m₁.files old j
    refine ⟨cs, ?_⟩
    by_cases hj : j = old
    · rw [hj] at hcs ⊢
      rw [hfiles, setNode_same, hcs]
      simp
    · rw [hfiles_ne j hj, hcs]
      simp [hj]
  have hshape : ∀ {β : Type} (g : MemFile → β), (∀ f cs, g { f with children := cs } = g f) →
      ∀ j, g (setNode files parent (fun f =>
        { f with children := f.children ++ [((old : Nat) : Int)] }) j) = g (files j) :=
    fun g hg j => setNode_field g files parent j (hg _ _)
  constructor
  · intro j
    obtain ⟨cs, hcs⟩ := hnode j
    rw [hshape (fun f => f.live) (fun _ _ => rfl), hshape (fun f => f.isDir) (fun _ _ => rfl), hcs]
    exact ⟨rfl, rfl⟩
  · obtain ⟨cs, hcs⟩ := hnode old
    rw [parentOf, hshape (fun f => f.name) (fun _ _ => rfl),
      hshape (fun f => f.parentIdx) (fun _ _ => rfl), hcs]
    simp
  · intro j hj
    obtain ⟨cs, hcs⟩ := hnode j
    rw [parentOf, hshape (fun f => f.name) (fun _ _ => rfl),
      hshape (fun f => f.parentIdx) (fun _ _ => rfl), hcs]
    simp [hj, parentOf]
  · intro j hj
    have hcs : (files j).children = (m₁.files j).children.erase ((old : Nat) : Int) := by
      rw [hfiles, setNode_field (fun f => f.children) _ _ _ rfl, detach_children hj]
    by_cases hjp : j = parent
    · rw [hjp] at hcs ⊢
      simp only [setNode_same, hcs, if_true]
    · simp only [setNode_ne _ _ hjp, hcs, if_neg hjp, List.append_nil]
  · rfl

/-- **A move whose destination takes the node keeps the tree.** -/
theorem MemfsTree.move (h : MemfsTree m) (ho : isLive m.files old) (hroot : old ≠ rootIdx)
    (hd : isLive m.files parent) (hdir : (m.files parent).isDir) (hname : name ≠ [])
    (hnew : ∀ n, new = some n → isLive m.files n ∧ n ≠ rootIdx)
    (hsafe : MoveSafe m old new parent name) :
    MemfsTree (moveNode m (clearTarget m new) old new parent name).1 := by
  have hc : Vacated m (clearTarget m new) new := by
    cases new with
    | none => exact h.vacated_none
    | some n => exact h.vacated_some (hnew n rfl).1
  set m₁ := clearTarget m new
  have hparent₁ : parentOf m₁.files = parentOf m.files := funext hc.parentOf
  have hne : parent ≠ old := fun he => hsafe.outside (he ▸ .self hd)
  have hdst : new ≠ some parent := fun he => (hsafe.replaced parent he).2 rfl
  have hlist : ∀ j, isLive m.files j → ((old : Nat) : Int) ∈ (m₁.files j).children →
      parentOf m₁.files old = some j ∧ (m₁.files j).isDir := by
    intro j hj hmem
    have hjn : new ≠ some j ∨ new = some j := (em _).symm
    rcases hjn with hjn | hjn
    · obtain ⟨-, hoj⟩ := (h.mem_children hj).mp ((hc.children j hj hjn _).mp hmem).1
      rw [hparent₁, (hc.same j).2.1]
      exact ⟨hoj, h.dirs old j ho hoj⟩
    · subst hjn
      rw [show m₁ = removeNode m j from rfl, removeNode_same] at hmem
      exact absurd hmem (by simp)
  have hsub : (m₁.files parent).children ⊆ (m.files parent).children := fun x hx =>
    ((hc.children parent hd hdst x).mp hx).1
  have hroom : (m₁.files parent).children.length < maxChildren :=
    lt_of_le_of_lt (List.subperm_of_subset (hc.nodup parent hd) hsub).length_le (h.children_lt hd)
  obtain ⟨m', hm', hmv⟩ := moveNode_moved m new name hne
    ((hc.same parent).2.1.trans hdir) hroom (hc.nodup parent hd) (hlist parent hd)
  rw [hm']
  have hlive : ∀ j, isLive m'.files j ↔ isLive m.files j ∧ new ≠ some j := by
    intro j
    rw [← hc.live j, isLive, (hmv.same j).1, isLive]
  have hparent : ∀ j, j ≠ old → parentOf m'.files j = parentOf m.files j := fun j hj => by
    rw [(hmv.others j hj).2, hparent₁]
  have hnames : ∀ j, j ≠ old → (m'.files j).name = (m.files j).name := fun j hj => by
    rw [(hmv.others j hj).1, (hc.same j).2.2]
  have hisDir : ∀ j, (m'.files j).isDir = (m.files j).isDir := fun j => by
    rw [(hmv.same j).2, (hc.same j).2.1]
  have hchildren : ∀ j, isLive m.files j → (m'.files j).children
      = (m₁.files j).children.erase ((old : Nat) : Int) ++
        if j = parent then [((old : Nat) : Int)] else [] := fun j hj =>
    hmv.children j (hlist j hj)
  have hmem : ∀ j, isLive m.files j → new ≠ some j → ∀ x : Int, x ∈ (m'.files j).children ↔
      (x ∈ (m.files j).children ∧ (∀ n, new = some n → x ≠ (n : Nat)) ∧ x ≠ (old : Nat)) ∨
        j = parent ∧ x = (old : Nat) := by
    intro j hj hjn x
    rw [hchildren j hj, List.mem_append, (hc.nodup j hj).mem_erase_iff, hc.children j hj hjn]
    by_cases hjp : j = parent
    · simp only [hjp, if_true, List.mem_singleton, true_and]
      tauto
    · simp only [hjp, if_false, List.not_mem_nil, false_and]
      tauto
  constructor
  · -- move first: the replaced node may have `old` for its only child
    have hmoved : Rooted (isLive m.files) (parentOf m'.files) rootIdx :=
      h.rooted.move hroot hd hsafe.outside (fun _ => Iff.rfl) hmv.moved.2 hparent
    cases hn : new with
    | none =>
      have heq : isLive m'.files = isLive m.files := by
        funext j
        simp [hlive, hn]
      rw [heq]
      exact hmoved
    | some n =>
      refine hmoved.prune (hnew n hn).2 ?_ (fun y => ?_) fun y _ => rfl
      · intro y hy hyn
        by_cases hyo : y = old
        · rw [hyo, hmv.moved.2] at hyn
          exact (hsafe.replaced n hn).2 (Option.some.inj hyn).symm
        · rw [hparent y hyo] at hyn
          have := hsafe.emptied n hn _ ((h.mem_children (hnew n hn).1).mpr ⟨hy, hyn⟩)
          exact hyo (Fin.ext (by exact_mod_cast this))
      · rw [hlive, hn, ne_eq, Option.some.injEq, eq_comm]
  · intro i p hi hip
    rw [hisDir]
    by_cases hio : i = old
    · rw [hio, hmv.moved.2] at hip
      exact Option.some.inj hip ▸ hdir
    · rw [hparent i hio] at hip
      exact h.dirs i p ((hlive i).mp hi).1 hip
  · intro p hp x
    obtain ⟨hp, hpn⟩ := (hlive p).mp hp
    rw [hmem p hp hpn]
    have hone : new ≠ some old := fun he => (hsafe.replaced old he).1 rfl
    constructor
    · rintro (⟨hx, hxn, hxo⟩ | ⟨rfl, rfl⟩)
      · obtain ⟨i, rfl, hi, hip⟩ := (h.listed p hp x).mp hx
        have hio : i ≠ old := fun he => hxo (congrArg (fun k : Fin maxFiles => ((k : Nat) : Int)) he)
        exact ⟨i, rfl, (hlive i).mpr ⟨hi, fun he => hxn i he rfl⟩, (hparent i hio).trans hip⟩
      · exact ⟨old, rfl, (hlive old).mpr ⟨ho, hone⟩, hmv.moved.2⟩
    · rintro ⟨i, rfl, hi, hip⟩
      obtain ⟨hi, hin⟩ := (hlive i).mp hi
      by_cases hio : i = old
      · rw [hio, hmv.moved.2] at hip
        exact .inr ⟨(Option.some.inj hip).symm, by rw [hio]⟩
      · rw [hparent i hio] at hip
        refine .inl ⟨(h.mem_children hp).mpr ⟨hi, hip⟩, fun n hn hx => hin ?_, fun hx => hio ?_⟩
        · rw [hn, show n = i from Fin.ext (by exact_mod_cast hx.symm)]
        · exact Fin.ext (by exact_mod_cast hx)
  · intro p hp
    obtain ⟨hp, -⟩ := (hlive p).mp hp
    rw [hchildren p hp]
    refine ((hc.nodup p hp).erase _).append ?_ ?_
    · split
      · exact List.nodup_singleton _
      · exact List.nodup_nil
    · split
      · rw [List.disjoint_singleton, (hc.nodup p hp).mem_erase_iff]
        exact fun hx => hx.1 rfl
      · exact List.disjoint_nil_right _
  · intro i hi
    by_cases hio : i = old
    · rwa [hio, hmv.moved.1]
    · rw [hnames i hio]
      exact h.named i ((hlive i).mp hi).1
  · have hclash : ∀ i, isLive m'.files i → i ≠ old → parentOf m'.files i = some parent →
        (m'.files i).name ≠ name := by
      intro i hi hio hip
      obtain ⟨hi, hin⟩ := (hlive i).mp hi
      rw [hnames i hio]
      exact hsafe.free i hi (hparent i hio ▸ hip) hio hin
    intro i j hi hj hpar hnm
    by_cases hio : i = old <;> by_cases hjo : j = old
    · rw [hio, hjo]
    · rw [hio, hmv.moved.2] at hpar
      rw [hio, hmv.moved.1] at hnm
      exact absurd hnm.symm (hclash j hj hjo hpar.symm)
    · rw [hjo, hmv.moved.2] at hpar
      rw [hjo, hmv.moved.1] at hnm
      exact absurd hnm (hclash i hi hio hpar)
    · rw [hparent i hio, hparent j hjo] at hpar
      rw [hnames i hio, hnames j hjo] at hnm
      exact h.distinct i j ((hlive i).mp hi).1 ((hlive j).mp hj).1 hpar hnm
  · have heq : isLive m'.files = isLive m₁.files := by
      funext j
      rw [isLive, (hmv.same j).1, isLive]
    rw [hmv.count, hc.count]
    simp only [liveCount, heq]

end

end Lestra
