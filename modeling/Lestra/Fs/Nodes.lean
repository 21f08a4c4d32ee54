import Mathlib.Data.List.DropRight
import Lestra.Fs.Memfs
import Lestra.Lib.FirstFit

/-!
# Editing the memfs tree

The helpers of `kernel/fs/vfs.c` that the operations on memfs edit the node table with:
splitting a path, finding a slot, and the entries of a directory.
-/

namespace Lestra

def maxFileSize : Nat := 65536

def maxChildren : Nat := 64

def sIfreg : BitVec 32 := 0o100000#32

def sIfdir : BitVec 32 := 0o040000#32

def sIfmt : BitVec 32 := 0o170000#32

/-- The nodes with what is kept beside them for a descriptor: `fs_files`, `fs_num_files`,
`fs_offsets` and `fs_flags`. -/
structure Memfs where
  files : MemFiles
  numFiles : Int
  offsets : Fin maxFiles → Nat
  flags : Fin maxFiles → BitVec 32

/-- What `memset` leaves of a node. -/
def zeroNode : MemFile := ⟨[], [], 0, false, 0, 0, 0, false, 0, []⟩

def rootNode : MemFile :=
  { zeroNode with
    name := [slash], live := true, isDir := true, mode := sIfdir ||| 0o755#32, parentIdx := -1 }

/-- `vfs_init` -/
def vfsInit : Memfs where
  files := Function.update (fun _ => zeroNode) rootIdx rootNode
  numFiles := 1
  offsets := fun _ => 0
  flags := fun _ => 0#32

/-- The part of `current` that the file system reads. -/
structure Caller where
  root : Path
  uid : BitVec 32
  gid : BitVec 32
deriving Inhabited

-- ---------------------------------------------------------------------------
-- Splitting a path
-- ---------------------------------------------------------------------------

/-- What follows the last slash. -/
def baseName (path : Path) : List UInt8 := path.rtakeWhile (· ≠ slash)

/-- What precedes the last slash, cut to its buffer. -/
def parentPath (path : Path) : Path :=
  let dir := (path.rdropWhile (· ≠ slash)).dropLast
  if dir = [] then [slash] else dir.take (maxPathLen - 1)

/-- `memfs_split_path` for a process whose root is `root`. -/
def memfsSplitPath (files : MemFiles) (root path : Path) :
    Option (Fin maxFiles × List UInt8) :=
  if ¬ path.Absolute ∨ path = [slash] ∨ baseName path = [] then none
  else
    let base := (baseName path).take (maxNameLen - 1)
    -- the parent "/" is the root of memfs whatever the root of the process is
    if parentPath path = [slash] then some (rootIdx, base)
    else (memfsResolvePath files root (parentPath path)).map fun parent => (parent, base)

-- ---------------------------------------------------------------------------
-- Slots and directory entries
-- ---------------------------------------------------------------------------

/-- `memfs_alloc_slot` -/
def memfsAllocSlot (files : MemFiles) : Option (Fin maxFiles) :=
  (List.finRange maxFiles).find? fun i => !(files i).live

def setNode (files : MemFiles) (i : Fin maxFiles) (f : MemFile → MemFile) : MemFiles :=
  Function.update files i (f (files i))

/-- `memfs_add_child`, `none` where it returns -1. -/
def memfsAddChild (files : MemFiles) (dir child : Fin maxFiles) : Option MemFiles :=
  if !(files dir).isDir then none
  else if maxChildren ≤ (files dir).children.length then none
  else if (child : Int) ∈ (files dir).children then some files
  else some (setNode files dir fun f => { f with children := f.children ++ [(child : Int)] })

/-- `memfs_remove_child` -/
def memfsRemoveChild (files : MemFiles) (dir child : Fin maxFiles) : MemFiles :=
  if !(files dir).isDir then files
  else setNode files dir fun f => { f with children := f.children.erase (child : Int) }

/-- `memfs_remove_child` of `parent_idx`, where that is an index. -/
def detach (files : MemFiles) (i : Fin maxFiles) : MemFiles :=
  match fileIdx (files i).parentIdx with
  | some parent => memfsRemoveChild files parent i
  | none => files

/-- The fields that `vfs_open` and `vfs_mkdir` fill in for a new node. The data of a slot
stays. -/
def newNode (c : Caller) (name : List UInt8) (isDir : Bool) (mode : BitVec 32)
    (parent : Fin maxFiles) (old : MemFile) : MemFile :=
  { old with
    name, live := true, isDir, mode, uid := c.uid, gid := c.gid, size := 0,
    parentIdx := parent, children := [] }

/-- A new node in `slot`, under `parent` if that takes it. -/
def addNode (c : Caller) (name : List UInt8) (isDir : Bool) (mode : BitVec 32)
    (parent slot : Fin maxFiles) (files : MemFiles) : MemFiles :=
  let files := setNode files slot (newNode c name isDir mode parent)
  (memfsAddChild files parent slot).getD files

/-- The end of `vfs_unlink` and `vfs_rmdir`. -/
def removeNode (m : Memfs) (i : Fin maxFiles) : Memfs :=
  { m with
    files := setNode (detach m.files i) i fun f => { f with live := false, children := [] }
    numFiles := m.numFiles - 1 }

-- ---------------------------------------------------------------------------
-- Facts about the helpers
-- ---------------------------------------------------------------------------

theorem fileIdx_eq_some {x : Int} {i : Fin maxFiles} : fileIdx x = some i ↔ x = i := by
  unfold fileIdx
  constructor
  · intro h
    split at h
    · obtain rfl := Option.some.inj h
      simp only
      omega
    · exact absurd h (by simp)
  · rintro rfl
    rw [dif_pos ⟨by omega, by omega⟩]
    simp

@[simp] theorem fileIdx_natCast (i : Fin maxFiles) : fileIdx (i : Nat) = some i :=
  fileIdx_eq_some.mpr rfl

@[simp] theorem setNode_same (files : MemFiles) (i : Fin maxFiles) (f : MemFile → MemFile) :
    setNode files i f i = f (files i) := Function.update_self ..

theorem setNode_ne (files : MemFiles) {i j : Fin maxFiles} (f : MemFile → MemFile) (h : j ≠ i) :
    setNode files i f j = files j := Function.update_of_ne h ..

/-- An update that keeps a field of its node keeps that field of every node. -/
theorem setNode_field {β : Type*} (g : MemFile → β) (files : MemFiles) (i j : Fin maxFiles)
    {f : MemFile → MemFile} (h : g (f (files i)) = g (files i)) :
    g (setNode files i f j) = g (files j) := by
  by_cases hj : j = i
  · rw [hj, setNode_same, h]
  · rw [setNode_ne files f hj]

theorem findSome_congr {α β : Type} {f g : α → Option β} {l : List α}
    (h : ∀ x ∈ l, f x = g x) : l.findSome? f = l.findSome? g := by
  induction l with
  | nil => rfl
  | cons x l ih =>
    rw [List.findSome?_cons, List.findSome?_cons, h x List.mem_cons_self,
      ih fun y hy => h y (List.mem_cons_of_mem _ hy)]

theorem memfsFindChild_some {files : MemFiles} {dir i : Fin maxFiles} {name : List UInt8}
    (h : memfsFindChild files dir name = some i) :
    ((i : Nat) : Int) ∈ (files dir).children ∧ (files i).live ∧ (files i).name = name := by
  unfold memfsFindChild at h
  split at h
  · exact absurd h (by simp)
  · obtain ⟨c, hc, hf⟩ := List.exists_of_findSome?_eq_some h
    obtain ⟨hidx, hi⟩ := Option.filter_eq_some_iff.mp hf
    rw [← fileIdx_eq_some.mp hidx]
    exact ⟨hc, by simpa using hi⟩

theorem memfsFindChild_none {files : MemFiles} {dir i : Fin maxFiles} {name : List UInt8}
    (h : memfsFindChild files dir name = none) (hdir : (files dir).live)
    (hi : ((i : Nat) : Int) ∈ (files dir).children) (hlive : (files i).live) :
    (files i).name ≠ name := by
  unfold memfsFindChild at h
  rw [if_neg (by simp [hdir]), List.findSome?_eq_none_iff] at h
  intro hname
  have := h _ hi
  simp [hlive, hname] at this

/-- The walk over the components of a path keeps to what every component keeps to. -/
theorem resolve_inv {files : MemFiles} {P : Fin maxFiles → Prop}
    (hcomp : ∀ cur comp i, P cur → resolveComp files cur comp = some i → P i) :
    ∀ (comps : List (List UInt8)) (cur : Fin maxFiles) {i : Fin maxFiles}, P cur →
      comps.foldlM (resolveComp files) cur = some i → P i
  | [], cur, i, hcur, h => by
    obtain rfl := Option.some.inj h
    exact hcur
  | comp :: comps, cur, i, hcur, h => by
    obtain ⟨next, hnext, hrest⟩ := Option.bind_eq_some_iff.mp h
    exact resolve_inv hcomp comps next (hcomp cur comp next hcur hnext) hrest

theorem resolveComp_live {files : MemFiles} {cur i : Fin maxFiles} {comp : List UInt8}
    (hcur : (files cur).live) (h : resolveComp files cur comp = some i) : (files i).live := by
  unfold resolveComp memfsParent at h
  split at h
  · exact Option.some.inj h ▸ hcur
  · split at h
    · split at h <;> obtain rfl := Option.some.inj h
      · split
        · split
          · assumption
          · exact hcur
        · exact hcur
      · exact hcur
    · exact (memfsFindChild_some h).2.1

/-- Every resolved path is walked from the root over some components. -/
theorem memfsResolvePath_walk {files : MemFiles} {root path : Path} {i : Fin maxFiles}
    (h : memfsResolvePath files root path = some i) :
    ∃ comps : List (List UInt8), comps.foldlM (resolveComp files) rootIdx = some i := by
  have raw : ∀ p, memfsResolvePathRaw files p = some i →
      ∃ comps : List (List UInt8), comps.foldlM (resolveComp files) rootIdx = some i := by
    intro p hp
    unfold memfsResolvePathRaw at hp
    split at hp
    · exact absurd hp (by simp)
    · exact ⟨_, hp⟩
  unfold memfsResolvePath at h
  split at h
  · exact absurd h (by simp)
  · split at h
    · exact raw _ h
    · split at h
      · exact absurd h (by simp)
      · exact raw _ h

theorem memfsResolvePath_live {files : MemFiles} {root path : Path} {i : Fin maxFiles}
    (hroot : (files rootIdx).live) (h : memfsResolvePath files root path = some i) :
    (files i).live := by
  obtain ⟨comps, hwalk⟩ := memfsResolvePath_walk h
  exact resolve_inv (P := fun j => (files j).live) (fun _ _ _ => resolveComp_live) comps
    rootIdx hroot hwalk

theorem memfsSplitPath_name {files : MemFiles} {root path : Path} {parent : Fin maxFiles}
    {name : List UInt8} (h : memfsSplitPath files root path = some (parent, name)) :
    name = (baseName path).take (maxNameLen - 1) ∧ name ≠ [] := by
  unfold memfsSplitPath at h
  split at h
  · exact absurd h (by simp)
  · rename_i hne
    have hbase : (baseName path).take (maxNameLen - 1) ≠ [] := by
      simp only [not_or] at hne
      simpa [maxNameLen] using hne.2.2
    split at h
    · obtain ⟨-, rfl⟩ := Prod.mk.inj (Option.some.inj h)
      exact ⟨rfl, hbase⟩
    · obtain ⟨p, -, hp⟩ := Option.map_eq_some_iff.mp h
      obtain ⟨-, rfl⟩ := Prod.mk.inj hp
      exact ⟨rfl, hbase⟩

theorem memfsSplitPath_parent {files : MemFiles} {root path : Path} {parent : Fin maxFiles}
    {name : List UInt8} (h : memfsSplitPath files root path = some (parent, name)) :
    parentPath path = [slash] ∧ parent = rootIdx ∨
      parentPath path ≠ [slash] ∧ memfsResolvePath files root (parentPath path) = some parent := by
  unfold memfsSplitPath at h
  split at h
  · exact absurd h (by simp)
  · split at h
    · rename_i hp
      exact .inl ⟨hp, (Prod.mk.inj (Option.some.inj h)).1.symm⟩
    · rename_i hp
      obtain ⟨p, hres, hpn⟩ := Option.map_eq_some_iff.mp h
      exact .inr ⟨hp, (Prod.mk.inj hpn).1 ▸ hres⟩

theorem memfsSplitPath_live {files : MemFiles} {root path : Path} {parent : Fin maxFiles}
    {name : List UInt8} (hroot : (files rootIdx).live)
    (h : memfsSplitPath files root path = some (parent, name)) : (files parent).live := by
  rcases memfsSplitPath_parent h with ⟨-, rfl⟩ | ⟨-, hres⟩
  · exact hroot
  · exact memfsResolvePath_live hroot hres

theorem memfsAllocSlot_dead {files : MemFiles} {i : Fin maxFiles}
    (h : memfsAllocSlot files = some i) : (files i).live = false := by
  simpa using FirstFit.mem_of_some h

end Lestra
