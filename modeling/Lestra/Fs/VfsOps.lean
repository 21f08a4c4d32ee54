import Lestra.Fs.Nodes
import Lestra.Fs.Vfs

/-!
# The VFS operations on paths

`vfs_open`, `vfs_mkdir`, `vfs_unlink`, `vfs_rmdir`, `vfs_rename`, `vfs_chmod`, `vfs_chown`
and `vfs_stat` of `kernel/fs/vfs.c`, by a process with a given root, over memfs and the
answers of the other file systems.
-/

namespace Lestra

def oCreat : BitVec 32 := 0x10#32

def oTrunc : BitVec 32 := 0x20#32

def oAppend : BitVec 32 := 0x40#32

/-- `flags & flag` -/
def hasFlag (flags flag : BitVec 32) : Bool := flags &&& flag ≠ 0#32

/-- The result of an operation, with the bytes it copies to its caller. -/
structure Reply where
  ret : Int
  bytes : List UInt8 := []
deriving DecidableEq, Repr, Inhabited

/-- The mount table and what the drivers of the other file systems answer at a call. A
descriptor or an `int` result is negative on failure, and an inode number is 0.
`ext2Create` is `ext2_create_file` and the `ext2_open_file` after it, `ext2Chmod` and
`ext2Rename` are the copies that `vfs_chmod` and `vfs_rename` make of an ext2 file;
`fdReply` is the answer of the file system that owns a descriptor of its own. -/
structure Drivers where
  mounts : List Mount
  fdReply : Reply
  procfsOpen : Path → Int
  devfsOpen : Path → Int
  tmpfsOpen : Path → BitVec 32 → Int
  tmpfsStat : Path → Option Stat
  tmpfsUnlink : Path → Int
  tmpfsTruncate : Path → Int → Int
  fat32Mounted : Bool
  fat32ShimOpen : Path → Int
  fat32Stat : Path → Option Stat
  fat32Unlink : Path → Int
  ext2Mounted : Bool
  ext2Writable : Bool
  ext2OpenFile : Path → Int
  ext2Create : Path → Int
  ext2Stat : Path → Option Stat
  ext2Mkdir : Path → BitVec 32 → BitVec 32
  ext2Unlink : Path → Int
  ext2Chmod : Path → BitVec 32 → Int
  ext2Rename : Path → Path → Int

/-- The state `vfs_stat` works on. -/
def Drivers.vfs (d : Drivers) (files : MemFiles) : Vfs :=
  ⟨files, d.mounts, d.tmpfsStat, d.fat32Mounted, d.fat32Stat, d.ext2Mounted, d.ext2Stat⟩

/-- Some mount of the given type covers the path. -/
def Drivers.covers (d : Drivers) (fs : FsType) (path : Path) : Bool :=
  d.mounts.any fun m => m.fsType = fs && pathUnderMount path m.path

/-- `"/proc"` -/
def procPrefix : Path := [47, 112, 114, 111, 99]

/-- `"/dev"` -/
def devPrefix : Path := [47, 100, 101, 118]

-- ---------------------------------------------------------------------------
-- open
-- ---------------------------------------------------------------------------

/-- `vfs_open` of the node a path leads to. -/
def openNode (m : Memfs) (i : Fin maxFiles) (flags : BitVec 32) : Memfs :=
  { m with
    files := if hasFlag flags oTrunc && !(m.files i).isDir then
        setNode m.files i fun f => { f with size := 0 } else m.files
    offsets := Function.update m.offsets i 0
    flags := Function.update m.flags i flags }

/-- `vfs_open` of a path that memfs does not have, where the parent is a node of memfs. -/
def createNode (c : Caller) (m : Memfs) (parent slot : Fin maxFiles) (name : List UInt8)
    (flags : BitVec 32) : Memfs where
  files := addNode c name false (sIfreg ||| 0o644#32) parent slot m.files
  numFiles := m.numFiles + 1
  offsets := Function.update m.offsets slot 0
  flags := Function.update m.flags slot flags

/-- The descriptor of a memfs node. -/
def memfsFd (i : Fin maxFiles) : Int := i + 3

/-- `vfs_open` -/
def vfsOpen (d : Drivers) (c : Caller) (m : Memfs) (path : Path) (flags : BitVec 32) :
    Memfs × Int :=
  if procPrefix.isPrefixOf path ∧ 0 ≤ d.procfsOpen path then (m, d.procfsOpen path)
  else if devPrefix.isPrefixOf path ∧ 0 ≤ d.devfsOpen path then (m, d.devfsOpen path)
  else if underTmp path then (m, if 0 ≤ d.tmpfsOpen path flags then d.tmpfsOpen path flags else -1)
  else
    match memfsResolvePath m.files c.root path with
    | some i => (openNode m i flags, memfsFd i)
    | none =>
      if hasFlag flags oCreat then
        match memfsSplitPath m.files c.root path with
        | none =>
          (m, if d.covers .ext2 path ∧ 0 ≤ d.ext2Create path then d.ext2Create path + 100 else -1)
        | some (parent, name) =>
          match memfsAllocSlot m.files with
          | none => (m, -1)
          -- the parent is not checked to be a directory
          | some slot => (createNode c m parent slot name flags, memfsFd slot)
      else if d.covers .ext2 path ∧ 0 ≤ d.ext2OpenFile path then (m, d.ext2OpenFile path + 100)
      else if d.covers .fat32 path ∧ 0 ≤ d.fat32ShimOpen path then
        (m, d.fat32ShimOpen path + 700)
      else (m, -1)

-- ---------------------------------------------------------------------------
-- mkdir, unlink, rmdir
-- ---------------------------------------------------------------------------

/-- `ext2_mkdir`, where a mounted ext2 covers the path. -/
def mkdirExt2 (d : Drivers) (path : Path) (mode : BitVec 32) : Int :=
  if d.covers .ext2 path ∧ d.ext2Mounted ∧ d.ext2Mkdir path (mode &&& 0o777#32) ≠ 0#32 then 0
  else -1

/-- `dir_mode` -/
def mkdirMode (mode : BitVec 32) : BitVec 32 :=
  sIfdir ||| if mode ≠ 0#32 then mode &&& 0o777#32 else 0o755#32

/-- `vfs_mkdir` -/
def vfsMkdir (d : Drivers) (c : Caller) (m : Memfs) (path : Path) (mode : BitVec 32) :
    Memfs × Int :=
  if ¬ path.Absolute then (m, -1)
  else
    match memfsResolvePath m.files c.root path with
    | some _ => (m, -1)
    | none =>
      match memfsSplitPath m.files c.root path with
      | none => (m, mkdirExt2 d path mode)
      | some (parent, name) =>
        if !(m.files parent).isDir then (m, -1)
        else
          match memfsAllocSlot m.files with
          | none => (m, mkdirExt2 d path mode)
          | some slot =>
            ({ m with
               files := addNode c name true (mkdirMode mode) parent slot m.files
               numFiles := m.numFiles + 1 }, 0)

/-- `ext2_unlink`, where a mounted ext2 covers the path. -/
def unlinkExt2 (d : Drivers) (path : Path) : Int :=
  if d.covers .ext2 path ∧ d.ext2Mounted ∧ 0 < d.ext2Unlink path then 0 else -1

/-- `vfs_unlink` -/
def vfsUnlink (d : Drivers) (c : Caller) (m : Memfs) (path : Path) : Memfs × Int :=
  if ¬ path.Absolute then (m, -1)
  else
    match memfsResolvePath m.files c.root path with
    | some i =>
      if i = rootIdx then (m, -1)
      else if (m.files i).isDir ∧ (m.files i).children ≠ [] then (m, -1)
      else (removeNode m i, 0)
    | none =>
      let name := path.dropWhile (· = slash)
      if underTmp path ∧ d.tmpfsUnlink path = 0 then (m, 0)
      else if d.covers .fat32 path ∧ d.fat32Mounted ∧ slash ∉ name ∧ d.fat32Unlink name = 0 then
        (m, 0)
      else (m, unlinkExt2 d path)

/-- `vfs_rmdir` -/
def vfsRmdir (d : Drivers) (c : Caller) (m : Memfs) (path : Path) : Memfs × Int :=
  if ¬ path.Absolute then (m, -1)
  else
    match memfsResolvePath m.files c.root path with
    | none => (m, unlinkExt2 d path)
    | some i =>
      if i = rootIdx then (m, -1)
      else if !(m.files i).isDir then (m, -1)
      else if (m.files i).children ≠ [] then (m, -1)
      else (removeNode m i, 0)

-- ---------------------------------------------------------------------------
-- rename
-- ---------------------------------------------------------------------------

/-- What lies at the new path is in the way of `old`. -/
def renameBlocked (files : MemFiles) (old new : Fin maxFiles) : Bool :=
  new = rootIdx || (files old).isDir && !(files new).isDir ||
    (files old).isDir && (files new).isDir && (files new).children ≠ []

/-- `memfs_add_child` of a saved parent, where that is an index. -/
def reattach (files : MemFiles) (parent : Int) (child : Fin maxFiles) : MemFiles :=
  match fileIdx parent with
  | some p => (memfsAddChild files p child).getD files
  | none => files

/-- The re-parenting of `old` with the roll-back of `vfs_rename`, after `new` has been
freed; `saved` is the state before that. -/
def moveNode (saved m : Memfs) (old : Fin maxFiles) (new : Option (Fin maxFiles))
    (parent : Fin maxFiles) (name : List UInt8) : Memfs × Int :=
  let savedName := (m.files old).name
  let savedParent := (m.files old).parentIdx
  let files := setNode (detach m.files old) old fun f => { f with name, parentIdx := parent }
  match memfsAddChild files parent old with
  | some files => ({ m with files }, 0)
  | none =>
    let files := setNode files old fun f => { f with name := savedName, parentIdx := savedParent }
    let files := reattach files savedParent old
    match new with
    | none => ({ m with files }, -1)
    | some i =>
      let files := setNode files i fun _ => saved.files i
      ({ m with
         files := reattach files (saved.files i).parentIdx i
         numFiles := m.numFiles + 1 }, -1)

/-- `vfs_rename` -/
def vfsRename (d : Drivers) (c : Caller) (m : Memfs) (oldpath newpath : Path) : Memfs × Int :=
  if ¬ oldpath.Absolute ∨ ¬ newpath.Absolute then (m, -1)
  else if oldpath = newpath then (m, 0)
  else
    match memfsResolvePath m.files c.root oldpath with
    | some old =>
      if old = rootIdx then (m, -1)
      else
        match memfsSplitPath m.files c.root newpath with
        | none => (m, -1)
        | some (parent, name) =>
          if !(m.files parent).isDir then (m, -1)
          else
            match memfsResolvePath m.files c.root newpath with
            | none => moveNode m m old none parent name
            | some new =>
              if renameBlocked m.files old new then (m, -1)
              else moveNode m (removeNode m new) old (some new) parent name
    | none =>
      if d.covers .ext2 oldpath ∧ d.ext2Mounted then
        (m, if d.covers .ext2 newpath then d.ext2Rename oldpath newpath else -1)
      else (m, -1)

-- ---------------------------------------------------------------------------
-- chmod and chown
-- ---------------------------------------------------------------------------

/-- `vfs_chmod` -/
def vfsChmod (d : Drivers) (c : Caller) (m : Memfs) (path : Path) (mode : BitVec 32) :
    Memfs × Int :=
  if ¬ path.Absolute then (m, -1)
  else
    match memfsResolvePath m.files c.root path with
    | none =>
      (m, if d.covers .ext2 path ∧ d.ext2Mounted ∧ d.ext2Writable then d.ext2Chmod path mode
        else -1)
    | some i =>
      ({ m with
         files := setNode m.files i fun f =>
           { f with mode := (f.mode &&& sIfmt) ||| (mode &&& 0o777#32) } }, 0)

/-- `vfs_chown` -/
def vfsChown (c : Caller) (m : Memfs) (path : Path) (uid gid : BitVec 32) : Memfs × Int :=
  if ¬ path.Absolute then (m, -1)
  else
    match memfsResolvePath m.files c.root path with
    | some i => ({ m with files := setNode m.files i fun f => { f with uid, gid } }, 0)
    | none => (m, if underTmp path then 0 else -1)

-- ---------------------------------------------------------------------------
-- What each operation does to memfs
-- ---------------------------------------------------------------------------

/-- `vfs_open` gets past procfs, devfs and tmpfs. -/
def reachesMemfs (d : Drivers) (path : Path) : Prop :=
  ¬ (procPrefix.isPrefixOf path ∧ 0 ≤ d.procfsOpen path) ∧
    ¬ (devPrefix.isPrefixOf path ∧ 0 ≤ d.devfsOpen path) ∧ underTmp path = false

/-- `vfs_open` creates a node. -/
structure Creates (d : Drivers) (c : Caller) (m : Memfs) (path : Path) (flags : BitVec 32)
    (parent slot : Fin maxFiles) (name : List UInt8) : Prop where
  memfs : reachesMemfs d path
  absent : memfsResolvePath m.files c.root path = none
  creat : hasFlag flags oCreat
  split : memfsSplitPath m.files c.root path = some (parent, name)
  slot : memfsAllocSlot m.files = some slot

theorem vfsOpen_cases (d : Drivers) (c : Caller) (m : Memfs) (path : Path) (flags : BitVec 32) :
    (vfsOpen d c m path flags).1 = m ∨
    (∃ i, reachesMemfs d path ∧ memfsResolvePath m.files c.root path = some i ∧
      vfsOpen d c m path flags = (openNode m i flags, memfsFd i)) ∨
    ∃ parent slot name, Creates d c m path flags parent slot name ∧
      vfsOpen d c m path flags = (createNode c m parent slot name flags, memfsFd slot) := by
  unfold vfsOpen
  split
  · exact .inl rfl
  · rename_i hproc
    split
    · exact .inl rfl
    · rename_i hdev
      split
      · exact .inl rfl
      · rename_i htmp
        have hmemfs : reachesMemfs d path := ⟨hproc, hdev, by simpa using htmp⟩
        cases hres : memfsResolvePath m.files c.root path with
        | some i => exact .inr (.inl ⟨i, hmemfs, rfl, rfl⟩)
        | none =>
          dsimp only
          split
          · rename_i hcreat
            cases hsplit : memfsSplitPath m.files c.root path with
            | none => exact .inl rfl
            | some target =>
              cases hslot : memfsAllocSlot m.files with
              | none => exact .inl rfl
              | some slot =>
                exact .inr (.inr ⟨_, slot, _, ⟨hmemfs, hres, hcreat, hsplit, hslot⟩, rfl⟩)
          · left
            split_ifs <;> rfl

/-- `vfs_mkdir` creates a node. -/
structure Makes (c : Caller) (m : Memfs) (path : Path) (parent slot : Fin maxFiles)
    (name : List UInt8) : Prop where
  absolute : path.Absolute
  absent : memfsResolvePath m.files c.root path = none
  split : memfsSplitPath m.files c.root path = some (parent, name)
  isDir : (m.files parent).isDir
  slot : memfsAllocSlot m.files = some slot

theorem vfsMkdir_cases (d : Drivers) (c : Caller) (m : Memfs) (path : Path) (mode : BitVec 32) :
    (vfsMkdir d c m path mode).1 = m ∨
    ∃ parent slot name, Makes c m path parent slot name ∧
      vfsMkdir d c m path mode
        = ({ m with files := addNode c name true (mkdirMode mode) parent slot m.files
                    numFiles := m.numFiles + 1 }, 0) := by
  unfold vfsMkdir
  split
  · exact .inl rfl
  · rename_i habs
    cases hres : memfsResolvePath m.files c.root path with
    | some i => exact .inl rfl
    | none =>
      cases hsplit : memfsSplitPath m.files c.root path with
      | none => exact .inl rfl
      | some target =>
        by_cases hdir : (m.files target.1).isDir
        · cases hslot : memfsAllocSlot m.files with
          | none => exact .inl (by simp [hdir])
          | some slot =>
            exact .inr ⟨target.1, slot, target.2,
              ⟨not_not.mp habs, hres, hsplit, hdir, hslot⟩, by simp [hdir]⟩
        · exact .inl (by simp [hdir])

/-- `vfs_unlink` or `vfs_rmdir` of `path` frees the node `i`. -/
structure Removes (c : Caller) (m : Memfs) (path : Path) (i : Fin maxFiles) : Prop where
  resolved : memfsResolvePath m.files c.root path = some i
  not_root : i ≠ rootIdx
  empty : (m.files i).isDir → (m.files i).children = []

theorem vfsUnlink_cases (d : Drivers) (c : Caller) (m : Memfs) (path : Path) :
    (vfsUnlink d c m path).1 = m ∨
    ∃ i, Removes c m path i ∧ vfsUnlink d c m path = (removeNode m i, 0) := by
  unfold vfsUnlink
  split
  · exact .inl rfl
  · cases hres : memfsResolvePath m.files c.root path with
    | none =>
      dsimp only
      split_ifs <;> exact .inl rfl
    | some i =>
      dsimp only
      split_ifs with hroot hempty
      · exact .inl rfl
      · exact .inl rfl
      · exact .inr ⟨i, ⟨hres, hroot, fun hd => by simpa [hd] using hempty⟩, rfl⟩

theorem vfsRmdir_cases (d : Drivers) (c : Caller) (m : Memfs) (path : Path) :
    (vfsRmdir d c m path).1 = m ∨
    ∃ i, Removes c m path i ∧ vfsRmdir d c m path = (removeNode m i, 0) := by
  unfold vfsRmdir
  split
  · exact .inl rfl
  · cases hres : memfsResolvePath m.files c.root path with
    | none => exact .inl rfl
    | some i =>
      dsimp only
      split_ifs with hroot hdir hempty
      · exact .inl rfl
      · exact .inl rfl
      · exact .inl rfl
      · exact .inr ⟨i, ⟨hres, hroot, fun _ => by simpa using hempty⟩, rfl⟩

/-- What `vfs_rename` works on when it starts to edit the tree: `new` is what lies at the
new path. -/
structure Moves (c : Caller) (m : Memfs) (oldpath newpath : Path) (old : Fin maxFiles)
    (new : Option (Fin maxFiles)) (parent : Fin maxFiles) (name : List UInt8) : Prop where
  ne : oldpath ≠ newpath
  resolved : memfsResolvePath m.files c.root oldpath = some old
  not_root : old ≠ rootIdx
  split : memfsSplitPath m.files c.root newpath = some (parent, name)
  isDir : (m.files parent).isDir
  target : memfsResolvePath m.files c.root newpath = new
  clear : ∀ n, new = some n → renameBlocked m.files old n = false

/-- The nodes after `vfs_rename` has freed what lies at the new path. -/
def clearTarget (m : Memfs) (new : Option (Fin maxFiles)) : Memfs := new.elim m (removeNode m)

theorem vfsRename_cases (d : Drivers) (c : Caller) (m : Memfs) (oldpath newpath : Path) :
    (vfsRename d c m oldpath newpath).1 = m ∨
    ∃ old new parent name, Moves c m oldpath newpath old new parent name ∧
      vfsRename d c m oldpath newpath
        = moveNode m (clearTarget m new) old new parent name := by
  unfold vfsRename
  split
  · exact .inl rfl
  split
  · exact .inl rfl
  rename_i hne
  cases hold : memfsResolvePath m.files c.root oldpath with
  | none =>
    left
    dsimp only
    split <;> rfl
  | some old =>
    by_cases hroot : old = rootIdx
    · exact .inl (by simp [hroot])
    cases hsplit : memfsSplitPath m.files c.root newpath with
    | none => exact .inl (by simp [hroot])
    | some target =>
      by_cases hdir : (m.files target.1).isDir
      · cases hnew : memfsResolvePath m.files c.root newpath with
        | none =>
          exact .inr ⟨old, none, target.1, target.2,
            ⟨hne, hold, hroot, hsplit, hdir, hnew, by simp⟩, by simp [hroot, hdir, clearTarget]⟩
        | some n =>
          by_cases hblock : renameBlocked m.files old n
          · exact .inl (by simp [hroot, hdir, hblock])
          · exact .inr ⟨old, some n, target.1, target.2,
              ⟨hne, hold, hroot, hsplit, hdir, hnew, by simpa using hblock⟩,
              by simp [hroot, hdir, hblock, clearTarget]⟩
      · exact .inl (by simp [hroot, hdir])

end Lestra
