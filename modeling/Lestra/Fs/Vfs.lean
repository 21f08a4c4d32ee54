import Lestra.Fs.Memfs

/-!
# The VFS

The mount table of `kernel/fs/vfs.c` and `vfs_stat`. The drivers of tmpfs, FAT32 and ext2
are part of the state by what they report about a path.
-/

namespace Lestra

/-- `FS_TYPE_MEMFS`, `FS_TYPE_EXT2`, `FS_TYPE_FAT32`. -/
inductive FsType where
  | memfs
  | ext2
  | fat32
deriving DecidableEq, Repr, Inhabited

structure Mount where
  path : Path
  fsType : FsType
deriving Inhabited

structure Stat where
  mode : BitVec 32
  uid : BitVec 32
  gid : BitVec 32
  size : Nat
deriving DecidableEq, Repr, Inhabited

structure Vfs where
  files : MemFiles
  mounts : List Mount
  tmpfsStat : Path → Option Stat
  fat32Mounted : Bool
  fat32Stat : Path → Option Stat
  ext2Mounted : Bool
  ext2Stat : Path → Option Stat

/-- `path_under_mount` -/
def pathUnderMount (path mountPath : Path) : Bool :=
  mountPath = [slash] ||
    mountPath.isPrefixOf path &&
      ((path.drop mountPath.length).head? = some slash || path.length = mountPath.length)

/-- `find_ext2_mount_for_path` and `find_fat32_mount_for_path`. -/
def findMountForPath (v : Vfs) (fs : FsType) (path : Path) : Option Mount :=
  v.mounts.find? fun m => m.fsType = fs && pathUnderMount path m.path

/-- The path is `/tmp` or below it. -/
def underTmp (path : Path) : Bool := pathUnderMount path [47, 116, 109, 112]

/-- `vfs_stat` by a process with the given root. -/
def vfsStat (v : Vfs) (root path : Path) : Option Stat :=
  match memfsResolvePath v.files root path with
  | some idx =>
    let f := v.files idx
    some ⟨f.mode, f.uid, f.gid, if f.isDir then 0 else f.size⟩
  | none =>
    match if underTmp path then v.tmpfsStat path else none with
    | some st => some st
    | none =>
      if (findMountForPath v .fat32 path).isSome ∧ v.fat32Mounted then v.fat32Stat path
      else if (findMountForPath v .ext2 path).isSome ∧ v.ext2Mounted then v.ext2Stat path
      else none

/-- `S_ISDIR` -/
def sIsdir (mode : BitVec 32) : Bool := mode &&& 0o170000#32 = 0o040000#32

/-- `path` names an existing directory. -/
def Vfs.isDirectory (v : Vfs) (root path : Path) : Bool :=
  (vfsStat v root path).any fun st => sIsdir st.mode

end Lestra
