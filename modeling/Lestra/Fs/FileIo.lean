import Mathlib.Algebra.Group.Int.Defs
import Lestra.Fs.VfsOps
import Lestra.Lib.ByteBuf

/-!
# Reading and writing memfs files

`vfs_read`, `vfs_write`, `vfs_lseek`, `vfs_read_at`, `vfs_write_at`, `vfs_truncate`,
`vfs_ftruncate` and `vfs_close` of `kernel/fs/vfs.c`, and one call type for all operations
of the VFS. The outcome `none` is an access outside the data array of the file.
-/

namespace Lestra

/-- The value of a `size_t`. -/
def sizeT (x : Int) : Nat := (x % 2 ^ 64).toNat

/-- The value of an `off_t`. -/
def offT (x : Int) : Int := x.bmod (2 ^ 64)

/-- The descriptor belongs to ext2, procfs, devfs, tmpfs or FAT32. -/
def otherFd (fd : Int) : Bool :=
  (100 ≤ fd ∧ fd < 116) || (300 ≤ fd ∧ fd < 600) || (700 ≤ fd ∧ fd < 716)

/-- The existing node a memfs descriptor stands for. -/
def fdNode (m : Memfs) (fd : Int) : Option (Fin maxFiles) :=
  (fileIdx (fd - 3)).filter fun i => (m.files i).live

-- ---------------------------------------------------------------------------
-- Data
-- ---------------------------------------------------------------------------

/-- The bytes a read copies. -/
def readNode (f : MemFile) (off count : Nat) : Option (List UInt8) :=
  if f.size ≤ off then some []
  else
    let n := min count (f.size - off)
    if off + n ≤ maxFileSize then some (ByteBuf.load f.data off n) else none

/-- `end` of a write of `len` bytes. -/
def writeEnd (off len : Nat) : Nat := sizeT (off + (min len maxFileSize : Nat))

/-- `count` of a write of `len` bytes, after the cap. -/
def writeCount (off len : Nat) : Nat :=
  if maxFileSize < writeEnd off len then sizeT (maxFileSize - off) else min len maxFileSize

/-- The write finds no room and returns 0. -/
def writeFull (off len : Nat) : Prop := maxFileSize < writeEnd off len ∧ writeCount off len = 0

instance (off len : Nat) : Decidable (writeFull off len) := inferInstanceAs (Decidable (_ ∧ _))

/-- The node after a write. `end` is not cut with `count`, so the size may pass the
maximum. -/
def writeNode (off : Nat) (buf : List UInt8) (f : MemFile) : MemFile :=
  { f with
    data := ByteBuf.store f.data off (buf.take (writeCount off buf.length))
    size := max f.size (writeEnd off buf.length) }

/-- The node cut or extended to `len` bytes. -/
def resizeNode (len : Nat) (f : MemFile) : MemFile :=
  { f with
    data := if f.size < len then ByteBuf.zero f.data f.size (len - f.size)
      else ByteBuf.zero f.data len (f.size - len)
    size := len }

-- ---------------------------------------------------------------------------
-- Sequential input and output
-- ---------------------------------------------------------------------------

/-- `vfs_close` -/
def vfsClose (d : Drivers) (m : Memfs) (fd : Int) : Memfs × Reply :=
  if otherFd fd then (m, d.fdReply) else (m, ⟨if (fdNode m fd).isSome then 0 else -1, []⟩)

/-- `vfs_read` -/
def vfsRead (d : Drivers) (m : Memfs) (fd : Int) (count : Nat) : Option (Memfs × Reply) :=
  if otherFd fd then some (m, d.fdReply)
  else
    match fdNode m fd with
    | none => some (m, ⟨-1, []⟩)
    | some i =>
      if (m.files i).isDir then some (m, ⟨-1, []⟩)
      else if (m.files i).size ≤ m.offsets i then some (m, ⟨0, []⟩)
      else
        (readNode (m.files i) (m.offsets i) count).map fun bs =>
          ({ m with offsets := Function.update m.offsets i (m.offsets i + bs.length) },
            ⟨bs.length, bs⟩)

/-- Where `vfs_write` starts. -/
def writeOffset (m : Memfs) (i : Fin maxFiles) : Nat :=
  if hasFlag (m.flags i) oAppend then (m.files i).size else m.offsets i

/-- `vfs_write` -/
def vfsWrite (d : Drivers) (m : Memfs) (fd : Int) (buf : List UInt8) : Option (Memfs × Reply) :=
  if otherFd fd then some (m, d.fdReply)
  else
    match fdNode m fd with
    | none => some (m, ⟨-1, []⟩)
    | some i =>
      if (m.files i).isDir then some (m, ⟨-1, []⟩)
      else
        let off := writeOffset m i
        let n := writeCount off buf.length
        if writeFull off buf.length then some (m, ⟨0, []⟩)
        else if off + n ≤ maxFileSize then
          some ({ m with
            files := setNode m.files i (writeNode off buf)
            offsets := Function.update m.offsets i (off + n) }, ⟨n, []⟩)
        else none

/-- `base` of `vfs_lseek`. -/
def seekBase (m : Memfs) (i : Fin maxFiles) (whence : Int) : Option Int :=
  if whence = 0 then some 0
  else if whence = 1 then some (m.offsets i)
  else if whence = 2 then some (m.files i).size
  else none

/-- `vfs_lseek` -/
def vfsLseek (d : Drivers) (m : Memfs) (fd offset whence : Int) : Memfs × Reply :=
  if otherFd fd then (m, d.fdReply)
  else
    match fdNode m fd with
    | none => (m, ⟨-1, []⟩)
    | some i =>
      match seekBase m i whence with
      | none => (m, ⟨-1, []⟩)
      | some base =>
        let newOff := offT (base + offset)
        if newOff < 0 then (m, ⟨-1, []⟩)
        else ({ m with offsets := Function.update m.offsets i newOff.toNat }, ⟨newOff, []⟩)

-- ---------------------------------------------------------------------------
-- Positional input and output
-- ---------------------------------------------------------------------------

/-- `vfs_read_at` -/
def vfsReadAt (d : Drivers) (m : Memfs) (fd : Int) (count : Nat) (offset : Int) :
    Option (Memfs × Reply) :=
  if otherFd fd then some (m, d.fdReply)
  else
    match fdNode m fd with
    | none => some (m, ⟨-1, []⟩)
    | some i =>
      if (m.files i).isDir then some (m, ⟨-1, []⟩)
      else (readNode (m.files i) (sizeT offset) count).map fun bs => (m, ⟨bs.length, bs⟩)

/-- `vfs_write_at` -/
def vfsWriteAt (d : Drivers) (m : Memfs) (fd : Int) (buf : List UInt8) (offset : Int) :
    Option (Memfs × Reply) :=
  if otherFd fd then some (m, d.fdReply)
  else
    match fdNode m fd with
    | none => some (m, ⟨-1, []⟩)
    | some i =>
      if (m.files i).isDir then some (m, ⟨-1, []⟩)
      else
        let off := sizeT offset
        let n := writeCount off buf.length
        if writeFull off buf.length then some (m, ⟨0, []⟩)
        else if off + n ≤ maxFileSize then
          some ({ m with files := setNode m.files i (writeNode off buf) }, ⟨n, []⟩)
        else none

-- ---------------------------------------------------------------------------
-- truncate
-- ---------------------------------------------------------------------------

/-- The end of `vfs_truncate` and `vfs_ftruncate`. -/
def truncateNode (m : Memfs) (i : Fin maxFiles) (len : Nat) : Option (Memfs × Int) :=
  if (m.files i).isDir then some (m, -1)
  else if maxFileSize < (m.files i).size then none
  else
    some ({ m with
      files := setNode m.files i (resizeNode len)
      offsets := Function.update m.offsets i (min (m.offsets i) len) }, 0)

/-- `vfs_truncate` -/
def vfsTruncate (d : Drivers) (c : Caller) (m : Memfs) (path : Path) (length : Int) :
    Option (Memfs × Int) :=
  if ¬ path.Absolute then some (m, -1)
  else if length < 0 then some (m, -1)
  else if underTmp path then some (m, d.tmpfsTruncate path length)
  else if maxFileSize < length then some (m, -1)
  else
    match memfsResolvePath m.files c.root path with
    | some i => truncateNode m i length.toNat
    | none => some (m, -1)

/-- `vfs_ftruncate` -/
def vfsFtruncate (d : Drivers) (m : Memfs) (fd length : Int) : Option (Memfs × Int) :=
  if length < 0 then some (m, -1)
  else if otherFd fd then some (m, d.fdReply.ret)
  else if maxFileSize < length then some (m, -1)
  else
    match fdNode m fd with
    | none => some (m, -1)
    | some i => truncateNode m i length.toNat

-- ---------------------------------------------------------------------------
-- One call of the VFS
-- ---------------------------------------------------------------------------

/-- The operations of the VFS that this model has. -/
inductive VfsCall where
  | open (path : Path) (flags : BitVec 32)
  | stat (path : Path)
  | mkdir (path : Path) (mode : BitVec 32)
  | unlink (path : Path)
  | rmdir (path : Path)
  | rename (oldpath newpath : Path)
  | chmod (path : Path) (mode : BitVec 32)
  | chown (path : Path) (uid gid : BitVec 32)
  | truncate (path : Path) (length : Int)
  | ftruncate (fd length : Int)
  | close (fd : Int)
  | read (fd : Int) (count : Nat)
  | write (fd : Int) (buf : List UInt8)
  | lseek (fd offset whence : Int)
  | readAt (fd : Int) (count : Nat) (offset : Int)
  | writeAt (fd : Int) (buf : List UInt8) (offset : Int)

/-- An outcome without bytes. -/
def plain (r : Memfs × Int) : Memfs × Reply := (r.1, ⟨r.2, []⟩)

/-- One call by a process; what `vfs_stat` writes to its `struct stat` is `vfsStat`. -/
def vfsCall (d : Drivers) (c : Caller) (m : Memfs) : VfsCall → Option (Memfs × Reply)
  | .open path flags => some (plain (vfsOpen d c m path flags))
  | .stat path => some (m, ⟨if (vfsStat (d.vfs m.files) c.root path).isSome then 0 else -1, []⟩)
  | .mkdir path mode => some (plain (vfsMkdir d c m path mode))
  | .unlink path => some (plain (vfsUnlink d c m path))
  | .rmdir path => some (plain (vfsRmdir d c m path))
  | .rename oldpath newpath => some (plain (vfsRename d c m oldpath newpath))
  | .chmod path mode => some (plain (vfsChmod d c m path mode))
  | .chown path uid gid => some (plain (vfsChown c m path uid gid))
  | .truncate path length => (vfsTruncate d c m path length).map plain
  | .ftruncate fd length => (vfsFtruncate d m fd length).map plain
  | .close fd => some (vfsClose d m fd)
  | .read fd count => vfsRead d m fd count
  | .write fd buf => vfsWrite d m fd buf
  | .lseek fd offset whence => some (vfsLseek d m fd offset whence)
  | .readAt fd count offset => vfsReadAt d m fd count offset
  | .writeAt fd buf offset => vfsWriteAt d m fd buf offset

/-- One call of a run: by whom, and what the other file systems answer to it. -/
structure VfsStep where
  drivers : Drivers
  caller : Caller
  call : VfsCall

/-- memfs after a step. -/
def vfsStep (m : Memfs) (s : VfsStep) : Option Memfs :=
  (vfsCall s.drivers s.caller m s.call).map (·.1)

theorem vfsStep_of_call {m : Memfs} {r : Memfs × Reply} (s : VfsStep)
    (h : vfsCall s.drivers s.caller m s.call = some r) : vfsStep m s = some r.1 := by
  rw [vfsStep, h]
  rfl

-- ---------------------------------------------------------------------------
-- Accesses that stay inside the data array
-- ---------------------------------------------------------------------------

/-- The descriptor stands for the regular memfs file `i`. -/
def fileOf (m : Memfs) (fd : Int) (i : Fin maxFiles) : Prop :=
  otherFd fd = false ∧ fdNode m fd = some i ∧ (m.files i).isDir = false

instance (m : Memfs) (fd : Int) (i : Fin maxFiles) : Decidable (fileOf m fd i) :=
  inferInstanceAs (Decidable (_ ∧ _ ∧ _))

/-- A read of `count` bytes at `off` stays inside the array. -/
def readInside (f : MemFile) (off count : Nat) : Prop :=
  f.size ≤ off ∨ off + min count (f.size - off) ≤ maxFileSize

instance (f : MemFile) (off count : Nat) : Decidable (readInside f off count) :=
  inferInstanceAs (Decidable (_ ∨ _))

/-- The call does not access memory outside a data array. -/
def staysInside (c : Caller) (m : Memfs) : VfsCall → Prop
  | .truncate path length => ∀ i, 0 ≤ length → length ≤ maxFileSize → underTmp path = false →
      memfsResolvePath m.files c.root path = some i → (m.files i).isDir = false →
      (m.files i).size ≤ maxFileSize
  | .ftruncate fd length => ∀ i, 0 ≤ length → length ≤ maxFileSize → fileOf m fd i →
      (m.files i).size ≤ maxFileSize
  | .read fd count => ∀ i, fileOf m fd i → readInside (m.files i) (m.offsets i) count
  | .readAt fd count offset => ∀ i, fileOf m fd i → readInside (m.files i) (sizeT offset) count
  | .write fd _ => ∀ i, fileOf m fd i → writeOffset m i ≤ maxFileSize
  | .writeAt fd _ offset => ∀ i, fileOf m fd i → sizeT offset ≤ maxFileSize
  | _ => True

theorem readNode_some {f : MemFile} {off count : Nat} (h : readInside f off count) :
    ∃ bs, readNode f off count = some bs := by
  unfold readNode
  by_cases hsize : f.size ≤ off
  · exact ⟨[], if_pos hsize⟩
  · have := h.resolve_left hsize
    exact ⟨_, by rw [if_neg hsize, if_pos this]⟩

theorem writeEnd_eq {off : Nat} (len : Nat) (h : off ≤ maxFileSize) :
    writeEnd off len = off + min len maxFileSize := by
  unfold writeEnd sizeT
  simp only [maxFileSize] at h ⊢
  omega

/-- From a position in the array on, a write transfers what fits. -/
theorem writeCount_eq {off : Nat} (len : Nat) (h : off ≤ maxFileSize) :
    writeCount off len = min (min len maxFileSize) (maxFileSize - off) := by
  have hroom : sizeT ((maxFileSize : Int) - off) = maxFileSize - off := by
    unfold sizeT
    simp only [maxFileSize] at h ⊢
    omega
  unfold writeCount
  rw [writeEnd_eq _ h, hroom]
  split_ifs <;> omega

-- ---------------------------------------------------------------------------
-- What a call on a descriptor does to memfs
-- ---------------------------------------------------------------------------

theorem fdNode_eq_some {m : Memfs} {fd : Int} {i : Fin maxFiles} :
    fdNode m fd = some i ↔ fd = memfsFd i ∧ (m.files i).live := by
  rw [fdNode, Option.filter_eq_some_iff, fileIdx_eq_some, memfsFd]
  constructor <;> rintro ⟨h, hlive⟩ <;> exact ⟨by omega, hlive⟩

theorem vfsRead_cases (d : Drivers) (m : Memfs) (fd : Int) (count : Nat) :
    (∃ r, vfsRead d m fd count = some (m, r) ∧ (otherFd fd ∨ r.bytes = [])) ∨
    ∃ i, fileOf m fd i ∧ vfsRead d m fd count =
      (readNode (m.files i) (m.offsets i) count).map fun bs =>
        ({ m with offsets := Function.update m.offsets i (m.offsets i + bs.length) },
          ⟨bs.length, bs⟩) := by
  unfold vfsRead
  split
  · rename_i hother
    exact .inl ⟨_, rfl, .inl hother⟩
  rename_i hother
  cases hfd : fdNode m fd with
  | none => exact .inl ⟨_, rfl, .inr rfl⟩
  | some i =>
    dsimp only
    split
    · exact .inl ⟨_, rfl, .inr rfl⟩
    rename_i hdir
    split
    · exact .inl ⟨_, rfl, .inr rfl⟩
    · exact .inr ⟨i, ⟨by simpa using hother, hfd, by simpa using hdir⟩, rfl⟩

theorem vfsReadAt_cases (d : Drivers) (m : Memfs) (fd offset : Int) (count : Nat) :
    (∃ r, vfsReadAt d m fd count offset = some (m, r) ∧ (otherFd fd ∨ r.bytes = [])) ∨
    ∃ i, fileOf m fd i ∧ vfsReadAt d m fd count offset =
      (readNode (m.files i) (sizeT offset) count).map fun bs => (m, ⟨bs.length, bs⟩) := by
  unfold vfsReadAt
  split
  · rename_i hother
    exact .inl ⟨_, rfl, .inl hother⟩
  rename_i hother
  cases hfd : fdNode m fd with
  | none => exact .inl ⟨_, rfl, .inr rfl⟩
  | some i =>
    dsimp only
    split
    · exact .inl ⟨_, rfl, .inr rfl⟩
    rename_i hdir
    exact .inr ⟨i, ⟨by simpa using hother, hfd, by simpa using hdir⟩, rfl⟩

theorem vfsWrite_cases {m : Memfs} {fd : Int} (d : Drivers) (buf : List UInt8)
    (hin : ∀ i, fileOf m fd i → writeOffset m i ≤ maxFileSize) :
    (∃ r, vfsWrite d m fd buf = some (m, r) ∧ (otherFd fd ∨ r.bytes = [])) ∨
    ∃ i, fileOf m fd i ∧ ¬ writeFull (writeOffset m i) buf.length ∧ vfsWrite d m fd buf =
      some ({ m with
        files := setNode m.files i (writeNode (writeOffset m i) buf)
        offsets := Function.update m.offsets i
          (writeOffset m i + writeCount (writeOffset m i) buf.length) },
        ⟨writeCount (writeOffset m i) buf.length, []⟩) := by
  unfold vfsWrite
  split
  · rename_i hother
    exact .inl ⟨_, rfl, .inl hother⟩
  rename_i hother
  cases hfd : fdNode m fd with
  | none => exact .inl ⟨_, rfl, .inr rfl⟩
  | some i =>
    dsimp only
    split
    · exact .inl ⟨_, rfl, .inr rfl⟩
    rename_i hdir
    have hfile : fileOf m fd i := ⟨by simpa using hother, hfd, by simpa using hdir⟩
    split
    · exact .inl ⟨_, rfl, .inr rfl⟩
    rename_i hfull
    refine .inr ⟨i, hfile, hfull, if_pos ?_⟩
    have hoff := hin i hfile
    rw [writeCount_eq _ hoff]
    omega

theorem vfsWriteAt_cases {m : Memfs} {fd offset : Int} (d : Drivers) (buf : List UInt8)
    (hin : ∀ i, fileOf m fd i → sizeT offset ≤ maxFileSize) :
    (∃ r, vfsWriteAt d m fd buf offset = some (m, r) ∧ (otherFd fd ∨ r.bytes = [])) ∨
    ∃ i, fileOf m fd i ∧ ¬ writeFull (sizeT offset) buf.length ∧
      vfsWriteAt d m fd buf offset =
      some ({ m with files := setNode m.files i (writeNode (sizeT offset) buf) },
        ⟨writeCount (sizeT offset) buf.length, []⟩) := by
  unfold vfsWriteAt
  split
  · rename_i hother
    exact .inl ⟨_, rfl, .inl hother⟩
  rename_i hother
  cases hfd : fdNode m fd with
  | none => exact .inl ⟨_, rfl, .inr rfl⟩
  | some i =>
    dsimp only
    split
    · exact .inl ⟨_, rfl, .inr rfl⟩
    rename_i hdir
    have hfile : fileOf m fd i := ⟨by simpa using hother, hfd, by simpa using hdir⟩
    split
    · exact .inl ⟨_, rfl, .inr rfl⟩
    rename_i hfull
    refine .inr ⟨i, hfile, hfull, if_pos ?_⟩
    have hoff := hin i hfile
    rw [writeCount_eq _ hoff]
    omega

theorem vfsLseek_cases (d : Drivers) (m : Memfs) (fd offset whence : Int) :
    (∃ r, vfsLseek d m fd offset whence = (m, r) ∧ (otherFd fd ∨ r.bytes = [])) ∨
    ∃ i off, fdNode m fd = some i ∧ vfsLseek d m fd offset whence
      = ({ m with offsets := Function.update m.offsets i off }, ⟨off, []⟩) := by
  unfold vfsLseek
  split
  · rename_i hother
    exact .inl ⟨_, rfl, .inl hother⟩
  cases hfd : fdNode m fd with
  | none => exact .inl ⟨_, rfl, .inr rfl⟩
  | some i =>
    dsimp only
    split
    · exact .inl ⟨_, rfl, .inr rfl⟩
    · rename_i base _
      split
      · exact .inl ⟨_, rfl, .inr rfl⟩
      · rename_i hneg
        exact .inr ⟨i, (offT (base + offset)).toNat, rfl,
          by rw [Int.toNat_of_nonneg (by omega)]⟩

/-- The state after `vfs_truncate` or `vfs_ftruncate` of a regular file. -/
def truncated (m : Memfs) (i : Fin maxFiles) (len : Nat) : Memfs :=
  { m with
    files := setNode m.files i (resizeNode len)
    offsets := Function.update m.offsets i (min (m.offsets i) len) }

theorem vfsTruncate_cases {d : Drivers} {c : Caller} {m : Memfs} {path : Path} {length : Int}
    (hin : staysInside c m (.truncate path length)) :
    (∃ r, vfsTruncate d c m path length = some (m, r)) ∨
    ∃ i, memfsResolvePath m.files c.root path = some i ∧ (m.files i).isDir = false ∧
      length ≤ maxFileSize ∧
      vfsTruncate d c m path length = some (truncated m i length.toNat, 0) := by
  unfold vfsTruncate
  split
  · exact .inl ⟨_, rfl⟩
  split
  · exact .inl ⟨_, rfl⟩
  split
  · exact .inl ⟨_, rfl⟩
  split
  · exact .inl ⟨_, rfl⟩
  rename_i hneg htmp hmax
  cases hres : memfsResolvePath m.files c.root path with
  | none => exact .inl ⟨_, rfl⟩
  | some i =>
    dsimp only [truncateNode]
    split
    · exact .inl ⟨_, rfl⟩
    rename_i hdir
    have hfile : (m.files i).isDir = false := by simpa using hdir
    have hsize := hin i (by omega) (by omega) (by simpa using htmp) hres hfile
    exact .inr ⟨i, rfl, hfile, by omega, by rw [if_neg (by omega)]; rfl⟩

theorem vfsFtruncate_cases {d : Drivers} {c : Caller} {m : Memfs} {fd length : Int}
    (hin : staysInside c m (.ftruncate fd length)) :
    (∃ r, vfsFtruncate d m fd length = some (m, r)) ∨
    ∃ i, fileOf m fd i ∧ length ≤ maxFileSize ∧
      vfsFtruncate d m fd length = some (truncated m i length.toNat, 0) := by
  unfold vfsFtruncate
  split
  · exact .inl ⟨_, rfl⟩
  split
  · exact .inl ⟨_, rfl⟩
  split
  · exact .inl ⟨_, rfl⟩
  rename_i hneg hother hmax
  cases hfd : fdNode m fd with
  | none => exact .inl ⟨_, rfl⟩
  | some i =>
    dsimp only [truncateNode]
    split
    · exact .inl ⟨_, rfl⟩
    rename_i hdir
    have hfile : fileOf m fd i := ⟨by simpa using hother, hfd, by simpa using hdir⟩
    have hsize := hin i (by omega) (by omega) hfile
    exact .inr ⟨i, hfile, by omega, by rw [if_neg (by omega)]; rfl⟩

end Lestra
