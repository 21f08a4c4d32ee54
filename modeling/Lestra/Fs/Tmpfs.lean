import Lestra.Fs.FileIo

/-!
# tmpfs

The file system of `kernel/fs/tmpfs.c` at `/tmp`: inodes with an allocated buffer each, and
a table of handles. An entry of either table whose `used` is 0 is `none`, and so is the
`inode_idx` of a directory handle. The outcome `none` of an operation is an access outside
the buffer of a file.
-/

namespace Lestra

def tmpfsMaxOpen : Nat := 100

def tmpfsMaxFiles : Nat := 64

def tmpfsMaxFileSize : Nat := 65536

def tmpfsFdBase : Int := 500

/-- `struct tmpfs_inode` of a used inode; `data` is `none` for a null pointer. -/
structure TmpInode where
  name : List UInt8
  size : Nat
  data : Option (List UInt8)
  refcount : Int
deriving Inhabited

/-- `struct tmpfs_open` of a used handle. -/
structure TmpOpen where
  inodeIdx : Option (Fin tmpfsMaxFiles)
  pos : Nat
  flags : BitVec 32
  isDir : Bool
deriving Inhabited

structure Tmpfs where
  inodes : Fin tmpfsMaxFiles → Option TmpInode
  opens : Fin tmpfsMaxOpen → Option TmpOpen

/-- `tmpfs_init` -/
def tmpfsInit : Tmpfs := ⟨fun _ => none, fun _ => none⟩

def Tmpfs.setInode (t : Tmpfs) (i : Fin tmpfsMaxFiles) (n : Option TmpInode) : Tmpfs :=
  { t with inodes := Function.update t.inodes i n }

def Tmpfs.setOpen (t : Tmpfs) (h : Fin tmpfsMaxOpen) (o : Option TmpOpen) : Tmpfs :=
  { t with opens := Function.update t.opens h o }

-- ---------------------------------------------------------------------------
-- Lookup
-- ---------------------------------------------------------------------------

/-- `"/tmp"` -/
def tmpDir : Path := [47, 116, 109, 112]

/-- The name below `/tmp` that a path stands for. -/
def tmpName (path : Path) : Path :=
  if (tmpDir ++ [slash]).isPrefixOf path then path.drop 5 else path

/-- `find_inode` -/
def findInode (t : Tmpfs) (path : Path) : Option (Fin tmpfsMaxFiles) :=
  if path = tmpDir then none
  else (List.finRange tmpfsMaxFiles).find? fun i =>
    (t.inodes i).any fun n => n.name = tmpName path

/-- `alloc_inode`, where `fresh` is the memory that `kmalloc` returns, with its contents. -/
def allocInode (t : Tmpfs) (fresh : Option (List UInt8)) (path : Path) :
    Option (Tmpfs × Fin tmpfsMaxFiles) :=
  match (List.finRange tmpfsMaxFiles).find? fun i => (t.inodes i).isNone with
  | none => none
  | some i =>
    fresh.map fun data =>
      (t.setInode i (some ⟨(tmpName path).take (maxNameLen - 1), 0, some data, 0⟩), i)

/-- The first free handle. -/
def freeOpen (t : Tmpfs) : Option (Fin tmpfsMaxOpen) :=
  (List.finRange tmpfsMaxOpen).find? fun h => (t.opens h).isNone

/-- The used handle of a descriptor. -/
def tmpHandle (t : Tmpfs) (fd : Int) : Option (Fin tmpfsMaxOpen × TmpOpen) :=
  if h : 0 ≤ fd - tmpfsFdBase ∧ fd - tmpfsFdBase < tmpfsMaxOpen then
    let i : Fin tmpfsMaxOpen := ⟨(fd - tmpfsFdBase).toNat, by omega⟩
    (t.opens i).map fun o => (i, o)
  else none

/-- The used inode that a handle refers to. -/
def handleInode (t : Tmpfs) (o : TmpOpen) : Option (Fin tmpfsMaxFiles × TmpInode) :=
  o.inodeIdx.bind fun i => (t.inodes i).map fun n => (i, n)

-- ---------------------------------------------------------------------------
-- open and close
-- ---------------------------------------------------------------------------

/-- The inode that `tmpfs_open` works on: the one of that name, or a new one. -/
def openInode (t : Tmpfs) (fresh : Option (List UInt8)) (path : Path) (flags : BitVec 32) :
    Option (Tmpfs × Fin tmpfsMaxFiles) :=
  match findInode t path with
  | some i => some (t, i)
  | none => if hasFlag flags oCreat then allocInode t fresh path else none

/-- `O_TRUNC` on an inode that has its buffer. -/
def truncOpened (flags : BitVec 32) (n : TmpInode) : TmpInode :=
  if hasFlag flags oTrunc ∧ n.data.isSome then { n with size := 0 } else n

/-- `tmpfs_open` -/
def tmpfsOpen (t : Tmpfs) (fresh : Option (List UInt8)) (path : Path) (flags : BitVec 32) :
    Tmpfs × Int :=
  if path = tmpDir ∨ path = tmpDir ++ [slash] then
    match freeOpen t with
    | some h => (t.setOpen h (some ⟨none, 0, flags, true⟩), h + tmpfsFdBase)
    | none => (t, -1)
  else
    match openInode t fresh path flags with
    | none => (t, -1)
    | some (t, i) =>
      let n := truncOpened flags ((t.inodes i).getD default)
      match freeOpen t with
      -- the inode stays created or cut although no handle is left
      | none => (t.setInode i (some n), -1)
      | some h =>
        ((t.setInode i (some { n with refcount := n.refcount + 1 })).setOpen h
          (some ⟨some i, if hasFlag flags oAppend then n.size else 0, flags, false⟩),
          h + tmpfsFdBase)

/-- `tmpfs_close` -/
def tmpfsClose (t : Tmpfs) (fd : Int) : Tmpfs × Int :=
  match tmpHandle t fd with
  | none => (t, -1)
  | some (h, o) =>
    if o.isDir then (t.setOpen h none, 0)
    else
      match handleInode t o with
      | none => (t.setOpen h none, 0)
      | some (i, n) =>
        ((t.setInode i (some { n with refcount := n.refcount - 1 })).setOpen h none, 0)

-- ---------------------------------------------------------------------------
-- Input and output
-- ---------------------------------------------------------------------------

/-- `-EFAULT` -/
def tmpfsBadAddress : Int := -14

/-- The bytes that a read of `n` bytes at `pos` copies from the buffer. -/
def tmpLoad (n : TmpInode) (pos count : Nat) : Option (List UInt8) :=
  match n.data with
  | some data =>
    if pos + count ≤ tmpfsMaxFileSize then some (ByteBuf.load data pos count) else none
  | none => if count = 0 then some [] else none

/-- `tmpfs_read`; `buf` says that the caller gives a buffer. -/
def tmpfsRead (t : Tmpfs) (fd : Int) (buf : Bool) (count : Nat) : Option (Tmpfs × Reply) :=
  match tmpHandle t fd with
  | none => some (t, ⟨-1, []⟩)
  | some (h, o) =>
    if !buf then some (t, ⟨tmpfsBadAddress, []⟩)
    else
      match handleInode t o with
      | none => some (t, ⟨-1, []⟩)
      | some (_, n) =>
        if n.size ≤ o.pos then some (t, ⟨0, []⟩)
        else
          (tmpLoad n o.pos (min count (n.size - o.pos))).map fun bs =>
            (t.setOpen h (some { o with pos := o.pos + bs.length }), ⟨bs.length, bs⟩)

/-- Where `tmpfs_write` starts. -/
def tmpWritePos (o : TmpOpen) (n : TmpInode) : Nat :=
  if hasFlag o.flags oAppend then n.size else o.pos

/-- `count` of `tmpfs_write`, after the cap. -/
def tmpWriteCount (pos len : Nat) : Nat :=
  if tmpfsMaxFileSize < sizeT (pos + len : Nat) then tmpfsMaxFileSize - pos else len

/-- `tmpfs_write`; a caller without a buffer is `none`. -/
def tmpfsWrite (t : Tmpfs) (fd : Int) (buf : Option (List UInt8)) : Option (Tmpfs × Int) :=
  match tmpHandle t fd with
  | none => some (t, -1)
  | some (h, o) =>
    match buf with
    | none => some (t, tmpfsBadAddress)
    | some buf =>
      match handleInode t o with
      | none => some (t, -1)
      | some (i, n) =>
        let pos := tmpWritePos o n
        let count := tmpWriteCount pos buf.length
        if count = 0 then some (t.setOpen h (some { o with pos }), 0)
        else
          match n.data with
          | none => none
          | some data =>
            if tmpfsMaxFileSize < pos + count then none
            else
              some ((t.setInode i (some { n with
                  data := some (ByteBuf.store data pos (buf.take count))
                  size := max n.size (pos + count) })).setOpen h
                (some { o with pos := pos + count }), count)

/-- The value of an `int`. -/
def intT (x : Int) : Int := x.bmod (2 ^ 32)

/-- `base` of `tmpfs_lseek`. -/
def tmpSeekBase (o : TmpOpen) (n : TmpInode) (whence : Int) : Option Int :=
  if whence = 0 then some 0
  else if whence = 1 then some (offT o.pos)
  else if whence = 2 then some (offT n.size)
  else none

/-- `tmpfs_lseek` -/
def tmpfsLseek (t : Tmpfs) (fd offset whence : Int) : Tmpfs × Int :=
  match tmpHandle t fd with
  | none => (t, -1)
  | some (h, o) =>
    match handleInode t o with
    | none => (t, -1)
    | some (_, n) =>
      match tmpSeekBase o n whence with
      | none => (t, -1)
      | some base =>
        let newOff := offT (base + offset)
        if newOff < 0 then (t, -1)
        else (t.setOpen h (some { o with pos := newOff.toNat }), intT newOff)

/-- `tmpfs_read_at` -/
def tmpfsReadAt (t : Tmpfs) (fd : Int) (buf : Bool) (count : Nat) (offset : Int) :
    Option (Tmpfs × Reply) :=
  match tmpHandle t fd with
  | none => some (t, ⟨-1, []⟩)
  | some (_, o) =>
    if !buf then some (t, ⟨tmpfsBadAddress, []⟩)
    else
      match handleInode t o with
      | none => some (t, ⟨-1, []⟩)
      | some (_, n) =>
        if n.size ≤ sizeT offset then some (t, ⟨0, []⟩)
        else
          (tmpLoad n (sizeT offset) (min count (n.size - sizeT offset))).map fun bs =>
            (t, ⟨bs.length, bs⟩)

-- ---------------------------------------------------------------------------
-- unlink and truncate
-- ---------------------------------------------------------------------------

/-- `tmpfs_unlink` -/
def tmpfsUnlink (t : Tmpfs) (path : Path) : Tmpfs × Int :=
  match findInode t path with
  | none => (t, -1)
  | some i =>
    if (t.inodes i).any fun n => 0 < n.refcount then (t, -1) else (t.setInode i none, 0)

/-- The inode cut or extended to `len` bytes. -/
def resizeInode (len : Nat) (n : TmpInode) : TmpInode :=
  { n with
    data := n.data.map fun data =>
      if n.size < len then ByteBuf.zero data n.size (len - n.size)
      else ByteBuf.zero data len (n.size - len)
    size := len }

/-- The end of `tmpfs_truncate` and `tmpfs_ftruncate`: no handle stays past the end. -/
def truncateInode (t : Tmpfs) (i : Fin tmpfsMaxFiles) (n : TmpInode) (len : Nat) :
    Option (Tmpfs × Int) :=
  if tmpfsMaxFileSize < n.size then none
  else
    some (⟨Function.update t.inodes i (some (resizeInode len n)), fun h =>
      (t.opens h).map fun o => if o.inodeIdx = some i then { o with pos := min o.pos len } else o⟩,
      0)

/-- `tmpfs_truncate` -/
def tmpfsTruncate (t : Tmpfs) (path : Path) (length : Int) : Option (Tmpfs × Int) :=
  if length < 0 ∨ tmpfsMaxFileSize < length then some (t, -1)
  else
    match findInode t path with
    | none => some (t, -1)
    | some i =>
      match t.inodes i with
      | none => some (t, -1)
      | some n => truncateInode t i n length.toNat

/-- `tmpfs_ftruncate` -/
def tmpfsFtruncate (t : Tmpfs) (fd length : Int) : Option (Tmpfs × Int) :=
  if length < 0 ∨ tmpfsMaxFileSize < length then some (t, -1)
  else
    match tmpHandle t fd with
    | none => some (t, -1)
    | some (_, o) =>
      if o.isDir then some (t, -1)
      else
        match handleInode t o with
        | none => some (t, -1)
        | some (i, n) => truncateInode t i n length.toNat

-- ---------------------------------------------------------------------------
-- One operation
-- ---------------------------------------------------------------------------

/-- The operations of tmpfs; `fresh` of an open is what `kmalloc` returns in it. -/
inductive TmpCall where
  | open (fresh : Option (List UInt8)) (path : Path) (flags : BitVec 32)
  | close (fd : Int)
  | read (fd : Int) (buf : Bool) (count : Nat)
  | write (fd : Int) (buf : Option (List UInt8))
  | lseek (fd offset whence : Int)
  | readAt (fd : Int) (buf : Bool) (count : Nat) (offset : Int)
  | unlink (path : Path)
  | truncate (path : Path) (length : Int)
  | ftruncate (fd length : Int)

def tmpCall (t : Tmpfs) : TmpCall → Option (Tmpfs × Reply)
  | .open fresh path flags => let r := tmpfsOpen t fresh path flags; some (r.1, ⟨r.2, []⟩)
  | .close fd => let r := tmpfsClose t fd; some (r.1, ⟨r.2, []⟩)
  | .read fd buf count => tmpfsRead t fd buf count
  | .write fd buf => (tmpfsWrite t fd buf).map fun r => (r.1, ⟨r.2, []⟩)
  | .lseek fd offset whence => let r := tmpfsLseek t fd offset whence; some (r.1, ⟨r.2, []⟩)
  | .readAt fd buf count offset => tmpfsReadAt t fd buf count offset
  | .unlink path => let r := tmpfsUnlink t path; some (r.1, ⟨r.2, []⟩)
  | .truncate path length => (tmpfsTruncate t path length).map fun r => (r.1, ⟨r.2, []⟩)
  | .ftruncate fd length => (tmpfsFtruncate t fd length).map fun r => (r.1, ⟨r.2, []⟩)

def tmpStep (t : Tmpfs) (call : TmpCall) : Option Tmpfs := (tmpCall t call).map (·.1)

-- ---------------------------------------------------------------------------
-- What the searches find
-- ---------------------------------------------------------------------------

section
variable {t t' : Tmpfs} {fd : Int} {path : Path} {flags : BitVec 32}
  {fresh : Option (List UInt8)} {i : Fin tmpfsMaxFiles} {h : Fin tmpfsMaxOpen} {o : TmpOpen}
  {n : TmpInode}

theorem tmpHandle_eq_some :
    tmpHandle t fd = some (h, o) ↔ fd = h + tmpfsFdBase ∧ t.opens h = some o := by
  unfold tmpHandle
  constructor
  · intro heq
    split at heq
    · obtain ⟨o', ho', hpair⟩ := Option.map_eq_some_iff.mp heq
      obtain ⟨rfl, rfl⟩ := Prod.mk.inj hpair
      refine ⟨?_, ho'⟩
      simp only
      omega
    · exact absurd heq (by simp)
  · rintro ⟨rfl, ho⟩
    have hlt := h.isLt
    have hidx : ∀ hn, (⟨((h : Int) + tmpfsFdBase - tmpfsFdBase).toNat, hn⟩ : Fin tmpfsMaxOpen) = h :=
      fun hn => Fin.ext (by simp only; omega)
    rw [dif_pos (by omega)]
    dsimp only
    rw [hidx, ho, Option.map_some]

theorem handleInode_eq_some :
    handleInode t o = some (i, n) ↔ o.inodeIdx = some i ∧ t.inodes i = some n := by
  simp only [handleInode, Option.bind_eq_some_iff, Option.map_eq_some_iff, Prod.mk.injEq]
  constructor
  · rintro ⟨j, hj, n', hn', rfl, rfl⟩
    exact ⟨hj, hn'⟩
  · rintro ⟨hi, hn⟩
    exact ⟨i, hi, n, hn, rfl, rfl⟩

theorem freeOpen_eq_some (hfree : freeOpen t = some h) : t.opens h = none := by
  simpa using List.find?_some hfree

theorem findInode_used (hfind : findInode t path = some i) : ∃ n, t.inodes i = some n := by
  unfold findInode at hfind
  split at hfind
  · exact absurd hfind (by simp)
  · have hany := List.find?_some hfind
    obtain ⟨n, hn, -⟩ := (Option.any_eq_true _ _).mp hany
    exact ⟨n, hn⟩

theorem allocInode_eq_some (halloc : allocInode t fresh path = some (t', i)) :
    t.inodes i = none ∧ ∃ data, fresh = some data ∧
      t' = t.setInode i (some ⟨(tmpName path).take (maxNameLen - 1), 0, some data, 0⟩) := by
  unfold allocInode at halloc
  split at halloc
  · exact absurd halloc (by simp)
  · rename_i j hj
    obtain ⟨data, hfresh, hpair⟩ := Option.map_eq_some_iff.mp halloc
    obtain ⟨rfl, rfl⟩ := Prod.mk.inj hpair
    exact ⟨by simpa using List.find?_some hj, data, hfresh, rfl⟩

theorem openInode_cases (hopen : openInode t fresh path flags = some (t', i)) :
    (t' = t ∧ findInode t path = some i) ∨
    (findInode t path = none ∧ hasFlag flags oCreat ∧
      allocInode t fresh path = some (t', i)) := by
  unfold openInode at hopen
  split at hopen
  · rename_i j hj
    obtain ⟨rfl, rfl⟩ := Prod.mk.inj (Option.some.inj hopen)
    exact .inl ⟨rfl, hj⟩
  · rename_i hnone
    split at hopen
    · rename_i hflag
      exact .inr ⟨hnone, hflag, hopen⟩
    · exact absurd hopen (by simp)

-- ---------------------------------------------------------------------------
-- What an operation can do
-- ---------------------------------------------------------------------------

variable {count : Nat} {buf : Bool} {offset whence : Int}

theorem tmpfsOpen_cases (t : Tmpfs) (fresh : Option (List UInt8)) (path : Path)
    (flags : BitVec 32) :
    (tmpfsOpen t fresh path flags = (t, -1) ∧
      ((path = tmpDir ∨ path = tmpDir ++ [slash]) ∨ openInode t fresh path flags = none)) ∨
    (∃ h, (path = tmpDir ∨ path = tmpDir ++ [slash]) ∧ freeOpen t = some h ∧
      tmpfsOpen t fresh path flags
      = (t.setOpen h (some ⟨none, 0, flags, true⟩), h + tmpfsFdBase)) ∨
    ∃ t₁ i, ¬ (path = tmpDir ∨ path = tmpDir ++ [slash]) ∧
      openInode t fresh path flags = some (t₁, i) ∧
      let n := truncOpened flags ((t₁.inodes i).getD default)
      (freeOpen t₁ = none ∧
        tmpfsOpen t fresh path flags = (t₁.setInode i (some n), -1)) ∨
      ∃ h, freeOpen t₁ = some h ∧ tmpfsOpen t fresh path flags
        = ((t₁.setInode i (some { n with refcount := n.refcount + 1 })).setOpen h
          (some ⟨some i, if hasFlag flags oAppend then n.size else 0, flags, false⟩),
          h + tmpfsFdBase) := by
  unfold tmpfsOpen
  split
  · rename_i hdir
    cases hfree : freeOpen t with
    | none => exact .inl ⟨rfl, .inl hdir⟩
    | some h => exact .inr (.inl ⟨h, hdir, rfl, rfl⟩)
  · rename_i hdir
    cases hopen : openInode t fresh path flags with
    | none => exact .inl ⟨rfl, .inr rfl⟩
    | some p =>
      refine .inr (.inr ⟨p.1, p.2, hdir, rfl, ?_⟩)
      dsimp only
      cases hfree : freeOpen p.1 with
      | none => exact .inl ⟨rfl, rfl⟩
      | some h => exact .inr ⟨h, rfl, rfl⟩

theorem tmpfsClose_cases (t : Tmpfs) (fd : Int) :
    tmpfsClose t fd = (t, -1) ∨
    ∃ h o, tmpHandle t fd = some (h, o) ∧
      ((tmpfsClose t fd = (t.setOpen h none, 0) ∧ (o.isDir ∨ handleInode t o = none)) ∨
      ∃ i n, o.isDir = false ∧ handleInode t o = some (i, n) ∧ tmpfsClose t fd
        = ((t.setInode i (some { n with refcount := n.refcount - 1 })).setOpen h none, 0)) := by
  unfold tmpfsClose
  cases hhandle : tmpHandle t fd with
  | none => exact .inl rfl
  | some p =>
    refine .inr ⟨p.1, p.2, rfl, ?_⟩
    dsimp only
    split
    · rename_i hdir
      exact .inl ⟨rfl, .inl hdir⟩
    · rename_i hdir
      cases hinode : handleInode t p.2 with
      | none => exact .inl ⟨rfl, .inr rfl⟩
      | some q => exact .inr ⟨q.1, q.2, by simpa using hdir, rfl, rfl⟩

theorem tmpfsRead_cases (t : Tmpfs) (fd : Int) (buf : Bool) (count : Nat) :
    (∃ ret, tmpfsRead t fd buf count = some (t, ⟨ret, []⟩)) ∨
    ∃ h o i n, tmpHandle t fd = some (h, o) ∧ handleInode t o = some (i, n) ∧ o.pos < n.size ∧
      tmpfsRead t fd buf count = (tmpLoad n o.pos (min count (n.size - o.pos))).map fun bs =>
        (t.setOpen h (some { o with pos := o.pos + bs.length }), ⟨bs.length, bs⟩) := by
  unfold tmpfsRead
  cases hhandle : tmpHandle t fd with
  | none => exact .inl ⟨_, rfl⟩
  | some p =>
    dsimp only
    split
    · exact .inl ⟨_, rfl⟩
    · cases hinode : handleInode t p.2 with
      | none => exact .inl ⟨_, rfl⟩
      | some q =>
        dsimp only
        split
        · exact .inl ⟨_, rfl⟩
        · exact .inr ⟨p.1, p.2, q.1, q.2, rfl, hinode, by omega, rfl⟩

theorem tmpfsReadAt_cases (t : Tmpfs) (fd : Int) (buf : Bool) (count : Nat) (offset : Int) :
    (∃ ret, tmpfsReadAt t fd buf count offset = some (t, ⟨ret, []⟩)) ∨
    ∃ h o i n, tmpHandle t fd = some (h, o) ∧ handleInode t o = some (i, n) ∧
      sizeT offset < n.size ∧ tmpfsReadAt t fd buf count offset
        = (tmpLoad n (sizeT offset) (min count (n.size - sizeT offset))).map fun bs =>
          (t, ⟨bs.length, bs⟩) := by
  unfold tmpfsReadAt
  cases hhandle : tmpHandle t fd with
  | none => exact .inl ⟨_, rfl⟩
  | some p =>
    dsimp only
    split
    · exact .inl ⟨_, rfl⟩
    · cases hinode : handleInode t p.2 with
      | none => exact .inl ⟨_, rfl⟩
      | some q =>
        dsimp only
        split
        · exact .inl ⟨_, rfl⟩
        · exact .inr ⟨p.1, p.2, q.1, q.2, rfl, hinode, by omega, rfl⟩

/-- Without a wrap of `pos + count`, the cap is the room that is left. -/
theorem tmpWriteCount_eq {pos len : Nat}
    (hwrap : ¬ (2 ^ 64 ≤ pos + len ∧ sizeT (pos + len : Nat) ≤ tmpfsMaxFileSize)) :
    tmpWriteCount pos len = min len (tmpfsMaxFileSize - pos) := by
  have hsize : sizeT (pos + len : Nat) = (pos + len) % 2 ^ 64 := by
    unfold sizeT
    omega
  have hmax : tmpfsMaxFileSize = 65536 := rfl
  unfold tmpWriteCount
  rw [hsize] at hwrap ⊢
  split <;> omega

theorem tmpfsWrite_cases (t : Tmpfs) (fd : Int) (buf : Option (List UInt8)) :
    (∃ ret, tmpfsWrite t fd buf = some (t, ret)) ∨
    ∃ bs h o i n, buf = some bs ∧ tmpHandle t fd = some (h, o) ∧
      handleInode t o = some (i, n) := by
  unfold tmpfsWrite
  cases hhandle : tmpHandle t fd with
  | none => exact .inl ⟨_, rfl⟩
  | some p =>
    cases buf with
    | none => exact .inl ⟨_, rfl⟩
    | some bs =>
      cases hinode : handleInode t p.2 with
      | none => exact .inl ⟨-1, by simp only [hinode]⟩
      | some q => exact .inr ⟨bs, p.1, p.2, q.1, q.2, rfl, rfl, hinode⟩

/-- A write whose position does not wrap stays in the buffer. -/
theorem tmpfsWrite_eq {bs data : List UInt8} (hhandle : tmpHandle t fd = some (h, o))
    (hinode : handleInode t o = some (i, n)) (hdata : n.data = some data)
    (hwrap : ¬ (2 ^ 64 ≤ tmpWritePos o n + bs.length ∧
      sizeT (tmpWritePos o n + bs.length : Nat) ≤ tmpfsMaxFileSize)) :
    let pos := tmpWritePos o n
    let count := min bs.length (tmpfsMaxFileSize - pos)
    tmpfsWrite t fd (some bs) =
      if count = 0 then some (t.setOpen h (some { o with pos }), 0)
      else
        some ((t.setInode i (some { n with
            data := some (ByteBuf.store data pos (bs.take count))
            size := max n.size (pos + count) })).setOpen h
          (some { o with pos := pos + count }), (count : Int)) := by
  simp only [tmpfsWrite, hhandle, hinode, hdata, tmpWriteCount_eq hwrap]
  split
  · rfl
  · rw [if_neg (by omega)]

theorem tmpfsLseek_cases (t : Tmpfs) (fd offset whence : Int) :
    tmpfsLseek t fd offset whence = (t, -1) ∨
    ∃ h o i n base, tmpHandle t fd = some (h, o) ∧ handleInode t o = some (i, n) ∧
      tmpSeekBase o n whence = some base ∧ 0 ≤ offT (base + offset) ∧
      tmpfsLseek t fd offset whence
        = (t.setOpen h (some { o with pos := (offT (base + offset)).toNat }),
          intT (offT (base + offset))) := by
  unfold tmpfsLseek
  cases hhandle : tmpHandle t fd with
  | none => exact .inl rfl
  | some p =>
    dsimp only
    cases hinode : handleInode t p.2 with
    | none => exact .inl rfl
    | some q =>
      dsimp only
      cases hbase : tmpSeekBase p.2 q.2 whence with
      | none => exact .inl rfl
      | some base =>
        dsimp only
        split
        · exact .inl rfl
        · exact .inr ⟨p.1, p.2, q.1, q.2, base, rfl, hinode, hbase, by omega, rfl⟩

theorem tmpfsUnlink_cases (t : Tmpfs) (path : Path) :
    tmpfsUnlink t path = (t, -1) ∨
    ∃ i n, findInode t path = some i ∧ t.inodes i = some n ∧ n.refcount ≤ 0 ∧
      tmpfsUnlink t path = (t.setInode i none, 0) := by
  unfold tmpfsUnlink
  cases hfind : findInode t path with
  | none => exact .inl rfl
  | some i =>
    obtain ⟨n, hn⟩ := findInode_used hfind
    dsimp only
    split
    · exact .inl rfl
    · rename_i href
      refine .inr ⟨i, n, rfl, hn, ?_, rfl⟩
      simpa [hn] using href

theorem tmpfsTruncate_cases (t : Tmpfs) (path : Path) (length : Int) :
    tmpfsTruncate t path length = some (t, -1) ∨
    ∃ i n, findInode t path = some i ∧ t.inodes i = some n ∧ 0 ≤ length ∧
      length ≤ tmpfsMaxFileSize ∧
      tmpfsTruncate t path length = truncateInode t i n length.toNat := by
  unfold tmpfsTruncate
  split
  · exact .inl rfl
  · cases hfind : findInode t path with
    | none => exact .inl rfl
    | some i =>
      obtain ⟨n, hn⟩ := findInode_used hfind
      dsimp only
      rw [hn]
      exact .inr ⟨i, n, rfl, hn, by omega, by omega, rfl⟩

theorem tmpfsFtruncate_cases (t : Tmpfs) (fd length : Int) :
    tmpfsFtruncate t fd length = some (t, -1) ∨
    ∃ h o i n, tmpHandle t fd = some (h, o) ∧ handleInode t o = some (i, n) ∧ 0 ≤ length ∧
      length ≤ tmpfsMaxFileSize ∧
      tmpfsFtruncate t fd length = truncateInode t i n length.toNat := by
  unfold tmpfsFtruncate
  split
  · exact .inl rfl
  · cases hhandle : tmpHandle t fd with
    | none => exact .inl rfl
    | some p =>
      dsimp only
      split
      · exact .inl rfl
      · cases hinode : handleInode t p.2 with
        | none => exact .inl rfl
        | some q => exact .inr ⟨p.1, p.2, q.1, q.2, rfl, hinode, by omega, by omega, rfl⟩

end

end Lestra
