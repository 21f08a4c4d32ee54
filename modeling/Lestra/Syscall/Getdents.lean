import Mathlib.Data.List.Perm.Basic
import Lestra.Fs.FileIo
import Lestra.Fs.Nodes
import Lestra.Syscall.Descriptors
import Lestra.Syscall.Uaccess

/-!
# Listing a directory

`vfs_readdir` of `kernel/fs/vfs.c` and `sys_getdents` of `kernel/syscall/syscall.c`. The
position in the directory is kept in the `inode` field of the `struct dirent` that the two
pass between them, and `sys_getdents` clears that structure before every call.

* `sysGetdents_dir` — a call returns the first child as often as the buffer holds it
* `getdents_law_iff` — so only a directory without children is listed right
-/

namespace Lestra

-- ---------------------------------------------------------------------------
-- vfs_readdir
-- ---------------------------------------------------------------------------

/-- `struct dirent`; `inode` is used as a cursor. -/
structure Dirent where
  inode : BitVec 32
  reclen : ℕ
  type : ℕ
  name : List UInt8
deriving DecidableEq, Repr

/-- `sizeof(struct dirent)` -/
def direntSize : ℕ := 72

/-- `memset(&de, 0, sizeof(de))` -/
def zeroDirent : Dirent := ⟨0#32, 0, 0, []⟩

def ftRegular : ℕ := 1

def ftDirectory : ℕ := 2

/-- The entry for the node `i`, with the cursor moved on. -/
def direntOf (m : Memfs) (cursor : ℤ) (i : Fin maxFiles) : Dirent where
  inode := BitVec.ofInt 32 (cursor + 1)
  reclen := direntSize
  type := if (m.files i).isDir then ftDirectory else ftRegular
  name := (m.files i).name.take (maxNameLen - 1)

/-- The child of `dir` at the cursor of `entry`. -/
def readdirNode (m : Memfs) (dir : Fin maxFiles) (entry : Dirent) : Option Dirent :=
  let cursor := entry.inode.toInt
  if cursor < 0 ∨ (m.files dir).children.length ≤ cursor then none
  else
    (((m.files dir).children[cursor.toNat]?.bind fileIdx).filter fun i => (m.files i).live).map
      (direntOf m cursor)

/-- The descriptors that `vfs_readdir` hands to tmpfs, ext2 and FAT32. -/
def otherDirFd (fd : ℤ) : Bool :=
  (100 ≤ fd ∧ fd < 116) || (500 ≤ fd ∧ fd < 600) || (700 ≤ fd ∧ fd < 716)

/-- `vfs_readdir`, where `other` is the one of the file system that `fd` belongs to. What is
not a memfs directory is listed as the root. -/
def vfsReaddir (other : ℤ → Dirent → Option Dirent) (m : Memfs) (fd : ℤ) (entry : Dirent) :
    Option Dirent :=
  if otherDirFd fd then other fd entry
  else
    match (fdNode m fd).filter fun i => (m.files i).isDir with
    | some dir => readdirNode m dir entry
    | none => readdirNode m rootIdx entry

-- ---------------------------------------------------------------------------
-- sys_getdents
-- ---------------------------------------------------------------------------

/-- The loop with room for `n` more entries at the user address `dst`: the entries that are
copied out. -/
def getdentsLoop (readdir : Dirent → Option Dirent) : ℕ → BitVec 64 → Except Int (List Dirent)
  | 0, _ => .ok []
  | n + 1, dst =>
    match readdir zeroDirent with
    | none => .ok []
    | some de =>
      if !copyUserOk dst then .error errBadAddress
      else
        match getdentsLoop readdir n (dst + BitVec.ofNat 64 direntSize) with
        | .error e => .error e
        | .ok des => .ok (de :: des)

def errBadFd : Int := -9

/-- `sys_getdents` of the process `cur`: the entries it writes, whose bytes it returns. It
changes neither the descriptor nor the file system. -/
def sysGetdents (other : ℤ → Dirent → Option Dirent) (m : Memfs) (cur : Option Process)
    (fdNum : ℤ) (dirp count : BitVec 64) : Except Int (List Dirent) :=
  if dirp = 0#64 ∨ count = 0#64 then .error errInvalid
  else if !accessOk dirp count then .error errBadAddress
  else
    match cur with
    | none => .error errBadFd
    | some p =>
      match fdIndex fdNum with
      | none => .error errBadFd
      | some j =>
        if (p.fds j).type = .unused then .error errBadFd
        else if (p.fds j).type ≠ .vfs then .error errInvalid
        else
          getdentsLoop (vfsReaddir other m (p.fds j).resource) (count.toNat / direntSize) dirp

-- ---------------------------------------------------------------------------
-- The law
-- ---------------------------------------------------------------------------

/-- The descriptor `fdNum` of `p` is open on the memfs directory `dir`. -/
structure OpenDir (m : Memfs) (p : Process) (fdNum : ℤ) (dir : Fin maxFiles) : Prop where
  entry : ∃ j, fdIndex fdNum = some j ∧ (p.fds j).type = .vfs ∧ (p.fds j).resource = memfsFd dir
  live : (m.files dir).live = true
  isDir : (m.files dir).isDir = true

/-- A buffer that is accessible and holds at least one entry. -/
def BufferOk (buf : BitVec 64 × BitVec 64) : Prop :=
  accessOk buf.1 buf.2 = true ∧ direntSize ≤ buf.2.toNat

/-- The names of the children, as an entry holds them. -/
def childNames (m : Memfs) (dir : Fin maxFiles) : List (List UInt8) :=
  (m.files dir).children.map fun c =>
    (fileIdx c).elim [] fun i => (m.files i).name.take (maxNameLen - 1)

/-- The first `n` calls return every name exactly once, and the others nothing. -/
def Lists (calls : ℕ → Except Int (List Dirent)) (names : List (List UInt8)) : Prop :=
  ∃ n, ∃ des : ℕ → List Dirent, (∀ k < n, calls k = .ok (des k)) ∧
    List.Perm (((List.range n).flatMap des).map Dirent.name) names ∧ ∀ k ≥ n, calls k = .ok []

/-- Repeated calls list the directory, whatever the buffers. -/
def GetdentsLaw (other : ℤ → Dirent → Option Dirent) (m : Memfs) (p : Process) (fdNum : ℤ)
    (dir : Fin maxFiles) : Prop :=
  ∀ bufs : ℕ → BitVec 64 × BitVec 64, (∀ k, BufferOk (bufs k)) →
    Lists (fun k => sysGetdents other m (some p) fdNum (bufs k).1 (bufs k).2) (childNames m dir)

variable {other : ℤ → Dirent → Option Dirent} {m : Memfs} {p : Process} {fdNum : ℤ}
  {dir : Fin maxFiles}

theorem otherDirFd_memfsFd : ∀ i : Fin maxFiles, otherDirFd (memfsFd i) = false := by decide

/-- The loop never leaves the first entry. -/
theorem getdentsLoop_some {readdir : Dirent → Option Dirent} {de : Dirent}
    (h : readdir zeroDirent = some de) {n : ℕ} {dst : BitVec 64}
    (hdst : 0 < dst.toNat ∧ dst.toNat + n * direntSize ≤ 0x7FFFFFFFFFFF) :
    getdentsLoop readdir n dst = .ok (List.replicate n de) := by
  induction n generalizing dst with
  | zero => rfl
  | succ n ih =>
    unfold direntSize at hdst ih
    have hok : copyUserOk dst = true := by
      simp only [copyUserOk, decide_eq_true_eq]
      refine ⟨?_, ?_⟩
      · rintro rfl
        exact absurd hdst.1 (by decide)
      · rw [BitVec.lt_def]
        simp only [BitVec.toNat_ofNat]
        omega
    have hnext : (dst + BitVec.ofNat 64 direntSize).toNat = dst.toNat + 72 := by
      rw [BitVec.toNat_add, BitVec.toNat_ofNat, direntSize]
      omega
    rw [getdentsLoop, h, hok, ih (by rw [hnext]; omega)]
    rfl

theorem getdentsLoop_none {readdir : Dirent → Option Dirent} (h : readdir zeroDirent = none)
    (n : ℕ) (dst : BitVec 64) : getdentsLoop readdir n dst = .ok [] := by
  cases n with
  | zero => rfl
  | succ n => rw [getdentsLoop, h]

theorem BufferOk.bounds {dirp count : BitVec 64} (h : BufferOk (dirp, count)) :
    0 < dirp.toNat ∧ 72 ≤ count.toNat ∧ dirp.toNat + count.toNat ≤ 0x7FFFFFFFFFFF := by
  obtain ⟨hacc, hsize⟩ := h
  simp only [accessOk, decide_eq_true_eq] at hacc
  obtain ⟨h0, -, hle, hend⟩ := hacc
  have hpos : dirp.toNat ≠ 0 := fun h => h0 (BitVec.eq_of_toNat_eq (by simpa using h))
  rw [BitVec.le_def, BitVec.toNat_add] at hle hend
  simp only [BitVec.toNat_ofNat] at hend
  unfold direntSize at hsize
  dsimp only at hsize
  omega

/-- **One call on a directory** returns its first child as often as the buffer holds it. -/
theorem sysGetdents_dir (h : OpenDir m p fdNum dir) {dirp count : BitVec 64}
    (hbuf : BufferOk (dirp, count)) :
    sysGetdents other m (some p) fdNum dirp count =
      .ok ((readdirNode m dir zeroDirent).elim [] (List.replicate (count.toNat / direntSize))) := by
  obtain ⟨j, hj, htype, hres⟩ := h.entry
  obtain ⟨hdirp, hcount, hend⟩ := hbuf.bounds
  have h0 : ¬ (dirp = 0#64 ∨ count = 0#64) := by
    rintro (rfl | rfl)
    · exact absurd hdirp (by decide)
    · exact absurd hcount (by decide)
  have hnode : (fdNode m (memfsFd dir)).filter (fun i => (m.files i).isDir) = some dir := by
    rw [Option.filter_eq_some_iff]
    exact ⟨fdNode_eq_some.mpr ⟨rfl, h.live⟩, h.isDir⟩
  have hread : ∀ entry, vfsReaddir other m (memfsFd dir) entry = readdirNode m dir entry := by
    intro entry
    rw [vfsReaddir, otherDirFd_memfsFd, hnode]
    rfl
  rw [sysGetdents, if_neg h0, hbuf.1]
  simp only [Bool.not_true, Bool.false_eq_true, if_false, hj, htype, hres]
  cases hfirst : readdirNode m dir zeroDirent with
  | none => exact getdentsLoop_none ((hread _).trans hfirst) _ _
  | some de =>
    refine getdentsLoop_some ((hread _).trans hfirst) ⟨hdirp, ?_⟩
    have := Nat.div_mul_le_self count.toNat direntSize
    omega

theorem readdirNode_empty (h : (m.files dir).children = []) (entry : Dirent) :
    readdirNode m dir entry = none := by
  rw [readdirNode, h]
  split
  · rfl
  · rfl

/-- **Directory enumeration.** Repeated `getdents` lists a directory exactly when there is
nothing to list: with a first child it returns that child for ever. -/
theorem getdents_law_iff (h : OpenDir m p fdNum dir) :
    GetdentsLaw other m p fdNum dir ↔ (m.files dir).children = [] := by
  constructor
  · intro hlaw
    by_contra hne
    -- one page-aligned buffer with room for one entry, again and again
    have hbuf : BufferOk (0x1000#64, 72#64) := by
      refine ⟨by simp [accessOk], by decide⟩
    obtain ⟨n, des, hcalls, hperm, hrest⟩ := hlaw (fun _ => (0x1000#64, 72#64)) fun _ => hbuf
    simp only [sysGetdents_dir h hbuf] at hcalls hrest
    cases hfirst : readdirNode m dir zeroDirent with
    | some de =>
      have hlast := Except.ok.inj (hrest n (Nat.le_refl n))
      simp [hfirst, direntSize] at hlast
    | none =>
      have hempty : (List.range n).flatMap des = [] := by
        rw [List.flatMap_eq_nil_iff]
        intro k hk
        have := Except.ok.inj (hcalls k (List.mem_range.mp hk))
        rw [hfirst] at this
        exact this.symm
      rw [hempty, List.map_nil, List.nil_perm, childNames, List.map_eq_nil_iff] at hperm
      exact hne hperm
  · intro hempty bufs hbufs
    have hcall : ∀ k, sysGetdents other m (some p) fdNum (bufs k).1 (bufs k).2 = .ok [] := by
      intro k
      rw [sysGetdents_dir h (hbufs k), readdirNode_empty hempty]
      rfl
    refine ⟨0, fun _ => [], fun k hk => absurd hk (Nat.not_lt_zero k), ?_, fun k _ => hcall k⟩
    rw [childNames, hempty]
    exact List.Perm.refl []

/-- A process whose descriptor 0 is the root directory. -/
def rootReader : Process :=
  { zeroProcess with fds := fun _ => ⟨.vfs, memfsFd rootIdx, 0, 0#32⟩ }

theorem rootReader_open (hlive : (m.files rootIdx).live = true)
    (hdir : (m.files rootIdx).isDir = true) : OpenDir m rootReader 0 rootIdx :=
  ⟨⟨⟨0, by decide⟩, rfl, rfl, rfl⟩, hlive, hdir⟩

theorem getdents_law_iff_root :
    GetdentsLaw (fun _ _ => none) vfsInit rootReader 0 rootIdx :=
  (getdents_law_iff (rootReader_open rfl rfl)).mpr rfl

/-- A root directory with one file, `a`. -/
def oneFile : Memfs :=
  { vfsInit with
    files := fun i =>
      if i = rootIdx then { rootNode with children := [1] }
      else if i.val = 1 then { zeroNode with name := [97], live := true, parentIdx := 0 }
      else zeroNode }

theorem getdents_never_ends :
    ¬ ∀ other m p fdNum dir, OpenDir m p fdNum dir → GetdentsLaw other m p fdNum dir := by
  intro hall
  have hopen : OpenDir oneFile rootReader 0 rootIdx := rootReader_open rfl rfl
  have hbuf : BufferOk (0x1000#64, 72#64) := ⟨by simp [accessOk], by decide⟩
  obtain ⟨n, -, -, -, hrest⟩ := hall (fun _ _ => none) oneFile rootReader 0 rootIdx hopen
    (fun _ => (0x1000#64, 72#64)) fun _ => hbuf
  have hlast := hrest n (Nat.le_refl n)
  dsimp only at hlast
  rw [sysGetdents_dir hopen hbuf,
    show readdirNode oneFile rootIdx zeroDirent = some ⟨1#32, 72, 1, [97]⟩ by rfl] at hlast
  simp [direntSize] at hlast

end Lestra
