import Lestra.Fs.Contents
import Lestra.Fs.TmpfsHandles

/-!
# The contents of tmpfs files

The files of tmpfs as byte lists, as those of memfs, with positional writes as `vfs_write_at`
makes them. `files_are_byte_lists` is the result for both.
-/

namespace Lestra

open ByteFile (Op)

-- ---------------------------------------------------------------------------
-- What a call does to the files of tmpfs
-- ---------------------------------------------------------------------------

/-- `vfs_write_at` of a tmpfs descriptor: a seek, a write and a seek back. -/
def tmpfsWriteAt (t : Tmpfs) (fd : Int) (buf : Option (List UInt8)) (offset : Int) :
    Option (Tmpfs × Int) :=
  let cur := tmpfsLseek t fd 0 1
  if cur.2 < 0 then some (cur.1, -1)
  else
    let seek := tmpfsLseek cur.1 fd offset 0
    if seek.2 < 0 then some (seek.1, -1)
    else (tmpfsWrite seek.1 fd buf).map fun r => ((tmpfsLseek r.1 fd cur.2 0).1, r.2)

/-- An operation of tmpfs or a positional write. -/
inductive TmpIo where
  | call (call : TmpCall)
  | writeAt (fd : Int) (buf : Option (List UInt8)) (offset : Int)

def tmpIo (t : Tmpfs) : TmpIo → Option (Tmpfs × Reply)
  | .call call => tmpCall t call
  | .writeAt fd buf offset => (tmpfsWriteAt t fd buf offset).map fun r => (r.1, ⟨r.2, []⟩)

/-- The inode that a descriptor stands for, with its handle. -/
def tmpFile (t : Tmpfs) (fd : Int) : Option (TmpOpen × Fin tmpfsMaxFiles × TmpInode) :=
  (tmpHandle t fd).bind fun p => (handleInode t p.2).map fun q => (p.2, q)

def tmpOpenOp (t : Tmpfs) (fresh : Option (List UInt8)) (path : Path) (flags : BitVec 32) :
    Option (Op (Fin tmpfsMaxFiles)) :=
  if path = tmpDir ∨ path = tmpDir ++ [slash] then none
  else
    match openInode t fresh path flags with
    | none => none
    | some (_, i) =>
      if (findInode t path).isNone then some (.create i)
      else if hasFlag flags oTrunc then some (.resize i 0)
      else none

/-- The operation on byte lists that an operation of tmpfs stands for. -/
def tmpOp (t : Tmpfs) : TmpIo → Option (Op (Fin tmpfsMaxFiles))
  | .call (.open fresh path flags) => tmpOpenOp t fresh path flags
  | .call (.write fd (some buf)) => (tmpFile t fd).map fun f =>
    if hasFlag f.1.flags oAppend then .append f.2.1 buf else .write f.2.1 f.1.pos buf
  | .writeAt fd (some buf) offset => (tmpFile t fd).map fun f => .write f.2.1 (sizeT offset) buf
  | .call (.truncate path length) => resizeOp tmpfsMaxFileSize length (findInode t path)
  | .call (.ftruncate fd length) => resizeOp tmpfsMaxFileSize length
    (((tmpFile t fd).filter fun f => !f.1.isDir).map fun f => f.2.1)
  | _ => none

/-- tmpfs with the byte list of the file in each inode. -/
structure TmpfsBytes where
  fs : Tmpfs
  contents : Fin tmpfsMaxFiles → List UInt8

def tmpBytesStep (s : TmpfsBytes) (io : TmpIo) : Option TmpfsBytes :=
  (tmpIo s.fs io).map fun r => ⟨r.1, ByteFile.applyOption s.contents (tmpOp s.fs io)⟩

def tmpReply (s : TmpfsBytes) (io : TmpIo) (r : Reply) : Prop :=
  match io with
  | .call (.read fd true count) => ∀ o i n, tmpFile s.fs fd = some (o, i, n) →
      r.bytes = ByteFile.readAt (s.contents i) o.pos count ∧ r.ret = r.bytes.length
  | .call (.readAt fd true count offset) => ∀ o i n, tmpFile s.fs fd = some (o, i, n) →
      r.bytes = ByteFile.readAt (s.contents i) (sizeT offset) count ∧ r.ret = r.bytes.length
  | .call (.write fd (some buf)) | .writeAt fd (some buf) _ => ∀ o i n,
      tmpFile s.fs fd = some (o, i, n) → r.ret = buf.length
  | _ => True

/-- The operation returns, and its reply and the sizes are those of the byte lists. -/
def TmpAgrees (s : TmpfsBytes) (io : TmpIo) : Prop :=
  (∀ i n, s.fs.inodes i = some n → n.size = (s.contents i).length) ∧
    ∃ t r, tmpIo s.fs io = some (t, r) ∧ tmpReply s io r

/-- Writes, and the position behind a positional write, stay inside the maximum. -/
def tmpInRange (s : TmpfsBytes) (io : TmpIo) : Prop :=
  match io with
  | .call (.write fd (some buf)) => ∀ o i n, tmpFile s.fs fd = some (o, i, n) →
      tmpWritePos o n + buf.length ≤ tmpfsMaxFileSize
  | .writeAt fd (some buf) offset => ∀ o i n, tmpFile s.fs fd = some (o, i, n) →
      0 ≤ offset ∧ offset + buf.length ≤ tmpfsMaxFileSize ∧ o.pos ≤ tmpfsMaxFileSize
  | _ => True

/-- The bytes from the end up to a write past it are 0. -/
def tmpGapZero (n : TmpInode) (off : Nat) (buf : List UInt8) : Prop :=
  buf ≠ [] → ∀ data, n.data = some data → ∀ k, n.size ≤ k → k < off → ByteBuf.get data k = 0

def tmpBytesAllowed (s : TmpfsBytes) (io : TmpIo) : Prop :=
  tmpInRange s io ∧
    match io with
    | .call (.write fd (some buf)) => ∀ o i n, tmpFile s.fs fd = some (o, i, n) →
        tmpGapZero n (tmpWritePos o n) buf
    | .writeAt fd (some buf) offset => ∀ o i n, tmpFile s.fs fd = some (o, i, n) →
        (hasFlag o.flags oAppend → n.size = sizeT offset) ∧ tmpGapZero n (sizeT offset) buf
    | _ => True

-- ---------------------------------------------------------------------------
-- One operation of tmpfs
-- ---------------------------------------------------------------------------

/-- The buffer of every used inode holds its byte list. -/
def TmpHolds (t : Tmpfs) (contents : Fin tmpfsMaxFiles → List UInt8) : Prop :=
  ∀ i n, t.inodes i = some n → n.size ≤ tmpfsMaxFileSize ∧
    ∃ data, n.data = some data ∧ ByteFile.Holds data n.size (contents i)

section
variable {t t' : Tmpfs} {contents : Fin tmpfsMaxFiles → List UInt8} {fd : Int}
  {i : Fin tmpfsMaxFiles} {n : TmpInode} {h : Fin tmpfsMaxOpen} {o : TmpOpen}

theorem tmpFile_eq_some : tmpFile t fd = some (o, i, n) ↔
    ∃ h, tmpHandle t fd = some (h, o) ∧ handleInode t o = some (i, n) := by
  simp only [tmpFile, Option.bind_eq_some_iff, Option.map_eq_some_iff]
  constructor
  · rintro ⟨⟨h, o'⟩, hh, q, hq, heq⟩
    obtain ⟨rfl, rfl⟩ := Prod.mk.inj heq
    exact ⟨h, hh, hq⟩
  · rintro ⟨h, hh, hq⟩
    exact ⟨(h, o), hh, (i, n), hq, rfl⟩

theorem TmpHolds.congr (hholds : TmpHolds t contents) (hinodes : t'.inodes = t.inodes) :
    TmpHolds t' contents := by
  intro i n hn
  rw [hinodes] at hn
  exact hholds i n hn

theorem TmpHolds.edit {bs data : List UInt8} (hholds : TmpHolds t contents)
    (hinodes : t'.inodes = Function.update t.inodes i (some n)) (hsize : n.size ≤ tmpfsMaxFileSize)
    (hdata : n.data = some data) (hbs : ByteFile.Holds data n.size bs) :
    TmpHolds t' (Function.update contents i bs) := by
  intro j m hm
  rw [hinodes] at hm
  by_cases hj : j = i
  · rw [hj, Function.update_self] at hm
    obtain rfl := Option.some.inj hm
    rw [hj, Function.update_self]
    exact ⟨hsize, data, hdata, hbs⟩
  · rw [Function.update_of_ne hj] at hm ⊢
    exact hholds j m hm

/-- A reference count may change. -/
theorem TmpHolds.recount {ref : Int} (hholds : TmpHolds t contents) (hn : t.inodes i = some n)
    (hinodes : t'.inodes = Function.update t.inodes i (some { n with refcount := ref })) :
    TmpHolds t' contents := by
  obtain ⟨hsize, data, hdata, hbytes⟩ := hholds i n hn
  rw [← Function.update_eq_self i contents]
  exact hholds.edit hinodes hsize hdata hbytes

theorem TmpHolds.free (hholds : TmpHolds t contents) (i : Fin tmpfsMaxFiles) :
    TmpHolds (t.setInode i none) contents := by
  intro j m hm
  by_cases hj : j = i
  · rw [hj, setInode_same] at hm
    exact absurd hm (by simp)
  · rw [setInode_ne _ _ hj] at hm
    exact hholds j m hm

theorem tmpfsLseek_inodes (t : Tmpfs) (fd offset whence : Int) :
    (tmpfsLseek t fd offset whence).1.inodes = t.inodes := by
  rcases tmpfsLseek_cases t fd offset whence with heq | ⟨h, o, i, n, base, -, -, -, -, heq⟩ <;>
    rw [heq]
  rfl

theorem tmpfsOpen_holds (hholds : TmpHolds t contents) (fresh : Option (List UInt8))
    (path : Path) (flags : BitVec 32) :
    TmpHolds (tmpfsOpen t fresh path flags).1
      (ByteFile.applyOption contents (tmpOpenOp t fresh path flags)) := by
  unfold tmpOpenOp
  rcases tmpfsOpen_cases t fresh path flags with
    ⟨heq, hnone⟩ | ⟨h, hdir, -, heq⟩ | ⟨t₁, i, hdir, hopen, hr⟩
  · rw [heq]
    split
    · exact hholds
    · rename_i hdir
      rw [hnone.resolve_left hdir]
      exact hholds
  · rw [heq, if_pos hdir]
    exact hholds.congr rfl
  · rw [if_neg hdir, hopen]
    dsimp only
    -- whether a handle is left or not, the inode is the one that was created or cut
    have hinodes : ∃ ref, (tmpfsOpen t fresh path flags).1.inodes = Function.update t₁.inodes i
        (some { truncOpened flags ((t₁.inodes i).getD default) with refcount := ref }) := by
      rcases hr with ⟨-, heq⟩ | ⟨h, -, heq⟩ <;> rw [heq]
      · exact ⟨_, rfl⟩
      · exact ⟨_, rfl⟩
    obtain ⟨ref, hinodes⟩ := hinodes
    rcases openInode_cases hopen with ⟨rfl, hfind⟩ | ⟨hfind, -, halloc⟩
    · obtain ⟨n, hn⟩ := findInode_used hfind
      obtain ⟨-, data, hdata, -⟩ := hholds i n hn
      rw [hn, Option.getD_some] at hinodes
      rw [hfind, Option.isNone_some, if_neg Bool.false_ne_true]
      unfold truncOpened at hinodes
      by_cases htrunc : hasFlag flags oTrunc
      · rw [if_pos ⟨htrunc, by rw [hdata]; rfl⟩] at hinodes
        rw [if_pos htrunc]
        refine hholds.edit hinodes (Nat.zero_le _) hdata ⟨ByteFile.length_resize _ 0, ?_⟩
        exact fun _ hk => absurd hk (Nat.not_lt_zero _)
      · rw [if_neg fun hc => htrunc hc.1] at hinodes
        rw [if_neg htrunc]
        exact hholds.recount hn hinodes
    · obtain ⟨hdead, data, -, rfl⟩ := allocInode_eq_some halloc
      rw [hfind, Option.isNone_none, if_pos rfl]
      rw [setInode_same, Option.getD_some, Tmpfs.setInode, Function.update_idem] at hinodes
      obtain ⟨-, hdata, hsize⟩ := truncOpened_keeps flags
        ⟨(tmpName path).take (maxNameLen - 1), 0, some data, 0⟩
      refine hholds.edit hinodes ?_ hdata ?_
      · exact Nat.le_trans hsize (Nat.zero_le _)
      · have hzero := Nat.le_zero.mp hsize
        simp only [hzero]
        exact .nil data

/-- A write of `n` is a write of its byte list. -/
theorem TmpHolds.write {buf : List UInt8} {off : Nat} {data : List UInt8}
    (hholds : TmpHolds t contents) (hn : t.inodes i = some n) (hdata : n.data = some data)
    (hin : off + buf.length ≤ tmpfsMaxFileSize) (hbuf : buf ≠ []) (hgap : tmpGapZero n off buf)
    (hinodes : t'.inodes = Function.update t.inodes i (some { n with
      data := some (ByteBuf.store data off buf), size := max n.size (off + buf.length) })) :
    TmpHolds t' (Function.update contents i (ByteFile.writeAt (contents i) off buf)) := by
  obtain ⟨hsize, data', hdata', hbytes⟩ := hholds i n hn
  obtain rfl := Option.some.inj (hdata.symm.trans hdata')
  refine hholds.edit hinodes ?_ rfl (hbytes.write fun _ => ⟨hbuf, hgap hbuf data hdata⟩)
  simp only
  omega

theorem tmpfsWrite_holds {buf : List UInt8} (hholds : TmpHolds t contents)
    (hhandle : tmpHandle t fd = some (h, o)) (hinode : handleInode t o = some (i, n))
    (hin : tmpWritePos o n + buf.length ≤ tmpfsMaxFileSize)
    (hgap : tmpGapZero n (tmpWritePos o n) buf) :
    ∃ t', tmpfsWrite t fd (some buf) = some (t', (buf.length : Int)) ∧
      TmpHolds t' (Function.update contents i
        (ByteFile.writeAt (contents i) (tmpWritePos o n) buf)) := by
  have hn := (handleInode_eq_some.mp hinode).2
  obtain ⟨-, data, hdata, -⟩ := hholds i n hn
  have hmax : tmpfsMaxFileSize = 65536 := rfl
  have hcount : min buf.length (tmpfsMaxFileSize - tmpWritePos o n) = buf.length := by omega
  have heq := tmpfsWrite_eq hhandle hinode hdata
    (show ¬ (2 ^ 64 ≤ tmpWritePos o n + buf.length ∧ _) by omega)
  dsimp only at heq
  rw [hcount, List.take_length] at heq
  by_cases hbuf : buf = []
  · subst hbuf
    rw [List.length_nil, if_pos rfl] at heq
    refine ⟨_, heq, ?_⟩
    rw [ByteFile.writeAt, if_pos rfl, Function.update_eq_self]
    exact hholds.congr rfl
  · rw [if_neg (by simpa using hbuf)] at heq
    exact ⟨_, heq, hholds.write hn hdata hin hbuf hgap rfl⟩

theorem truncateInode_holds (hholds : TmpHolds t contents) (hn : t.inodes i = some n) {len : Nat}
    (hlen : len ≤ tmpfsMaxFileSize) :
    ∃ t', truncateInode t i n len = some (t', 0) ∧
      TmpHolds t' (Function.update contents i (ByteFile.resize (contents i) len)) := by
  obtain ⟨hsize, data, hdata, hbytes⟩ := hholds i n hn
  have hresized : (resizeInode len n).data
      = some (if n.size < len then ByteBuf.zero data n.size (len - n.size)
        else ByteBuf.zero data len (n.size - len)) := by
    rw [resizeInode, hdata, Option.map_some]
  exact ⟨_, if_neg (by omega), hholds.edit rfl hlen hresized (hbytes.resize len)⟩

-- ---------------------------------------------------------------------------
-- Positional writes
-- ---------------------------------------------------------------------------

theorem offT_small {x : Int} (h0 : 0 ≤ x) (hx : x ≤ tmpfsMaxFileSize) :
    offT x = x ∧ intT x = x := by
  have hmax : tmpfsMaxFileSize = 65536 := rfl
  unfold offT intT
  rw [Int.bmod_def, Int.bmod_def]
  constructor <;> split <;> omega

theorem tmpfsLseek_set {offset : Int} (hhandle : tmpHandle t fd = some (h, o))
    (hinode : handleInode t o = some (i, n)) (h0 : 0 ≤ offset) (hmax : offset ≤ tmpfsMaxFileSize) :
    tmpfsLseek t fd offset 0 = (t.setOpen h (some { o with pos := offset.toNat }), offset) := by
  obtain ⟨hoff, hint⟩ := offT_small h0 hmax
  simp only [tmpfsLseek, hhandle, hinode, tmpSeekBase, if_true, Int.zero_add, hoff, hint,
    if_neg (Int.not_lt.mpr h0)]

theorem tmpfsLseek_cur (hhandle : tmpHandle t fd = some (h, o))
    (hinode : handleInode t o = some (i, n)) (hpos : o.pos ≤ tmpfsMaxFileSize) :
    tmpfsLseek t fd 0 1 = (t, (o.pos : Int)) := by
  obtain ⟨hoff, hint⟩ := offT_small (x := (o.pos : Int)) (by omega) (by omega)
  have hsame : t.setOpen h (some o) = t := by
    rw [Tmpfs.setOpen, ← (tmpHandle_eq_some.mp hhandle).2, Function.update_eq_self]
  simp only [tmpfsLseek, hhandle, hinode, tmpSeekBase, if_true, Int.add_zero, hoff, hint,
    one_ne_zero, if_false, if_neg (Int.not_lt.mpr (Int.natCast_nonneg o.pos)), Int.toNat_natCast,
    hsame]

theorem tmpfsWriteAt_holds {buf : List UInt8} {offset : Int} (hholds : TmpHolds t contents)
    (hhandle : tmpHandle t fd = some (h, o)) (hinode : handleInode t o = some (i, n))
    (h0 : 0 ≤ offset) (hin : offset + buf.length ≤ tmpfsMaxFileSize)
    (hpos : o.pos ≤ tmpfsMaxFileSize) (happ : hasFlag o.flags oAppend → n.size = sizeT offset)
    (hgap : tmpGapZero n (sizeT offset) buf) :
    ∃ t', tmpfsWriteAt t fd (some buf) offset = some (t', (buf.length : Int)) ∧
      TmpHolds t' (Function.update contents i
        (ByteFile.writeAt (contents i) (sizeT offset) buf)) := by
  have hmax : tmpfsMaxFileSize = 65536 := rfl
  have hsize : sizeT offset = offset.toNat := by
    unfold sizeT
    omega
  obtain ⟨hfd, ho⟩ := tmpHandle_eq_some.mp hhandle
  obtain ⟨hidx, hn⟩ := handleInode_eq_some.mp hinode
  let moved : TmpOpen := { o with pos := offset.toNat }
  have hhandle' : tmpHandle (t.setOpen h (some moved)) fd = some (h, moved) :=
    tmpHandle_eq_some.mpr ⟨hfd, setOpen_same ..⟩
  have hinode' : handleInode (t.setOpen h (some moved)) moved = some (i, n) :=
    handleInode_eq_some.mpr ⟨hidx, hn⟩
  have hstart : tmpWritePos moved n = sizeT offset := by
    unfold tmpWritePos
    split
    · rename_i hflag
      exact happ hflag
    · exact hsize.symm
  have hmoved : TmpHolds (t.setOpen h (some moved)) contents := hholds.congr rfl
  obtain ⟨t', heq, hholds'⟩ := tmpfsWrite_holds hmoved hhandle' hinode'
    (show _ + buf.length ≤ _ by omega) (hstart ▸ hgap)
  rw [hstart] at hholds'
  refine ⟨(tmpfsLseek t' fd o.pos 0).1, ?_, hholds'.congr (tmpfsLseek_inodes ..)⟩
  simp only [tmpfsWriteAt, tmpfsLseek_cur hhandle hinode hpos,
    tmpfsLseek_set hhandle hinode h0 (by omega), if_neg (Int.not_lt.mpr h0),
    if_neg (Int.not_lt.mpr (Int.natCast_nonneg o.pos))]
  rw [heq, Option.map_some]

-- ---------------------------------------------------------------------------
-- One step of tmpfs
-- ---------------------------------------------------------------------------

/-- What one operation leaves, with a reply that agrees with the byte lists. -/
def TmpStepHolds (t : Tmpfs) (contents : Fin tmpfsMaxFiles → List UInt8) (io : TmpIo) : Prop :=
  ∃ t' r, tmpIo t io = some (t', r) ∧ tmpReply ⟨t, contents⟩ io r ∧
    TmpHolds t' (ByteFile.applyOption contents (tmpOp t io))

theorem tmpFile_unique {o' : TmpOpen} {i' : Fin tmpfsMaxFiles} {n' : TmpInode}
    (hfile : tmpFile t fd = some (o, i, n)) (hfile' : tmpFile t fd = some (o', i', n')) :
    o = o' ∧ i = i' ∧ n = n' := by
  have heq := Option.some.inj (hfile.symm.trans hfile')
  exact ⟨(Prod.mk.inj heq).1, Prod.mk.inj (Prod.mk.inj heq).2⟩

/-- A read at `pos` of an inode that holds its byte list. -/
theorem tmpLoad_holds {pos : Nat} {data bytes : List UInt8} (hdata : n.data = some data)
    (hsize : n.size ≤ tmpfsMaxFileSize) (hbytes : ByteFile.Holds data n.size bytes)
    (hpos : pos < n.size) (count : Nat) :
    tmpLoad n pos (min count (n.size - pos)) = some (ByteFile.readAt bytes pos count) := by
  rw [tmpLoad_inside hdata hsize hpos, hbytes.read]

theorem readAt_past {bytes data : List UInt8} {pos : Nat}
    (hbytes : ByteFile.Holds data n.size bytes) (hpos : n.size ≤ pos) (count : Nat) :
    ByteFile.readAt bytes pos count = [] := by
  rw [ByteFile.readAt, List.drop_eq_nil_of_le (by rw [hbytes.length]; exact hpos), List.take_nil]

theorem tmpRead_holds (hholds : TmpHolds t contents) (fd : Int) (buf : Bool) (count : Nat) :
    TmpStepHolds t contents (.call (.read fd buf count)) := by
  rcases tmpfsRead_cases t fd buf count with ⟨ret, heq⟩ | ⟨h, o, i, n, hhandle, hinode, hpos, heq⟩
  · refine ⟨t, ⟨ret, []⟩, heq, ?_, hholds⟩
    cases buf with
    | false => trivial
    | true =>
      intro o i n hfile
      obtain ⟨h, hhandle, hinode⟩ := tmpFile_eq_some.mp hfile
      obtain ⟨hsize, data, hdata, hbytes⟩ := hholds i n (handleInode_eq_some.mp hinode).2
      simp only [tmpfsRead, hhandle, hinode, Bool.not_true, Bool.false_eq_true, if_false] at heq
      split at heq
      · rename_i hend
        obtain rfl := (Reply.mk.inj (Prod.mk.inj (Option.some.inj heq)).2).1
        exact ⟨(readAt_past hbytes hend count).symm, rfl⟩
      · rename_i hpos
        rw [tmpLoad_holds hdata hsize hbytes (by omega), Option.map_some] at heq
        obtain ⟨hret, hnil⟩ := Reply.mk.inj (Prod.mk.inj (Option.some.inj heq)).2
        exact ⟨hnil.symm, by rw [← hret, hnil]⟩
  · obtain ⟨hsize, data, hdata, hbytes⟩ := hholds i n (handleInode_eq_some.mp hinode).2
    rw [tmpLoad_holds hdata hsize hbytes hpos, Option.map_some] at heq
    refine ⟨_, _, heq, ?_, hholds.congr rfl⟩
    cases buf with
    | false => trivial
    | true =>
      intro o' i' n' hfile
      obtain ⟨rfl, rfl, rfl⟩ := tmpFile_unique (tmpFile_eq_some.mpr ⟨h, hhandle, hinode⟩) hfile
      exact ⟨rfl, rfl⟩

theorem tmpReadAt_holds (hholds : TmpHolds t contents) (fd : Int) (buf : Bool) (count : Nat)
    (offset : Int) : TmpStepHolds t contents (.call (.readAt fd buf count offset)) := by
  rcases tmpfsReadAt_cases t fd buf count offset with
    ⟨ret, heq⟩ | ⟨h, o, i, n, hhandle, hinode, hpos, heq⟩
  · refine ⟨t, ⟨ret, []⟩, heq, ?_, hholds⟩
    cases buf with
    | false => trivial
    | true =>
      intro o i n hfile
      obtain ⟨h, hhandle, hinode⟩ := tmpFile_eq_some.mp hfile
      obtain ⟨hsize, data, hdata, hbytes⟩ := hholds i n (handleInode_eq_some.mp hinode).2
      simp only [tmpfsReadAt, hhandle, hinode, Bool.not_true, Bool.false_eq_true, if_false] at heq
      split at heq
      · rename_i hend
        obtain rfl := (Reply.mk.inj (Prod.mk.inj (Option.some.inj heq)).2).1
        exact ⟨(readAt_past hbytes hend count).symm, rfl⟩
      · rename_i hpos
        rw [tmpLoad_holds hdata hsize hbytes (by omega), Option.map_some] at heq
        obtain ⟨hret, hnil⟩ := Reply.mk.inj (Prod.mk.inj (Option.some.inj heq)).2
        exact ⟨hnil.symm, by rw [← hret, hnil]⟩
  · obtain ⟨hsize, data, hdata, hbytes⟩ := hholds i n (handleInode_eq_some.mp hinode).2
    rw [tmpLoad_holds hdata hsize hbytes hpos, Option.map_some] at heq
    refine ⟨_, _, heq, ?_, hholds⟩
    cases buf with
    | false => trivial
    | true =>
      intro o' i' n' hfile
      obtain ⟨rfl, rfl, rfl⟩ := tmpFile_unique (tmpFile_eq_some.mpr ⟨h, hhandle, hinode⟩) hfile
      exact ⟨rfl, rfl⟩

theorem tmpfsWrite_noFile (hfile : tmpFile t fd = none) (buf : List UInt8) :
    ∃ ret, tmpfsWrite t fd (some buf) = some (t, ret) := by
  rcases tmpfsWrite_cases t fd (some buf) with hret | ⟨bs, h, o, i, n, -, hhandle, hinode⟩
  · exact hret
  · rw [tmpFile_eq_some.mpr ⟨h, hhandle, hinode⟩] at hfile
    exact absurd hfile (by simp)

theorem tmpfsWriteAt_noFile {buf : List UInt8} {offset : Int} (hfile : tmpFile t fd = none) :
    tmpfsWriteAt t fd (some buf) offset = some (t, -1) := by
  have hseek : tmpfsLseek t fd 0 1 = (t, -1) := by
    rcases tmpfsLseek_cases t fd 0 1 with heq | ⟨h, o, i, n, base, hhandle, hinode, -⟩
    · exact heq
    · rw [tmpFile_eq_some.mpr ⟨h, hhandle, hinode⟩] at hfile
      exact absurd hfile (by simp)
  simp only [tmpfsWriteAt, hseek]
  rfl

theorem tmpWrite_holds (hholds : TmpHolds t contents) {buf : List UInt8}
    (hok : tmpBytesAllowed ⟨t, contents⟩ (.call (.write fd (some buf)))) :
    TmpStepHolds t contents (.call (.write fd (some buf))) := by
  rcases hfile : tmpFile t fd with _ | ⟨o, i, n⟩
  · obtain ⟨ret, heq⟩ := tmpfsWrite_noFile hfile buf
    refine ⟨t, ⟨ret, []⟩, by rw [tmpIo, tmpCall, heq]; rfl, fun o i n hf => ?_, ?_⟩
    · exact absurd (hfile.symm.trans hf) (by simp)
    · rw [tmpOp, hfile]
      exact hholds
  · obtain ⟨h, hhandle, hinode⟩ := tmpFile_eq_some.mp hfile
    obtain ⟨t', heq, hholds'⟩ := tmpfsWrite_holds hholds hhandle hinode (hok.1 o i n hfile)
      (hok.2 o i n hfile)
    refine ⟨t', ⟨buf.length, []⟩, by rw [tmpIo, tmpCall, heq]; rfl, fun _ _ _ _ => rfl, ?_⟩
    obtain ⟨-, data, -, hbytes⟩ := hholds i n (handleInode_eq_some.mp hinode).2
    rw [tmpOp, hfile, Option.map_some]
    dsimp only
    by_cases happ : hasFlag o.flags oAppend
    · have hpos : tmpWritePos o n = (contents i).length := (if_pos happ).trans hbytes.length.symm
      rw [if_pos happ]
      change TmpHolds t' (Function.update contents i
        (ByteFile.writeAt (contents i) (contents i).length buf))
      exact hpos ▸ hholds'
    · have hpos : tmpWritePos o n = o.pos := if_neg happ
      rw [if_neg happ]
      exact hpos ▸ hholds'

theorem tmpWriteAt_holds (hholds : TmpHolds t contents) {buf : List UInt8} {offset : Int}
    (hok : tmpBytesAllowed ⟨t, contents⟩ (.writeAt fd (some buf) offset)) :
    TmpStepHolds t contents (.writeAt fd (some buf) offset) := by
  rcases hfile : tmpFile t fd with _ | ⟨o, i, n⟩
  · refine ⟨t, ⟨-1, []⟩, by rw [tmpIo, tmpfsWriteAt_noFile hfile]; rfl, fun o i n hf => ?_, ?_⟩
    · exact absurd (hfile.symm.trans hf) (by simp)
    · rw [tmpOp, hfile]
      exact hholds
  · obtain ⟨h, hhandle, hinode⟩ := tmpFile_eq_some.mp hfile
    obtain ⟨h0, hin, hpos⟩ := hok.1 o i n hfile
    obtain ⟨happ, hgap⟩ := hok.2 o i n hfile
    obtain ⟨t', heq, hholds'⟩ := tmpfsWriteAt_holds hholds hhandle hinode h0 hin hpos happ hgap
    refine ⟨t', ⟨buf.length, []⟩, by rw [tmpIo, heq]; rfl, fun _ _ _ _ => rfl, ?_⟩
    rw [tmpOp, hfile]
    exact hholds'

theorem tmpTruncate_holds (hholds : TmpHolds t contents) (path : Path) (length : Int) :
    TmpStepHolds t contents (.call (.truncate path length)) := by
  have hsame : tmpfsTruncate t path length = some (t, -1) →
      resizeOp tmpfsMaxFileSize length (findInode t path) = none →
      TmpStepHolds t contents (.call (.truncate path length)) := fun heq hop =>
    ⟨t, ⟨-1, []⟩, by rw [tmpIo, tmpCall, heq]; rfl, trivial, by rw [tmpOp, hop]; exact hholds⟩
  by_cases hlen : length < 0 ∨ (tmpfsMaxFileSize : Int) < length
  · exact hsame (if_pos hlen) (if_neg (by omega))
  · have hrange : 0 ≤ length ∧ length ≤ tmpfsMaxFileSize := by omega
    cases hfind : findInode t path with
    | none =>
      refine hsame (by rw [tmpfsTruncate, if_neg hlen, hfind]) ?_
      rw [resizeOp, if_pos hrange, hfind, Option.map_none]
    | some i =>
      obtain ⟨n, hn⟩ := findInode_used hfind
      obtain ⟨t', heq, hholds'⟩ := truncateInode_holds hholds hn
        (show length.toNat ≤ tmpfsMaxFileSize by omega)
      have htrunc : tmpfsTruncate t path length = some (t', 0) := by
        simp only [tmpfsTruncate, if_neg hlen, hfind, hn, heq]
      refine ⟨t', ⟨0, []⟩, by rw [tmpIo, tmpCall, htrunc]; rfl, trivial, ?_⟩
      rw [tmpOp, resizeOp, if_pos hrange, hfind]
      exact hholds'

theorem tmpFtruncate_holds (hholds : TmpHolds t contents) (fd length : Int) :
    TmpStepHolds t contents (.call (.ftruncate fd length)) := by
  have hsame : tmpfsFtruncate t fd length = some (t, -1) →
      tmpOp t (.call (.ftruncate fd length)) = none →
      TmpStepHolds t contents (.call (.ftruncate fd length)) := fun heq hop =>
    ⟨t, ⟨-1, []⟩, by rw [tmpIo, tmpCall, heq]; rfl, trivial, by rw [hop]; exact hholds⟩
  by_cases hlen : length < 0 ∨ (tmpfsMaxFileSize : Int) < length
  · exact hsame (if_pos hlen) (if_neg (by omega))
  have hrange : 0 ≤ length ∧ length ≤ tmpfsMaxFileSize := by omega
  cases hhandle : tmpHandle t fd with
  | none =>
    refine hsame (by rw [tmpfsFtruncate, if_neg hlen, hhandle]) ?_
    rw [tmpOp, resizeOp, if_pos hrange, tmpFile, hhandle]
    rfl
  | some p =>
    obtain ⟨h, o⟩ := p
    cases hdir : o.isDir with
    | true =>
      refine hsame (by simp only [tmpfsFtruncate, if_neg hlen, hhandle, hdir, if_true]) ?_
      rw [tmpOp, resizeOp, if_pos hrange, tmpFile, hhandle, Option.bind_some]
      cases handleInode t o with
      | none => rfl
      | some q => simp [hdir]
    | false =>
      cases hinode : handleInode t o with
      | none =>
        refine hsame ?_ ?_
        · simp only [tmpfsFtruncate, if_neg hlen, hhandle, hdir, hinode, Bool.false_eq_true, if_false]
        · simp only [tmpOp, resizeOp, if_pos hrange, tmpFile, hhandle, Option.bind_some, hinode]
          rfl
      | some q =>
        obtain ⟨i, n⟩ := q
        obtain ⟨t', heq, hholds'⟩ := truncateInode_holds hholds (handleInode_eq_some.mp hinode).2
          (show length.toNat ≤ tmpfsMaxFileSize by omega)
        have htrunc : tmpfsFtruncate t fd length = some (t', 0) := by
          simp only [tmpfsFtruncate, if_neg hlen, hhandle, hdir, hinode, Bool.false_eq_true,
            if_false, heq]
        refine ⟨t', ⟨0, []⟩, by rw [tmpIo, tmpCall, htrunc]; rfl, trivial, ?_⟩
        rw [tmpOp, resizeOp, if_pos hrange, tmpFile_eq_some.mpr ⟨h, hhandle, hinode⟩,
          Option.filter_some, hdir]
        exact hholds'

theorem tmpfsWriteAt_noBuf (t : Tmpfs) (fd offset : Int) :
    ∃ r, tmpfsWriteAt t fd none offset = some r ∧ r.1.inodes = t.inodes := by
  have hcur := tmpfsLseek_inodes t fd 0 1
  unfold tmpfsWriteAt
  generalize tmpfsLseek t fd 0 1 = cur at hcur ⊢
  have hseek := tmpfsLseek_inodes cur.1 fd offset 0
  dsimp only
  generalize tmpfsLseek cur.1 fd offset 0 = seek at hseek ⊢
  split
  · exact ⟨_, rfl, hcur⟩
  · split
    · exact ⟨_, rfl, hseek.trans hcur⟩
    · rcases tmpfsWrite_cases seek.1 fd none with ⟨ret, heq⟩ | ⟨bs, h, o, i, n, hbs, -⟩
      · rw [heq, Option.map_some]
        exact ⟨_, rfl, (tmpfsLseek_inodes ..).trans (hseek.trans hcur)⟩
      · exact absurd hbs (by simp)

/-- Every operation of tmpfs is its operation on byte lists. -/
theorem tmpIo_holds (hholds : TmpHolds t contents) {io : TmpIo}
    (hok : tmpBytesAllowed ⟨t, contents⟩ io) : TmpStepHolds t contents io := by
  cases io with
  | writeAt fd buf offset =>
    cases buf with
    | some buf => exact tmpWriteAt_holds hholds hok
    | none =>
      obtain ⟨r, heq, hinodes⟩ := tmpfsWriteAt_noBuf t fd offset
      exact ⟨r.1, ⟨r.2, []⟩, by rw [tmpIo, heq]; rfl, trivial, hholds.congr hinodes⟩
  | call call =>
    cases call with
    | «open» fresh path flags => exact ⟨_, _, rfl, trivial, tmpfsOpen_holds hholds fresh path flags⟩
    | close fd =>
      refine ⟨(tmpfsClose t fd).1, _, rfl, trivial, ?_⟩
      rcases tmpfsClose_cases t fd with
        heq | ⟨h, o, -, ⟨heq, -⟩ | ⟨i, n, -, hinode, heq⟩⟩ <;> rw [heq]
      · exact hholds
      · exact hholds.congr rfl
      · exact hholds.recount (handleInode_eq_some.mp hinode).2 rfl
    | read fd buf count => exact tmpRead_holds hholds fd buf count
    | write fd buf =>
      cases buf with
      | some buf => exact tmpWrite_holds hholds hok
      | none =>
        rcases tmpfsWrite_cases t fd none with ⟨ret, heq⟩ | ⟨bs, h, o, i, n, hbs, -⟩
        · exact ⟨t, ⟨ret, []⟩, by rw [tmpIo, tmpCall, heq]; rfl, trivial, hholds⟩
        · exact absurd hbs (by simp)
    | lseek fd offset whence =>
      exact ⟨_, _, rfl, trivial, hholds.congr (tmpfsLseek_inodes t fd offset whence)⟩
    | readAt fd buf count offset => exact tmpReadAt_holds hholds fd buf count offset
    | unlink path =>
      refine ⟨(tmpfsUnlink t path).1, _, rfl, trivial, ?_⟩
      rcases tmpfsUnlink_cases t path with heq | ⟨i, n, -, -, -, heq⟩ <;> rw [heq]
      · exact hholds
      · exact hholds.free i
    | truncate path length => exact tmpTruncate_holds hholds path length
    | ftruncate fd length => exact tmpFtruncate_holds hholds fd length

end

-- ---------------------------------------------------------------------------
-- Runs of both
-- ---------------------------------------------------------------------------

theorem memBytesStep_holds {s : MemfsBytes} {st : VfsStep} (h : MemHolds s.fs s.contents)
    (hok : memAllowed s st) :
    MemAgrees s st ∧ ∃ s', memBytesStep s st = some s' ∧ MemHolds s'.fs s'.contents := by
  obtain ⟨m', r, heq, hreply, hholds⟩ := vfsCall_holds h hok
  exact ⟨⟨h.sizes, m', r, heq, hreply⟩, _, by rw [memBytesStep, vfsStep_of_call st heq]; rfl, hholds⟩

theorem tmpBytesStep_holds {s : TmpfsBytes} {io : TmpIo} (h : TmpHolds s.fs s.contents)
    (hok : tmpBytesAllowed s io) :
    TmpAgrees s io ∧ ∃ s', tmpBytesStep s io = some s' ∧ TmpHolds s'.fs s'.contents := by
  obtain ⟨t', r, heq, hreply, hholds⟩ := tmpIo_holds h hok
  refine ⟨⟨fun i n hn => ?_, t', r, heq, hreply⟩, _, by rw [tmpBytesStep, heq]; rfl, hholds⟩
  obtain ⟨-, data, -, hbytes⟩ := h i n hn
  exact hbytes.length.symm

/-- **The files of memfs and tmpfs are byte lists.** In a run of allowed steps, by any
processes on memfs or on tmpfs, every reply and every size is that of the byte lists. -/
theorem files_are_byte_lists (s : MemfsBytes) (steps : List VfsStep) (t : TmpfsBytes)
    (ops : List TmpIo) :
    (MemHolds s.fs s.contents → Run.AllowedOption memBytesStep memAllowed s steps →
      (∃ s', Run.runOption memBytesStep s steps = some s') ∧
      Run.AllowedOption memBytesStep MemAgrees s steps) ∧
    (TmpHolds t.fs t.contents → Run.AllowedOption tmpBytesStep tmpBytesAllowed t ops →
      (∃ t', Run.runOption tmpBytesStep t ops = some t') ∧
      Run.AllowedOption tmpBytesStep TmpAgrees t ops) := by
  constructor
  · intro hstart hok
    obtain ⟨⟨s', hrun, -⟩, hagrees⟩ := Run.runOption_good (I := fun s => MemHolds s.fs s.contents)
      (fun _ _ h hst => memBytesStep_holds h hst) steps s hstart hok
    exact ⟨⟨s', hrun⟩, hagrees⟩
  · intro hstart hok
    obtain ⟨⟨t', hrun, -⟩, hagrees⟩ := Run.runOption_good (I := fun t => TmpHolds t.fs t.contents)
      (fun _ _ h hio => tmpBytesStep_holds h hio) ops t hstart hok
    exact ⟨⟨t', hrun⟩, hagrees⟩

theorem vfsInit_holds : MemHolds vfsInit fun _ => [] := by
  have hsize : ∀ i, (vfsInit.files i).size = 0 := by decide
  intro i _
  rw [hsize]
  exact ⟨Nat.zero_le _, .nil _⟩

theorem tmpfsInit_holds : TmpHolds tmpfsInit fun _ => [] := fun _ _ hn => absurd hn (by simp [tmpfsInit])

/-- A file of memfs that is created, written and read. -/
def memFileRun : List VfsStep :=
  [bareStep (.open [47, 97] oCreat), bareStep (.write 4 [1, 2]), bareStep (.readAt 4 2 0)]

/-- A file of tmpfs that is created, written and read. -/
def tmpBytesRun : List TmpIo :=
  [.call (.open (some []) [47, 116, 109, 112, 47, 102] oCreat), .call (.write 500 (some [1, 2])),
    .call (.readAt 500 true 2 0)]

theorem files_are_byte_lists_runs :
    (∃ s, Run.runOption memBytesStep ⟨vfsInit, fun _ => []⟩ memFileRun = some s) ∧
    ∃ s, Run.runOption tmpBytesStep ⟨tmpfsInit, fun _ => []⟩ tmpBytesRun = some s := by
  have hopened : tmpFile (tmpfsOpen tmpfsInit (some []) [47, 116, 109, 112, 47, 102] oCreat).1 500
      = some (⟨some ⟨0, by decide⟩, 0, oCreat, false⟩, ⟨0, by decide⟩, ⟨[102], 0, some [], 1⟩) := rfl
  have hboth := files_are_byte_lists ⟨vfsInit, fun _ => []⟩ memFileRun ⟨tmpfsInit, fun _ => []⟩
    tmpBytesRun
  refine ⟨(hboth.1 vfsInit_holds ⟨⟨trivial, trivial⟩, fun s₁ h₁ => ⟨⟨?_, ?_⟩,
    fun _ _ => ⟨⟨trivial, trivial⟩, fun _ _ => trivial⟩⟩⟩).1, (hboth.2 tmpfsInit_holds
    ⟨⟨trivial, trivial⟩, fun s₁ h₁ => ⟨⟨?_, ?_⟩,
    fun _ _ => ⟨⟨trivial, trivial⟩, fun _ _ => trivial⟩⟩⟩).1⟩
  · obtain rfl := Option.some.inj h₁
    change ∀ i, fileOf _ 4 i → writeOffset _ i + min 2 maxFileSize ≤ maxFileSize
    decide
  · obtain rfl := Option.some.inj h₁
    intro i hi hlt
    refine absurd hlt ?_
    clear hlt
    revert i
    decide
  · obtain rfl := Option.some.inj h₁
    intro o i n hfile
    obtain ⟨rfl, hrest⟩ := Prod.mk.inj (Option.some.inj (hopened.symm.trans hfile))
    obtain ⟨rfl, rfl⟩ := Prod.mk.inj hrest
    decide
  · obtain rfl := Option.some.inj h₁
    intro o i n hfile
    obtain ⟨rfl, hrest⟩ := Prod.mk.inj (Option.some.inj (hopened.symm.trans hfile))
    obtain ⟨rfl, rfl⟩ := Prod.mk.inj hrest
    exact fun _ _ _ k _ hk => absurd hk (Nat.not_lt_zero k)

/-- Three bytes are written, cut by `O_TRUNC`, and a byte is written at 2. -/
def staleRun : List VfsStep :=
  [bareStep (.open [47, 97] oCreat), bareStep (.write 4 [1, 2, 3]),
    bareStep (.open [47, 97] oTrunc), bareStep (.writeAt 4 [9] 2), bareStep (.read 4 3)]

/-- **Old bytes come back:** a file that is cut by `O_TRUNC` and then written past its end
shows what it held before. -/
theorem stale_bytes_after_trunc :
    ¬ ∀ steps : List VfsStep,
      Run.AllowedOption memBytesStep memInRange ⟨vfsInit, fun _ => []⟩ steps →
        Run.AllowedOption memBytesStep MemAgrees ⟨vfsInit, fun _ => []⟩ steps := by
  intro hall
  have hin : Run.AllowedOption memBytesStep memInRange ⟨vfsInit, fun _ => []⟩ staleRun := by
    refine ⟨trivial, fun s₁ h₁ => ⟨?_, fun _ _ => ⟨trivial, fun _ _ => ⟨fun _ _ => by decide,
      fun _ _ => ⟨trivial, fun _ _ => trivial⟩⟩⟩⟩⟩
    obtain rfl := Option.some.inj h₁
    change ∀ i, fileOf _ 4 i → writeOffset _ i + min 3 maxFileSize ≤ maxFileSize
    decide
  obtain ⟨-, h1⟩ := hall staleRun hin
  obtain ⟨-, h2⟩ := h1 _ rfl
  obtain ⟨-, h3⟩ := h2 _ rfl
  obtain ⟨-, h4⟩ := h3 _ rfl
  obtain ⟨⟨-, m, r, heq, hreply⟩, -⟩ := h4 _ rfl
  obtain ⟨hbytes, -⟩ := hreply ⟨1, by decide⟩ (by decide)
  obtain ⟨-, rfl⟩ := Prod.mk.inj (Option.some.inj heq)
  exact absurd hbytes (by decide)

end Lestra
