import Lestra.Fs.OpenFiles
import Lestra.Lib.ByteFile

/-!
# The contents of memfs files

The files of memfs as byte lists. Beside memfs a run keeps the list of the file in every
slot, changed by the operation that each call stands for (`memOp`). As long as no write past
the end finds old bytes behind the end, every call does to the data arrays what its
operation does to the lists (`vfsCall_holds`).
-/

namespace Lestra

open ByteFile (Op)

-- ---------------------------------------------------------------------------
-- What a call does to the files of memfs
-- ---------------------------------------------------------------------------

/-- The regular memfs file a descriptor stands for. -/
def fileAt (m : Memfs) (fd : Int) : Option (Fin maxFiles) :=
  if otherFd fd then none else (fdNode m fd).filter fun i => !(m.files i).isDir

/-- A truncation to a length that the code accepts. -/
def resizeOp {κ : Type} (max : Nat) (length : Int) (file : Option κ) : Option (Op κ) :=
  if 0 ≤ length ∧ length ≤ max then file.map fun k => .resize k length.toNat else none

instance (d : Drivers) (path : Path) : Decidable (reachesMemfs d path) :=
  inferInstanceAs (Decidable (_ ∧ _ ∧ _))

/-- `O_TRUNC` cuts a file that is there, `O_CREAT` makes an empty one. -/
def openOp (d : Drivers) (c : Caller) (m : Memfs) (path : Path) (flags : BitVec 32) :
    Option (Op (Fin maxFiles)) :=
  if reachesMemfs d path then
    match memfsResolvePath m.files c.root path with
    | some i => if hasFlag flags oTrunc && !(m.files i).isDir then some (.resize i 0) else none
    | none =>
      if hasFlag flags oCreat && (memfsSplitPath m.files c.root path).isSome then
        (memfsAllocSlot m.files).map .create
      else none
  else none

/-- The operation on byte lists that a call stands for; a write transfers at most the
maximum. -/
def memOp (d : Drivers) (c : Caller) (m : Memfs) : VfsCall → Option (Op (Fin maxFiles))
  | .open path flags => openOp d c m path flags
  | .write fd buf => (fileAt m fd).map fun i =>
    if hasFlag (m.flags i) oAppend then .append i (buf.take maxFileSize)
    else .write i (m.offsets i) (buf.take maxFileSize)
  | .writeAt fd buf offset => (fileAt m fd).map fun i =>
    .write i (sizeT offset) (buf.take maxFileSize)
  | .truncate path length =>
    if path.Absolute ∧ underTmp path = false then
      resizeOp maxFileSize length ((memfsResolvePath m.files c.root path).filter fun i =>
        !(m.files i).isDir)
    else none
  | .ftruncate fd length => resizeOp maxFileSize length (fileAt m fd)
  | _ => none

/-- memfs with the byte list of the file in each slot. -/
structure MemfsBytes where
  fs : Memfs
  contents : Fin maxFiles → List UInt8

def memBytesStep (s : MemfsBytes) (st : VfsStep) : Option MemfsBytes :=
  (vfsStep s.fs st).map fun m =>
    ⟨m, ByteFile.applyOption s.contents (memOp st.drivers st.caller s.fs st.call)⟩

/-- The file in slot `i` has the size of its byte list. -/
def MemSizes (s : MemfsBytes) : Prop :=
  ∀ i, (s.fs.files i).live → (s.fs.files i).isDir = false →
    (s.fs.files i).size = (s.contents i).length

/-- A read returns a piece of the byte list, and a write transfers everything up to the
maximum. -/
def memReply (s : MemfsBytes) (call : VfsCall) (r : Reply) : Prop :=
  match call with
  | .read fd count => ∀ i, fileOf s.fs fd i →
      r.bytes = ByteFile.readAt (s.contents i) (s.fs.offsets i) count ∧ r.ret = r.bytes.length
  | .readAt fd count offset => ∀ i, fileOf s.fs fd i →
      r.bytes = ByteFile.readAt (s.contents i) (sizeT offset) count ∧ r.ret = r.bytes.length
  | .write fd buf | .writeAt fd buf _ => ∀ i, fileOf s.fs fd i →
      r.ret = (buf.take maxFileSize).length
  | _ => True

/-- The call returns, and its reply and the sizes are those of the byte lists. -/
def MemAgrees (s : MemfsBytes) (st : VfsStep) : Prop :=
  MemSizes s ∧ ∃ m r, vfsCall st.drivers st.caller s.fs st.call = some (m, r) ∧
    memReply s st.call r

/-- Writes end inside the maximum. -/
def memInRange (s : MemfsBytes) (st : VfsStep) : Prop :=
  match st.call with
  | .write fd buf => ∀ i, fileOf s.fs fd i →
      writeOffset s.fs i + min buf.length maxFileSize ≤ maxFileSize
  | .writeAt fd buf offset => ∀ i, fileOf s.fs fd i →
      sizeT offset + min buf.length maxFileSize ≤ maxFileSize
  | _ => True

/-- A write past the end writes something, and the bytes from the end up to it are 0. -/
def gapZero (f : MemFile) (off : Nat) (buf : List UInt8) : Prop :=
  f.size < off → buf ≠ [] ∧ ∀ k, f.size ≤ k → k < off → ByteBuf.get f.data k = 0

def memAllowed (s : MemfsBytes) (st : VfsStep) : Prop :=
  memInRange s st ∧
    match st.call with
    | .write fd buf => ∀ i, fileOf s.fs fd i →
        gapZero (s.fs.files i) (writeOffset s.fs i) buf
    | .writeAt fd buf offset => ∀ i, fileOf s.fs fd i →
        gapZero (s.fs.files i) (sizeT offset) buf
    | _ => True

-- ---------------------------------------------------------------------------
-- The invariant of memfs
-- ---------------------------------------------------------------------------

/-- The data array of every slot that is no directory holds its byte list, also after the
file is gone. -/
def MemHolds (m : Memfs) (contents : Fin maxFiles → List UInt8) : Prop :=
  ∀ i, (m.files i).isDir = false → (m.files i).size ≤ maxFileSize ∧
    ByteFile.Holds (m.files i).data (m.files i).size (contents i)

/-- A slot that is no directory after the step was none before and has the same bytes. -/
def KeptAt (m m' : Memfs) (i : Fin maxFiles) : Prop :=
  (m'.files i).isDir = false → (m.files i).isDir = false ∧
    (m'.files i).data = (m.files i).data ∧ (m'.files i).size = (m.files i).size

def KeepsBytes (m m' : Memfs) : Prop := ∀ i, KeptAt m m' i

section
variable {d : Drivers} {c : Caller} {m m' : Memfs} {contents : Fin maxFiles → List UInt8}
  {i : Fin maxFiles} {fd : Int}

theorem fileAt_eq_some : fileAt m fd = some i ↔ fileOf m fd i := by
  unfold fileAt fileOf
  cases otherFd fd <;> simp [Option.filter_eq_some_iff]

theorem fileAt_eq_none (h : fileAt m fd = none) : ∀ i, ¬ fileOf m fd i :=
  fun i hi => by
    rw [fileAt_eq_some.mpr hi] at h
    exact absurd h (by simp)

theorem MemHolds.keep (h : MemHolds m contents) (hkeep : KeepsBytes m m') :
    MemHolds m' contents := by
  intro i hdir
  obtain ⟨hdir', hdata, hsize⟩ := hkeep i hdir
  rw [hdata, hsize]
  exact h i hdir'

/-- One file gets other bytes, and every other file stays. -/
theorem MemHolds.edit {bs : List UInt8} (h : MemHolds m contents)
    (hne : ∀ j, j ≠ i → KeptAt m m' j)
    (hsize : (m'.files i).size ≤ maxFileSize)
    (hholds : ByteFile.Holds (m'.files i).data (m'.files i).size bs) :
    MemHolds m' (Function.update contents i bs) := by
  intro j hdir
  by_cases hj : j = i
  · subst hj
    rw [Function.update_self]
    exact ⟨hsize, hholds⟩
  · obtain ⟨hdir', hdata, hsize'⟩ := hne j hj hdir
    rw [Function.update_of_ne hj, hdata, hsize']
    exact h j hdir'

theorem keepsBytes_of_files (h : m'.files = m.files) : KeepsBytes m m' := by
  intro i hdir
  rw [h] at hdir ⊢
  exact ⟨hdir, rfl, rfl⟩

theorem setNode_keeps (f : MemFile → MemFile) {j : Fin maxFiles} (hj : j ≠ i)
    (hfiles : m'.files = setNode m.files i f) : KeptAt m m' j := by
  intro hdir
  rw [hfiles, setNode_ne _ _ hj] at hdir ⊢
  exact ⟨hdir, rfl, rfl⟩

-- ---------------------------------------------------------------------------
-- One call on memfs
-- ---------------------------------------------------------------------------

theorem vfsOpen_skips {path : Path} {flags : BitVec 32} (h : ¬ reachesMemfs d path) :
    (vfsOpen d c m path flags).1 = m := by
  unfold vfsOpen
  split
  · rfl
  · rename_i hproc
    split
    · rfl
    · rename_i hdev
      split
      · rfl
      · rename_i htmp
        exact absurd ⟨hproc, hdev, by simpa using htmp⟩ h

/-- What `vfs_open` does to memfs once it gets there. -/
theorem vfsOpen_reaches {path : Path} {flags : BitVec 32} (h : reachesMemfs d path) :
    (vfsOpen d c m path flags).1 =
      match memfsResolvePath m.files c.root path with
      | some i => openNode m i flags
      | none =>
        if hasFlag flags oCreat then
          match memfsSplitPath m.files c.root path, memfsAllocSlot m.files with
          | some (parent, name), some slot => createNode c m parent slot name flags
          | _, _ => m
        else m := by
  obtain ⟨hproc, hdev, htmp⟩ := h
  rw [vfsOpen, if_neg hproc, if_neg hdev, htmp, if_neg Bool.false_ne_true]
  cases memfsResolvePath m.files c.root path with
  | some i => rfl
  | none =>
    dsimp only
    split
    · cases memfsSplitPath m.files c.root path with
      | none => rfl
      | some target => cases memfsAllocSlot m.files <;> rfl
    · split_ifs <;> rfl

/-- The new node of `createNode` is an empty regular file. -/
theorem createNode_new (parent slot : Fin maxFiles) (name : List UInt8) (flags : BitVec 32) :
    ((createNode c m parent slot name flags).files slot).size = 0 := by
  rw [createNode, addNode_field MemFile.size fun _ _ => rfl, setNode_same]
  rfl

/-- `addNode` keeps the bytes of every other node. -/
theorem addNode_keeps {name : List UInt8} {isDir : Bool} {mode : BitVec 32}
    {parent slot j : Fin maxFiles} (hj : j ≠ slot)
    (hfiles : m'.files = addNode c name isDir mode parent slot m.files) : KeptAt m m' j := by
  intro hdir
  rw [hfiles] at hdir ⊢
  refine ⟨(addNode_births hj).2 ▸ hdir, ?_⟩
  rw [addNode_field MemFile.data fun _ _ => rfl, addNode_field MemFile.size fun _ _ => rfl,
    setNode_ne _ _ hj]
  exact ⟨rfl, rfl⟩

theorem vfsOpen_holds (h : MemHolds m contents) (path : Path) (flags : BitVec 32) :
    MemHolds (vfsOpen d c m path flags).1
      (ByteFile.applyOption contents (openOp d c m path flags)) := by
  unfold openOp
  by_cases hmemfs : reachesMemfs d path
  · rw [vfsOpen_reaches hmemfs, if_pos hmemfs]
    cases memfsResolvePath m.files c.root path with
    | some i =>
      dsimp only [openNode]
      by_cases hcut : (hasFlag flags oTrunc && !(m.files i).isDir) = true
      · simp only [if_pos hcut]
        refine h.edit (fun j hj => setNode_keeps (fun f => { f with size := 0 }) hj rfl) ?_ ?_ <;>
          simp only [setNode_same]
        · exact Nat.zero_le _
        · exact ⟨ByteFile.length_resize _ 0, fun _ hk => absurd hk (Nat.not_lt_zero _)⟩
      · simp only [if_neg hcut]
        exact h.keep (keepsBytes_of_files rfl)
    | none =>
      dsimp only
      cases hcreat : hasFlag flags oCreat with
      | false => exact h
      | true =>
        cases memfsSplitPath m.files c.root path with
        | none => exact h
        | some target =>
          cases memfsAllocSlot m.files with
          | none => exact h
          | some slot =>
            have hnew := createNode_new (c := c) (m := m) target.1 slot target.2 flags
            change MemHolds (createNode c m target.1 slot target.2 flags) _
            refine h.edit (i := slot) (fun j hj => addNode_keeps hj rfl) ?_ ?_
            · rw [hnew]
              exact Nat.zero_le _
            · rw [hnew]
              exact .nil _
  · rw [vfsOpen_skips hmemfs, if_neg hmemfs]
    exact h

theorem writeNode_holds {f : MemFile} {bytes : List UInt8} {off : Nat} {buf : List UInt8}
    (h : ByteFile.Holds f.data f.size bytes) (hin : off + min buf.length maxFileSize ≤ maxFileSize)
    (hgap : gapZero f off buf) :
    ByteFile.Holds (writeNode off buf f).data (writeNode off buf f).size
      (ByteFile.writeAt bytes off (buf.take maxFileSize)) := by
  have hcount : buf.take (writeCount off buf.length) = buf.take maxFileSize := by
    rw [writeCount_eq _ (by omega), List.take_eq_take_iff]
    omega
  have hend : writeEnd off buf.length = off + (buf.take maxFileSize).length := by
    rw [writeEnd_eq _ (by omega), List.length_take, Nat.min_comm]
  simp only [writeNode, hcount, hend]
  refine h.write fun hlt => ?_
  obtain ⟨hbuf, hzero⟩ := hgap hlt
  refine ⟨fun hnil => ?_, hzero⟩
  rcases List.take_eq_nil_iff.mp hnil with hmax | hnil
  · exact absurd hmax (by decide)
  · exact hbuf hnil

/-- A write in range finds room and transfers everything up to the maximum. -/
theorem write_fits {off : Nat} {buf : List UInt8}
    (hin : off + min buf.length maxFileSize ≤ maxFileSize) :
    ¬ writeFull off buf.length ∧ off + writeCount off buf.length ≤ maxFileSize ∧
      writeCount off buf.length = (buf.take maxFileSize).length := by
  have hend := writeEnd_eq buf.length (show off ≤ maxFileSize by omega)
  have hcount := writeCount_eq buf.length (show off ≤ maxFileSize by omega)
  refine ⟨fun hfull => ?_, by omega, by rw [hcount, List.length_take]; omega⟩
  have := hfull.1
  omega

/-- A write of a regular file changes it as its byte list. -/
theorem MemHolds.writeFile {off : Nat} {buf : List UInt8} (h : MemHolds m contents)
    (hfile : fileOf m fd i) (hfiles : m'.files = setNode m.files i (writeNode off buf))
    (hin : off + min buf.length maxFileSize ≤ maxFileSize)
    (hgap : gapZero (m.files i) off buf) :
    MemHolds m' (Function.update contents i
      (ByteFile.writeAt (contents i) off (buf.take maxFileSize))) := by
  obtain ⟨hsize, hholds⟩ := h i hfile.2.2
  refine h.edit (fun j hj => setNode_keeps _ hj hfiles) ?_ ?_
  · rw [hfiles, setNode_same]
    have hend := writeEnd_eq buf.length (show off ≤ maxFileSize by omega)
    simp only [writeNode, hend]
    omega
  · rw [hfiles, setNode_same]
    exact writeNode_holds hholds hin hgap

theorem vfsWrite_file {buf : List UInt8} (hfile : fileOf m fd i)
    (hin : writeOffset m i + min buf.length maxFileSize ≤ maxFileSize) :
    vfsWrite d m fd buf = some ({ m with
        files := setNode m.files i (writeNode (writeOffset m i) buf)
        offsets := Function.update m.offsets i
          (writeOffset m i + writeCount (writeOffset m i) buf.length) },
        ⟨writeCount (writeOffset m i) buf.length, []⟩) := by
  obtain ⟨hfull, hroom, -⟩ := write_fits hin
  simp only [vfsWrite, hfile.1, hfile.2.1, hfile.2.2, Bool.false_eq_true, if_false, if_neg hfull,
    if_pos hroom]

theorem vfsWriteAt_file {buf : List UInt8} {offset : Int} (hfile : fileOf m fd i)
    (hin : sizeT offset + min buf.length maxFileSize ≤ maxFileSize) :
    vfsWriteAt d m fd buf offset
      = some ({ m with files := setNode m.files i (writeNode (sizeT offset) buf) },
        ⟨writeCount (sizeT offset) buf.length, []⟩) := by
  obtain ⟨hfull, hroom, -⟩ := write_fits hin
  simp only [vfsWriteAt, hfile.1, hfile.2.1, hfile.2.2, Bool.false_eq_true, if_false, if_neg hfull,
    if_pos hroom]

theorem vfsWrite_noFile (d : Drivers) (buf : List UInt8) (h : fileAt m fd = none) :
    ∃ r, vfsWrite d m fd buf = some (m, r) := by
  rcases vfsWrite_cases d buf (fun i hi => absurd hi (fileAt_eq_none h i)) with
    ⟨r, heq, -⟩ | ⟨i, hi, -⟩
  · exact ⟨r, heq⟩
  · exact absurd hi (fileAt_eq_none h i)

theorem vfsWriteAt_noFile (d : Drivers) (buf : List UInt8) (offset : Int) (h : fileAt m fd = none) :
    ∃ r, vfsWriteAt d m fd buf offset = some (m, r) := by
  rcases vfsWriteAt_cases d buf
    (fun i hi => absurd hi (fileAt_eq_none h i)) with ⟨r, heq, -⟩ | ⟨i, hi, -⟩
  · exact ⟨r, heq⟩
  · exact absurd hi (fileAt_eq_none h i)

/-- A regular file is truncated as its byte list. -/
theorem MemHolds.truncateFile {len : Nat} (h : MemHolds m contents)
    (hdir : (m.files i).isDir = false) (hlen : len ≤ maxFileSize) :
    truncateNode m i len = some (truncated m i len, 0) ∧
      MemHolds (truncated m i len)
        (Function.update contents i (ByteFile.resize (contents i) len)) := by
  obtain ⟨hsize, hholds⟩ := h i hdir
  refine ⟨?_, h.edit (fun j hj => setNode_keeps _ hj rfl) ?_ ?_⟩
  · rw [truncateNode, hdir, if_neg Bool.false_ne_true, if_neg (by omega)]
    rfl
  · simp only [truncated, setNode_same]
    exact hlen
  · simp only [truncated, setNode_same, resizeNode]
    exact hholds.resize len

theorem vfsTruncate_holds (h : MemHolds m contents) (path : Path) (length : Int) :
    ∃ r, vfsTruncate d c m path length = some r ∧
      MemHolds r.1 (ByteFile.applyOption contents (memOp d c m (.truncate path length))) := by
  have hsame : ∀ ret : Int, ∃ r, some ((m, ret) : Memfs × Int) = some r ∧
      MemHolds r.1 (ByteFile.applyOption contents none) := fun ret => ⟨_, rfl, h⟩
  dsimp only [vfsTruncate, memOp, resizeOp]
  by_cases habs : path.Absolute
  · by_cases hneg : length < 0
    · rw [if_neg (not_not.mpr habs), if_pos hneg, if_neg (c := 0 ≤ length ∧ _) (by omega), ite_self]
      exact hsame _
    cases htmp : underTmp path with
    | true =>
      rw [if_neg (not_not.mpr habs), if_neg hneg, if_pos rfl, if_neg (by simp)]
      exact hsame _
    | false =>
      rw [if_neg (not_not.mpr habs), if_neg hneg, if_neg Bool.false_ne_true,
        if_pos (show path.Absolute ∧ false = false from ⟨habs, rfl⟩)]
      by_cases hmax : (maxFileSize : Int) < length
      · rw [if_pos hmax, if_neg (by omega)]
        exact hsame _
      rw [if_neg hmax, if_pos (by omega)]
      cases hres : memfsResolvePath m.files c.root path with
      | none => exact hsame _
      | some i =>
        dsimp only
        cases hdir : (m.files i).isDir with
        | true =>
          rw [truncateNode, hdir, if_pos rfl, Option.filter_some, hdir]
          exact hsame _
        | false =>
          rw [Option.filter_some, hdir]
          obtain ⟨heq, hholds⟩ := h.truncateFile hdir
            (show length.toNat ≤ maxFileSize by omega)
          exact ⟨_, heq, hholds⟩
  · rw [if_pos habs, if_neg fun hp => habs hp.1]
    exact hsame _

theorem vfsFtruncate_holds (h : MemHolds m contents) (fd length : Int) :
    ∃ r, vfsFtruncate d m fd length = some r ∧
      MemHolds r.1 (ByteFile.applyOption contents (memOp d c m (.ftruncate fd length))) := by
  have hsame : ∀ ret : Int, ∃ r, some ((m, ret) : Memfs × Int) = some r ∧
      MemHolds r.1 (ByteFile.applyOption contents none) := fun ret => ⟨_, rfl, h⟩
  dsimp only [vfsFtruncate, memOp, resizeOp]
  by_cases hneg : length < 0
  · rw [if_pos hneg, if_neg (by omega)]
    exact hsame _
  cases hother : otherFd fd with
  | true =>
    rw [if_neg hneg, if_pos rfl, fileAt, hother, if_pos rfl, Option.map_none, ite_self]
    exact hsame _
  | false =>
    rw [if_neg hneg, if_neg Bool.false_ne_true, fileAt, hother, if_neg Bool.false_ne_true]
    by_cases hmax : (maxFileSize : Int) < length
    · rw [if_pos hmax, if_neg (by omega)]
      exact hsame _
    rw [if_neg hmax, if_pos (by omega)]
    cases hfd : fdNode m fd with
    | none => exact hsame _
    | some i =>
      dsimp only
      cases hdir : (m.files i).isDir with
      | true =>
        rw [truncateNode, hdir, if_pos rfl, Option.filter_some, hdir]
        exact hsame _
      | false =>
        rw [Option.filter_some, hdir]
        obtain ⟨heq, hholds⟩ := h.truncateFile hdir
          (show length.toNat ≤ maxFileSize by omega)
        exact ⟨_, heq, hholds⟩

-- ---------------------------------------------------------------------------
-- Calls that change no bytes
-- ---------------------------------------------------------------------------

theorem NoBirths.keepsBytes (hbirths : NoBirths m.files m'.files)
    (hdata : ∀ i, (m'.files i).data = (m.files i).data)
    (hsize : ∀ i, (m'.files i).size = (m.files i).size) : KeepsBytes m m' :=
  fun i hdir => ⟨(hbirths i).2 ▸ hdir, hdata i, hsize i⟩

/-- A field that `removeNode` leaves alone. -/
theorem removeNode_field {β : Type} (g : MemFile → β)
    (hg : ∀ f cs live, g { f with children := cs, live } = g f) (m : Memfs) (i j : Fin maxFiles) :
    g ((removeNode m i).files j) = g (m.files j) := by
  have hdetach := detach_field g (fun f cs => hg f cs f.live) m.files i
  by_cases hj : j = i
  · rw [hj, removeNode_same, hg, hdetach]
  · rw [removeNode_ne m hj, hdetach]

theorem removeNode_keepsBytes (m : Memfs) (i : Fin maxFiles) : KeepsBytes m (removeNode m i) :=
  (removeNode_noBirths m i).keepsBytes (removeNode_field MemFile.data (fun _ _ _ => rfl) m i)
    (removeNode_field MemFile.size (fun _ _ _ => rfl) m i)

theorem moveNode_keepsBytes (m : Memfs) (old parent : Fin maxFiles)
    (new : Option (Fin maxFiles)) (name : List UInt8) :
    KeepsBytes m (moveNode m (clearTarget m new) old new parent name).1 := by
  have hfield : ∀ {β : Type} (g : MemFile → β),
      (∀ f cs name x, g { f with children := cs, name, parentIdx := x } = g f) →
      (∀ f cs live, g { f with children := cs, live } = g f) → ∀ i,
      g ((moveNode m (clearTarget m new) old new parent name).1.files i) = g (m.files i) := by
    intro β g hmove hremove i
    rcases moveNode_field g hmove m (clearTarget m new) old parent new name i with heq | heq
    · rw [heq]
      cases new with
      | none => rfl
      | some n => exact removeNode_field g hremove m n i
    · exact heq
  exact (moveNode_noBirths m old parent new name).keepsBytes
    (hfield MemFile.data (fun _ _ _ _ => rfl) fun _ _ _ => rfl)
    (hfield MemFile.size (fun _ _ _ _ => rfl) fun _ _ _ => rfl)

theorem setNode_keepsBytes (f : MemFile → MemFile) (hfiles : m'.files = setNode m.files i f)
    (hf : (f (m.files i)).live = (m.files i).live ∧ (f (m.files i)).isDir = (m.files i).isDir ∧
      (f (m.files i)).data = (m.files i).data ∧ (f (m.files i)).size = (m.files i).size) :
    KeepsBytes m m' := by
  obtain ⟨hlive, hdir, hdata, hsize⟩ := hf
  refine NoBirths.keepsBytes (.of_field fun j => ?_) (fun j => ?_) fun j => ?_ <;> rw [hfiles]
  · exact ⟨setNode_field MemFile.live _ _ _ hlive, setNode_field MemFile.isDir _ _ _ hdir⟩
  · exact setNode_field MemFile.data _ _ _ hdata
  · exact setNode_field MemFile.size _ _ _ hsize

theorem vfsMkdir_keepsBytes (path : Path) (mode : BitVec 32) :
    KeepsBytes m (vfsMkdir d c m path mode).1 := by
  rcases vfsMkdir_cases d c m path mode with heq | ⟨parent, slot, name, -, heq⟩ <;> rw [heq]
  · exact keepsBytes_of_files rfl
  · intro j hdir
    have hj : j ≠ slot := by
      rintro rfl
      exact absurd (addNode_isDir.symm.trans hdir) (by simp)
    exact addNode_keeps hj rfl hdir

-- ---------------------------------------------------------------------------
-- One step of memfs
-- ---------------------------------------------------------------------------

/-- The bytes of a read of a file that its array holds. -/
theorem readNode_holds {f : MemFile} {bytes : List UInt8} (hsize : f.size ≤ maxFileSize)
    (h : ByteFile.Holds f.data f.size bytes) (off count : Nat) :
    readNode f off count = some (ByteFile.readAt bytes off count) := by
  unfold readNode
  dsimp only
  split
  · rename_i hoff
    rw [ByteFile.readAt, List.drop_eq_nil_of_le (by rw [h.length]; exact hoff), List.take_nil]
  · rw [if_pos (by omega), h.read]

theorem fileOf_unique {j : Fin maxFiles} (hi : fileOf m fd i) (hj : fileOf m fd j) : i = j :=
  Option.some.inj (hi.2.1.symm.trans hj.2.1)

/-- What one call leaves, with a reply that agrees with the byte lists. -/
def StepHolds (d : Drivers) (c : Caller) (m : Memfs) (contents : Fin maxFiles → List UInt8)
    (call : VfsCall) : Prop :=
  ∃ m' r, vfsCall d c m call = some (m', r) ∧ memReply ⟨m, contents⟩ call r ∧
    MemHolds m' (ByteFile.applyOption contents (memOp d c m call))

theorem read_holds (h : MemHolds m contents) (fd : Int) (count : Nat) :
    StepHolds d c m contents (.read fd count) := by
  rcases hfile : fileAt m fd with _ | i
  · rcases vfsRead_cases d m fd count with
      ⟨r, heq, -⟩ | ⟨i, hi, -⟩
    · exact ⟨m, r, heq, fun i hi => absurd hi (fileAt_eq_none hfile i), h⟩
    · exact absurd hi (fileAt_eq_none hfile i)
  · have hi := fileAt_eq_some.mp hfile
    obtain ⟨hsize, hholds⟩ := h i hi.2.2
    by_cases hend : (m.files i).size ≤ m.offsets i
    · refine ⟨m, ⟨0, []⟩, ?_, fun j hj => ?_, h⟩
      · simp only [vfsCall, vfsRead, hi.1, hi.2.1, hi.2.2, Bool.false_eq_true, if_false, if_pos hend]
      · obtain rfl := fileOf_unique hi hj
        dsimp only
        rw [ByteFile.readAt, List.drop_eq_nil_of_le (by rw [hholds.length]; exact hend),
          List.take_nil]
        exact ⟨rfl, rfl⟩
    · have hread := readNode_holds hsize hholds (m.offsets i) count
      have heq : vfsRead d m fd count = some
          ({ m with
            offsets := Function.update m.offsets i
              (m.offsets i + (ByteFile.readAt (contents i) (m.offsets i) count).length) },
            ⟨(ByteFile.readAt (contents i) (m.offsets i) count).length,
              ByteFile.readAt (contents i) (m.offsets i) count⟩) := by
        simp only [vfsRead, hi.1, hi.2.1, hi.2.2, Bool.false_eq_true, if_false, if_neg hend, hread,
          Option.map_some]
      refine ⟨_, _, heq, fun j hj => ?_, h.keep (keepsBytes_of_files rfl)⟩
      obtain rfl := fileOf_unique hi hj
      exact ⟨rfl, rfl⟩

theorem readAt_holds (h : MemHolds m contents) (fd : Int) (count : Nat) (offset : Int) :
    StepHolds d c m contents (.readAt fd count offset) := by
  rcases hfile : fileAt m fd with _ | i
  · rcases vfsReadAt_cases d m fd offset count with
      ⟨r, heq, -⟩ | ⟨i, hi, -⟩
    · exact ⟨m, r, heq, fun i hi => absurd hi (fileAt_eq_none hfile i), h⟩
    · exact absurd hi (fileAt_eq_none hfile i)
  · have hi := fileAt_eq_some.mp hfile
    obtain ⟨hsize, hholds⟩ := h i hi.2.2
    have hread := readNode_holds hsize hholds (sizeT offset) count
    have heq : vfsReadAt d m fd count offset = some
        (m, ⟨(ByteFile.readAt (contents i) (sizeT offset) count).length,
          ByteFile.readAt (contents i) (sizeT offset) count⟩) := by
      simp only [vfsReadAt, hi.1, hi.2.1, hi.2.2, Bool.false_eq_true, if_false, hread,
        Option.map_some]
    refine ⟨_, _, heq, fun j hj => ?_, h⟩
    obtain rfl := fileOf_unique hi hj
    exact ⟨rfl, rfl⟩

theorem write_holds (h : MemHolds m contents) {buf : List UInt8}
    (hin : ∀ i, fileOf m fd i → writeOffset m i + min buf.length maxFileSize ≤ maxFileSize)
    (hgap : ∀ i, fileOf m fd i → gapZero (m.files i) (writeOffset m i) buf) :
    StepHolds d c m contents (.write fd buf) := by
  rcases hfile : fileAt m fd with _ | i
  · obtain ⟨r, heq⟩ := vfsWrite_noFile d buf hfile
    refine ⟨m, r, heq, fun i hi => absurd hi (fileAt_eq_none hfile i), ?_⟩
    rw [memOp, hfile]
    exact h
  · have hi := fileAt_eq_some.mp hfile
    refine ⟨_, _, vfsWrite_file hi (hin i hi), fun j hj => ?_, ?_⟩
    · obtain rfl := fileOf_unique hi hj
      exact congrArg Nat.cast (write_fits (hin i hi)).2.2
    · have hwrite : MemHolds { m with
          files := setNode m.files i (writeNode (writeOffset m i) buf)
          offsets := Function.update m.offsets i
            (writeOffset m i + writeCount (writeOffset m i) buf.length) } _ :=
        h.writeFile hi rfl (hin i hi) (hgap i hi)
      have hlen := (h i hi.2.2).2.length
      rw [memOp, hfile, Option.map_some]
      by_cases happ : hasFlag (m.flags i) oAppend
      · have hoff : writeOffset m i = (contents i).length := (if_pos happ).trans hlen.symm
        rw [if_pos happ]
        change MemHolds _ (Function.update contents i
          (ByteFile.writeAt (contents i) (contents i).length _))
        rw [← hoff]
        exact hwrite
      · have hoff : writeOffset m i = m.offsets i := if_neg happ
        rw [if_neg happ]
        change MemHolds _ (Function.update contents i (ByteFile.writeAt (contents i) (m.offsets i) _))
        rw [← hoff]
        exact hwrite

theorem writeAt_holds (h : MemHolds m contents) {buf : List UInt8} {offset : Int}
    (hin : ∀ i, fileOf m fd i → sizeT offset + min buf.length maxFileSize ≤ maxFileSize)
    (hgap : ∀ i, fileOf m fd i → gapZero (m.files i) (sizeT offset) buf) :
    StepHolds d c m contents (.writeAt fd buf offset) := by
  rcases hfile : fileAt m fd with _ | i
  · obtain ⟨r, heq⟩ := vfsWriteAt_noFile d buf offset hfile
    refine ⟨m, r, heq, fun i hi => absurd hi (fileAt_eq_none hfile i), ?_⟩
    rw [memOp, hfile]
    exact h
  · have hi := fileAt_eq_some.mp hfile
    refine ⟨_, _, vfsWriteAt_file hi (hin i hi), fun j hj => ?_, ?_⟩
    · obtain rfl := fileOf_unique hi hj
      exact congrArg Nat.cast (write_fits (hin i hi)).2.2
    · rw [memOp, hfile]
      exact h.writeFile hi rfl (hin i hi) (hgap i hi)

theorem StepHolds.keep {call : VfsCall} {r : Memfs × Reply} (h : MemHolds m contents)
    (heq : vfsCall d c m call = some r) (hreply : memReply ⟨m, contents⟩ call r.2)
    (hop : memOp d c m call = none) (hkeep : KeepsBytes m r.1) : StepHolds d c m contents call :=
  ⟨r.1, r.2, heq, hreply, by rw [hop]; exact h.keep hkeep⟩

/-- Every call of memfs is its operation on byte lists. -/
theorem vfsCall_holds (h : MemHolds m contents) {st : VfsStep}
    (hok : memAllowed ⟨m, contents⟩ st) :
    StepHolds st.drivers st.caller m contents st.call := by
  obtain ⟨d, c, call⟩ := st
  obtain ⟨hin, hgap⟩ := hok
  cases call with
  | «open» path flags => exact ⟨_, _, rfl, trivial, vfsOpen_holds h path flags⟩
  | stat path => exact ⟨_, _, rfl, trivial, h⟩
  | mkdir path mode =>
    exact .keep (r := plain (vfsMkdir d c m path mode)) h rfl trivial rfl
      (vfsMkdir_keepsBytes path mode)
  | unlink path =>
    refine .keep (r := plain (vfsUnlink d c m path)) h rfl trivial rfl ?_
    rcases vfsUnlink_cases d c m path with heq | ⟨i, -, heq⟩ <;> rw [plain, heq]
    · exact keepsBytes_of_files rfl
    · exact removeNode_keepsBytes m i
  | rmdir path =>
    refine .keep (r := plain (vfsRmdir d c m path)) h rfl trivial rfl ?_
    rcases vfsRmdir_cases d c m path with heq | ⟨i, -, heq⟩ <;> rw [plain, heq]
    · exact keepsBytes_of_files rfl
    · exact removeNode_keepsBytes m i
  | rename oldpath newpath =>
    refine .keep (r := plain (vfsRename d c m oldpath newpath)) h rfl trivial rfl ?_
    rcases vfsRename_cases d c m oldpath newpath with heq | ⟨old, new, parent, name, -, heq⟩ <;>
      rw [plain, heq]
    · exact keepsBytes_of_files rfl
    · exact moveNode_keepsBytes m old parent new name
  | chmod path mode =>
    refine .keep (r := plain (vfsChmod d c m path mode)) h rfl trivial rfl ?_
    unfold plain vfsChmod
    split
    · exact keepsBytes_of_files rfl
    · cases memfsResolvePath m.files c.root path with
      | none => exact keepsBytes_of_files rfl
      | some i =>
        exact setNode_keepsBytes
          (fun f => { f with mode := (f.mode &&& sIfmt) ||| (mode &&& 0o777#32) }) rfl
          ⟨rfl, rfl, rfl, rfl⟩
  | chown path uid gid =>
    refine .keep (r := plain (vfsChown c m path uid gid)) h rfl trivial rfl ?_
    unfold plain vfsChown
    split
    · exact keepsBytes_of_files rfl
    · cases memfsResolvePath m.files c.root path with
      | none => exact keepsBytes_of_files rfl
      | some i => exact setNode_keepsBytes (fun f => { f with uid, gid }) rfl ⟨rfl, rfl, rfl, rfl⟩
  | truncate path length =>
    obtain ⟨r, heq, hr⟩ := vfsTruncate_holds (d := d) (c := c) h path length
    exact ⟨r.1, _, by rw [vfsCall, heq]; rfl, trivial, hr⟩
  | ftruncate fd length =>
    obtain ⟨r, heq, hr⟩ := vfsFtruncate_holds (d := d) (c := c) h fd length
    exact ⟨r.1, _, by rw [vfsCall, heq]; rfl, trivial, hr⟩
  | close fd =>
    refine .keep (r := vfsClose d m fd) h rfl trivial rfl ?_
    unfold vfsClose
    split <;> exact keepsBytes_of_files rfl
  | read fd count => exact read_holds h fd count
  | write fd buf => exact write_holds h hin hgap
  | lseek fd offset whence =>
    refine .keep (r := vfsLseek d m fd offset whence) h rfl trivial rfl ?_
    rcases vfsLseek_cases d m fd offset whence with ⟨r, heq, -⟩ | ⟨i, off, -, heq⟩ <;> rw [heq] <;>
      exact keepsBytes_of_files rfl
  | readAt fd count offset => exact readAt_holds h fd count offset
  | writeAt fd buf offset => exact writeAt_holds h hin hgap

theorem MemHolds.sizes (h : MemHolds m contents) : MemSizes ⟨m, contents⟩ :=
  fun i _ hdir => (h i hdir).2.length.symm

end

end Lestra
