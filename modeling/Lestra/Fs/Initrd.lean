import Lestra.Fs.JailPath
import Lestra.Fs.MemfsTree
import Lestra.Lib.LittleEndian

/-!
# The initial ramdisk

`build_initrd` of `scripts/mkinitrd.py`, which packs files into an image, and `initrd_load`
of `kernel/fs/vfs.c`, which unpacks it into memfs. `initrd_round_trip`: every packed file is
there again, and nothing else, exactly if no file is larger than a memfs file can be.
-/

namespace Lestra

-- ---------------------------------------------------------------------------
-- mkinitrd.py
-- ---------------------------------------------------------------------------

/-- An argument of `build_initrd`: the bytes of its base name, and of the file if it
exists. -/
structure InputFile where
  name : List UInt8
  data : Option (List UInt8)

/-- `struct.pack('<I', n)`, which fails for a number of more than 32 bits. -/
def packU32 (n : Nat) : Option (List UInt8) :=
  if n < 2 ^ 32 then some (LittleEndian.encode 4 n) else none

/-- `name[:MAX_NAME_LEN-1].ljust(MAX_NAME_LEN, b'\0')` -/
def packName (name : List UInt8) : List UInt8 :=
  name.take (maxNameLen - 1) ++ List.replicate (maxNameLen - (name.take (maxNameLen - 1)).length) 0

/-- What `build_initrd` writes for one file; a file that is not found is packed empty. -/
def packFile (f : InputFile) : Option (List UInt8) :=
  (packU32 (f.data.getD []).length).map fun size => packName f.name ++ size ++ f.data.getD []

/-- `build_initrd`; `none` is an exception. -/
def buildInitrd (inputFiles : List InputFile) : Option (List UInt8) :=
  let files := inputFiles.take maxFiles
  (packU32 files.length).bind fun header =>
    (files.mapM packFile).map fun entries => header ++ entries.flatten

-- ---------------------------------------------------------------------------
-- initrd_load
-- ---------------------------------------------------------------------------

/-- The next `n` bytes at `byte_ptr` and the ones behind; `none` is past the image. -/
def takeBytes (n : Nat) (rest : List UInt8) : Option (List UInt8 × List UInt8) :=
  if n ≤ rest.length then some (rest.take n, rest.drop n) else none

/-- `full_path` of an entry. -/
def initrdPath (name : List UInt8) : Path :=
  let rawName := (name.take (maxNameLen - 1)).takeWhile (· ≠ 0)
  if rawName.head? = some slash then rawName else slash :: rawName.take (maxNameLen - 2)

def initrdOwner : Caller := ⟨[slash], 0#32, 0#32⟩

/-- An intermediate directory. -/
def initrdDir (m : Memfs) (dir slot : Fin maxFiles) (comp : List UInt8) : Memfs :=
  { m with
    files := addNode initrdOwner (comp.take (maxNameLen - 1)) true (sIfdir ||| 0o755#32) dir slot
      m.files
    numFiles := m.numFiles + 1 }

/-- The walk over the components of a path, with the parent and the last component if the
walk gets to one. -/
def initrdWalk (m : Memfs) (dir : Fin maxFiles) :
    List (List UInt8) → Memfs × Option (Fin maxFiles × List UInt8)
  | [] => (m, none)
  | [comp] => (m, if comp = [] then none else some (dir, comp))
  | comp :: comps =>
    match memfsFindChild m.files dir comp with
    | some child => initrdWalk m child comps
    | none =>
      match memfsAllocSlot m.files with
      | none => (m, none)
      | some slot => initrdWalk (initrdDir m dir slot comp) slot comps

/-- The file of an entry in its slot. `size` is what the image says, `data` at most the
maximum. -/
def initrdFile (m : Memfs) (parent slot : Fin maxFiles) (name : List UInt8) (size : Nat)
    (data : List UInt8) : Memfs :=
  let files := setNode m.files slot fun f =>
    { newNode initrdOwner (name.take (maxNameLen - 1)) false (sIfreg ||| 0o644#32) parent f with
      size
      data := ByteBuf.store f.data 0 data }
  { files := (memfsAddChild files parent slot).getD files
    numFiles := m.numFiles + 1
    offsets := Function.update m.offsets slot 0
    flags := Function.update m.flags slot 0#32 }

/-- One turn of the loop of `initrd_load`; `basename` is what `basename_buf` holds if the
path has no last component. -/
def initrdEntry (basename : List UInt8) (m : Memfs) (rest : List UInt8) :
    Option (Memfs × List UInt8) :=
  (takeBytes maxNameLen rest).bind fun (name, rest) =>
    (takeBytes 4 rest).bind fun (size, rest) =>
      let path := initrdPath name
      let fileSize := LittleEndian.decode size
      let (m, last) := initrdWalk m rootIdx (path.tail.splitOn slash)
      let (parent, name) := last.getD (rootIdx, basename)
      if path.tail = [] then some (m, rest.drop fileSize)
      else
        match memfsAllocSlot m.files with
        | none => some (m, rest.drop fileSize)
        | some slot =>
          -- `byte_ptr` advances by the size after it has been clipped
          (takeBytes (min fileSize maxFileSize) rest).map fun (data, rest) =>
            (initrdFile m parent slot name fileSize data, rest)

/-- The loop of `initrd_load` from entry `i` on. -/
def initrdLoop (basename : Nat → List UInt8) :
    Nat → Nat → Memfs → List UInt8 → Option Memfs
  | 0, _, m, _ => some m
  | n + 1, i, m, rest =>
    (initrdEntry (basename i) m rest).bind fun r => initrdLoop basename n (i + 1) r.1 r.2

/-- `initrd_load`; `none` is an access past the image. -/
def initrdLoad (basename : Nat → List UInt8) (m : Memfs) (image : List UInt8) : Option Memfs :=
  if image.length < 4 then some m
  else
    initrdLoop basename (min (LittleEndian.decode (image.take 4)) maxFiles) 0 m (image.drop 4)

-- ---------------------------------------------------------------------------
-- The round trip
-- ---------------------------------------------------------------------------

/-- A base name that fits with its `/` in a component buffer. -/
structure BaseName (name : List UInt8) : Prop where
  ne_nil : name ≠ []
  no_slash : slash ∉ name
  no_zero : (0 : UInt8) ∉ name
  not_dot : name ≠ [dot] ∧ name ≠ [dot, dot]
  length : name.length ≤ 62

/-- Every packed file of at most the maximum is a file of the same bytes below `/`, every
other node but the root is one of a packed file, and no size is past the maximum. -/
def InitrdLoaded (inputFiles : List InputFile) (loaded : Option Memfs) : Prop :=
  ∃ m, loaded = some m ∧
    (∀ f ∈ inputFiles, ∀ data, f.data = some data → data.length ≤ maxFileSize →
      ∃ i, memfsResolvePath m.files [slash] (slash :: f.name) = some i ∧
        (m.files i).isDir = false ∧ (m.files i).size = data.length ∧
        ByteBuf.load (m.files i).data 0 data.length = data) ∧
    (∀ i, (m.files i).live → i = rootIdx ∨
      ∃ f ∈ inputFiles, memfsResolvePath m.files [slash] (slash :: f.name) = some i) ∧
    ∀ i, (m.files i).live → (m.files i).size ≤ maxFileSize

-- ---------------------------------------------------------------------------
-- memfs with the first files loaded
-- ---------------------------------------------------------------------------

/-- The node of a packed file. -/
def initrdNode (f : List UInt8 × List UInt8) : MemFile where
  name := f.1
  data := f.2.take maxFileSize
  size := f.2.length
  live := true
  mode := sIfreg ||| 0o644#32
  uid := 0#32
  gid := 0#32
  isDir := false
  parentIdx := (rootIdx : Nat)
  children := []

/-- The slots of the first `n` files. -/
def initrdSlots (n : Nat) : List Int := (List.range n).map fun k => ((k + 1 : Nat) : Int)

/-- memfs after `initrd_load` has unpacked `fs`, by name and bytes. -/
def initrdState (fs : List (List UInt8 × List UInt8)) : Memfs where
  files i :=
    if i = rootIdx then { rootNode with children := initrdSlots fs.length }
    else (fs[i.val - 1]?).elim zeroNode initrdNode
  numFiles := 1 + fs.length
  offsets := fun _ => 0
  flags := fun _ => 0#32

section
variable {fs : List (List UInt8 × List UInt8)} {name data : List UInt8}

theorem initrdState_nil : initrdState [] = vfsInit := by
  have hfiles : (initrdState []).files = vfsInit.files := by
    funext i
    by_cases hi : i = rootIdx
    · subst hi
      rfl
    · simp [initrdState, vfsInit, hi]
  rw [initrdState, Memfs.mk.injEq]
  exact ⟨hfiles, rfl, rfl, rfl⟩

theorem initrdState_root (fs : List (List UInt8 × List UInt8)) :
    (initrdState fs).files rootIdx = { rootNode with children := initrdSlots fs.length } := by
  dsimp only [initrdState]
  rw [if_pos rfl]

theorem initrdState_file {k : Nat} (hk : k < fs.length) (hlt : k + 1 < maxFiles) :
    (initrdState fs).files ⟨k + 1, hlt⟩ = initrdNode fs[k] := by
  have hne : (⟨k + 1, hlt⟩ : Fin maxFiles) ≠ rootIdx := by simp [rootIdx]
  simp only [initrdState, if_neg hne, Nat.add_sub_cancel, List.getElem?_eq_getElem hk,
    Option.elim_some]

theorem initrdState_live {i : Fin maxFiles} :
    ((initrdState fs).files i).live ↔ i.val ≤ fs.length := by
  by_cases hi : i = rootIdx
  · rw [hi, initrdState_root]
    simp [rootNode, rootIdx]
  · have hpos : i.val ≠ 0 := fun h => hi (Fin.ext h)
    simp only [initrdState, if_neg hi]
    by_cases hlen : i.val - 1 < fs.length
    · rw [List.getElem?_eq_getElem hlen, Option.elim_some]
      simp only [initrdNode, true_iff]
      omega
    · rw [List.getElem?_eq_none (by omega), Option.elim_none]
      simp only [zeroNode, Bool.false_eq_true, false_iff]
      omega

theorem initrdState_alloc (hlen : fs.length + 1 < maxFiles) :
    memfsAllocSlot (initrdState fs).files = some ⟨fs.length + 1, hlen⟩ := by
  rw [memfsAllocSlot, List.find?_eq_some_iff_getElem]
  refine ⟨?_, fs.length + 1, by simpa using hlen, by simp, fun j hj => ?_⟩
  · have hdead : ¬ ((initrdState fs).files ⟨fs.length + 1, hlen⟩).live := by
      rw [initrdState_live]
      simp
    simpa using hdead
  · have hlive : ((initrdState fs).files ⟨j, by omega⟩).live := by
      rw [initrdState_live]
      simp only
      omega
    simpa using hlive

/-- The next file goes to the next slot. -/
theorem initrdFile_state (hname : BaseName name) (hlen : fs.length + 1 < maxFiles) :
    initrdFile (initrdState fs) rootIdx ⟨fs.length + 1, hlen⟩ name data.length
      (data.take maxFileSize) = initrdState (fs ++ [(name, data)]) := by
  have hslot : (⟨fs.length + 1, hlen⟩ : Fin maxFiles) ≠ rootIdx := by simp [rootIdx]
  have hdead : (initrdState fs).files ⟨fs.length + 1, hlen⟩ = zeroNode := by
    simp only [initrdState, if_neg hslot, Nat.add_sub_cancel, List.getElem?_eq_none (Nat.le_refl _),
      Option.elim_none]
  have hcut : name.take (maxNameLen - 1) = name :=
    List.take_of_length_le (hname.length.trans (by decide))
  have hnode : ({ newNode initrdOwner name false (sIfreg ||| 0o644#32) rootIdx zeroNode with
      size := data.length
      data := ByteBuf.store zeroNode.data 0 (data.take maxFileSize) } : MemFile)
        = initrdNode (name, data) := by
    simp [newNode, initrdNode, zeroNode, initrdOwner, ByteBuf.store]
  have hnew : ((fs.length + 1 : Nat) : Int) ∉ initrdSlots fs.length := by
    simp only [initrdSlots, List.mem_map, List.mem_range, not_exists, not_and]
    intro k hk
    omega
  have hadd : memfsAddChild (setNode (initrdState fs).files ⟨fs.length + 1, hlen⟩
      fun f => { newNode initrdOwner (name.take (maxNameLen - 1)) false (sIfreg ||| 0o644#32)
        rootIdx f with size := data.length, data := ByteBuf.store f.data 0 (data.take maxFileSize) })
      rootIdx ⟨fs.length + 1, hlen⟩ = some (initrdState (fs ++ [(name, data)])).files := by
    have hlen' : ¬ maxChildren ≤ (initrdSlots fs.length).length := by
      simp only [initrdSlots, List.length_map, List.length_range, maxChildren]
      unfold maxFiles at hlen
      omega
    rw [memfsAddChild, setNode_ne _ _ (Ne.symm hslot), initrdState_root, if_neg (by simp [rootNode]),
      if_neg hlen', if_neg hnew]
    congr 1
    funext i
    by_cases hi : i = rootIdx
    · rw [hi, setNode_same, setNode_ne _ _ (Ne.symm hslot), initrdState_root, initrdState_root,
        List.length_append, List.length_singleton]
      simp only [initrdSlots, List.range_succ, List.map_append, List.map_singleton]
    · rw [setNode_ne _ _ hi]
      by_cases hs : i = ⟨fs.length + 1, hlen⟩
      · have hsize : fs.length < (fs ++ [(name, data)]).length := by simp
        rw [hs, setNode_same, hdead, hcut, hnode, initrdState_file hsize hlen,
          List.getElem_concat_length rfl]
      · rw [setNode_ne _ _ hs]
        have hval : i.val - 1 ≠ fs.length := by
          intro h
          refine hs (Fin.ext ?_)
          have : i.val ≠ 0 := fun h0 => hi (Fin.ext h0)
          simp only
          omega
        simp only [initrdState, if_neg hi]
        congr 1
        by_cases hb : i.val - 1 < fs.length
        · rw [List.getElem?_append_left hb]
        · rw [List.getElem?_eq_none (by omega), List.getElem?_eq_none (by simp; omega)]
  rw [initrdFile, hadd]
  simp only [initrdState, Option.getD_some, Memfs.mk.injEq, List.length_append,
    List.length_singleton, true_and]
  refine ⟨by push_cast; omega, ?_, ?_⟩ <;> funext i <;> simp [Function.update_apply]

-- ---------------------------------------------------------------------------
-- One entry
-- ---------------------------------------------------------------------------

theorem takeBytes_append {n : Nat} {bs rest : List UInt8} (h : bs.length = n) :
    takeBytes n (bs ++ rest) = some (bs, rest) := by
  rw [takeBytes, if_pos (by simp; omega), List.take_left' h, List.drop_left' h]

theorem length_packName (name : List UInt8) : (packName name).length = maxNameLen := by
  simp only [packName, List.length_append, List.length_replicate, List.length_take, maxNameLen]
  omega

theorem initrdPath_packName (hname : BaseName name) : initrdPath (packName name) = slash :: name := by
  have hcut : name.take (maxNameLen - 1) = name :=
    List.take_of_length_le (hname.length.trans (by decide))
  have hraw : ((packName name).take (maxNameLen - 1)).takeWhile (· ≠ 0) = name := by
    have hlen := hname.length
    rw [packName, hcut, List.take_append, List.take_of_length_le (hlen.trans (by decide)),
      List.takeWhile_append_of_pos, List.take_replicate]
    · have hpos : min (maxNameLen - 1 - name.length) (maxNameLen - name.length) ≠ 0 := by
        simp only [maxNameLen]
        omega
      obtain ⟨k, hk⟩ := Nat.exists_eq_succ_of_ne_zero hpos
      rw [hk, List.replicate_succ, List.takeWhile_cons_of_neg (by simp), List.append_nil]
    · intro x hx
      have hne : x ≠ 0 := fun h0 => hname.no_zero (h0 ▸ hx)
      simpa using hne
  have hhead : name.head? ≠ some slash := fun h => hname.no_slash (List.mem_of_head? h)
  have hcut' : name.take (maxNameLen - 2) = name := List.take_of_length_le hname.length
  simp only [initrdPath, hraw, if_neg hhead, hcut']

/-- An entry is read back, up to what was clipped. -/
theorem initrdEntry_packed (basename rest : List UInt8) (hname : BaseName name)
    (hdata : data.length < 2 ^ 32) (hlen : fs.length + 1 < maxFiles) :
    initrdEntry basename (initrdState fs)
        (packName name ++ (LittleEndian.encode 4 data.length ++ (data ++ rest)))
      = some (initrdState (fs ++ [(name, data)]), data.drop maxFileSize ++ rest) := by
  have hsplit : name.splitOn slash = [name] := List.splitOn_eq_singleton hname.no_slash
  have hwalk : initrdWalk (initrdState fs) rootIdx [name] = (initrdState fs, some (rootIdx, name)) := by
    rw [initrdWalk, if_neg hname.ne_nil]
  have hbytes : takeBytes (min data.length maxFileSize) (data ++ rest)
      = some (data.take maxFileSize, data.drop maxFileSize ++ rest) := by
    have hlen' : (data.take maxFileSize).length = min data.length maxFileSize := by
      rw [List.length_take, Nat.min_comm]
    rw [← takeBytes_append hlen', ← List.append_assoc, List.take_append_drop]
  simp only [initrdEntry, takeBytes_append (length_packName name), Option.bind_some,
    takeBytes_append (LittleEndian.length_encode 4 data.length), initrdPath_packName hname,
    LittleEndian.decode_encode (k := 4) hdata, List.tail_cons, hsplit, hwalk, Option.getD_some,
    if_neg hname.ne_nil, initrdState_alloc hlen, hbytes, Option.map_some, initrdFile_state hname hlen]

end

-- ---------------------------------------------------------------------------
-- The image
-- ---------------------------------------------------------------------------

/-- An existing file as an argument of `build_initrd`. -/
def existing (f : List UInt8 × List UInt8) : InputFile := ⟨f.1, some f.2⟩

def entryBytes (f : List UInt8 × List UInt8) : List UInt8 :=
  packName f.1 ++ (LittleEndian.encode 4 f.2.length ++ f.2)

theorem packFile_existing {f : List UInt8 × List UInt8} {entry : List UInt8}
    (h : packFile (existing f) = some entry) : f.2.length < 2 ^ 32 ∧ entry = entryBytes f := by
  obtain ⟨size, hsize, rfl⟩ := Option.map_eq_some_iff.mp h
  unfold packU32 at hsize
  split at hsize
  · rename_i hlen
    obtain rfl := Option.some.inj hsize
    exact ⟨hlen, List.append_assoc ..⟩
  · exact absurd hsize (by simp)

theorem packFile_of_lt {f : List UInt8 × List UInt8} (h : f.2.length < 2 ^ 32) :
    packFile (existing f) = some (entryBytes f) := by
  rw [packFile, packU32, existing, Option.getD_some, if_pos h, Option.map_some, entryBytes,
    List.append_assoc]

theorem mapM_packFile : ∀ (fs : List (List UInt8 × List UInt8)) (entries : List (List UInt8)),
    (fs.map existing).mapM packFile = some entries →
      (∀ f ∈ fs, f.2.length < 2 ^ 32) ∧ entries = fs.map entryBytes
  | [], entries, h => by
    obtain rfl := Option.some.inj h
    exact ⟨fun f hf => absurd hf List.not_mem_nil, rfl⟩
  | f :: fs, entries, h => by
    rw [List.map_cons, List.mapM_cons] at h
    obtain ⟨entry, hentry, h⟩ := Option.bind_eq_some_iff.mp h
    obtain ⟨rest, hrest, h⟩ := Option.bind_eq_some_iff.mp h
    obtain rfl := Option.some.inj h
    obtain ⟨hlen, rfl⟩ := packFile_existing hentry
    obtain ⟨hlens, rfl⟩ := mapM_packFile fs rest hrest
    refine ⟨fun g hg => ?_, rfl⟩
    rcases List.mem_cons.mp hg with rfl | hg
    · exact hlen
    · exact hlens g hg

theorem buildInitrd_existing {fs : List (List UInt8 × List UInt8)} {image : List UInt8}
    (hcount : fs.length ≤ 63) (h : buildInitrd (fs.map existing) = some image) :
    (∀ f ∈ fs, f.2.length < 2 ^ 32) ∧
      image = LittleEndian.encode 4 fs.length ++ (fs.map entryBytes).flatten := by
  rw [buildInitrd, List.take_of_length_le (by simp [maxFiles]; omega), List.length_map] at h
  obtain ⟨header, hheader, h⟩ := Option.bind_eq_some_iff.mp h
  obtain ⟨entries, hentries, rfl⟩ := Option.map_eq_some_iff.mp h
  obtain ⟨hlens, rfl⟩ := mapM_packFile fs entries hentries
  rw [packU32, if_pos (by omega)] at hheader
  exact ⟨hlens, by rw [Option.some.inj hheader]⟩

theorem buildInitrd_of_lt {fs : List (List UInt8 × List UInt8)} (hcount : fs.length ≤ 63)
    (h32 : ∀ f ∈ fs, f.2.length < 2 ^ 32) :
    buildInitrd (fs.map existing)
      = some (LittleEndian.encode 4 fs.length ++ (fs.map entryBytes).flatten) := by
  have hentries : (fs.map existing).mapM packFile = some (fs.map entryBytes) := by
    clear hcount
    induction fs with
    | nil => rfl
    | cons f fs ih =>
      rw [List.map_cons, List.mapM_cons, packFile_of_lt (h32 f List.mem_cons_self),
        ih fun g hg => h32 g (List.mem_cons_of_mem f hg)]
      rfl
  rw [buildInitrd, List.take_of_length_le (by simp [maxFiles]; omega), List.length_map, packU32,
    if_pos (by omega), hentries]
  rfl

theorem all_existing {inputFiles : List InputFile} (h : ∀ f ∈ inputFiles, f.data.isSome) :
    ∃ fs : List (List UInt8 × List UInt8), inputFiles = fs.map existing := by
  refine ⟨inputFiles.map fun f => (f.name, f.data.getD []), ?_⟩
  rw [List.map_map]
  refine (List.map_id inputFiles).symm.trans (List.map_congr_left fun f hf => ?_)
  obtain ⟨data, hdata⟩ := Option.isSome_iff_exists.mp (h f hf)
  simp only [Function.comp_apply, existing, hdata, Option.getD_some, id]
  rw [← hdata]

-- ---------------------------------------------------------------------------
-- The loop
-- ---------------------------------------------------------------------------

section
variable {fs : List (List UInt8 × List UInt8)} {basename : Nat → List UInt8}

/-- The turn for the first of `fs`, after the files `pre`. -/
theorem initrdEntry_cons {f : List UInt8 × List UInt8} (hname : BaseName f.1)
    (h32 : f.2.length < 2 ^ 32) {pre : List (List UInt8 × List UInt8)}
    (hcount : pre.length + 1 < maxFiles) (base : List UInt8) :
    initrdEntry base (initrdState pre) ((f :: fs).map entryBytes).flatten
      = some (initrdState (pre ++ [f]), f.2.drop maxFileSize ++ (fs.map entryBytes).flatten) := by
  rw [List.map_cons, List.flatten_cons, entryBytes, List.append_assoc, List.append_assoc]
  exact initrdEntry_packed base _ hname h32 hcount

/-- The loop loads files that fit. -/
theorem initrdLoop_fit (hnames : ∀ f ∈ fs, BaseName f.1)
    (hlens : ∀ f ∈ fs, f.2.length ≤ maxFileSize) (pre : List (List UInt8 × List UInt8)) (i : Nat)
    (hcount : pre.length + fs.length < maxFiles) :
    initrdLoop basename fs.length i (initrdState pre) (fs.map entryBytes).flatten
      = some (initrdState (pre ++ fs)) := by
  induction fs generalizing pre i with
  | nil => rw [List.append_nil]; rfl
  | cons f fs ih =>
    rw [List.length_cons] at hcount
    have hlen := hlens f List.mem_cons_self
    have hmax : maxFileSize = 65536 := rfl
    rw [List.length_cons, initrdLoop, initrdEntry_cons (hnames f List.mem_cons_self) (by omega)
      (by omega), Option.bind_some, List.drop_eq_nil_of_le hlen, List.nil_append]
    rw [ih (fun g hg => hnames g (List.mem_cons_of_mem f hg))
      (fun g hg => hlens g (List.mem_cons_of_mem f hg)) (pre ++ [f]) (i + 1) (by simp; omega),
      List.append_assoc, List.singleton_append]

/-- A node past the maximum. -/
def HasOversized (m : Memfs) : Prop := ∃ i, (m.files i).live ∧ maxFileSize < (m.files i).size

theorem HasOversized.keep {m m' : Memfs} (h : HasOversized m)
    (hkeep : ∀ i, (m.files i).live → (m'.files i).live ∧ (m'.files i).size = (m.files i).size) :
    HasOversized m' := by
  obtain ⟨i, hlive, hsize⟩ := h
  obtain ⟨hlive', hsize'⟩ := hkeep i hlive
  exact ⟨i, hlive', hsize'.symm ▸ hsize⟩

/-- A new node in a free slot leaves the others as they are. -/
theorem initrd_keeps {files files' : MemFiles} {slot i : Fin maxFiles} {f : MemFile → MemFile}
    (hslot : memfsAllocSlot files = some slot) (hlive : (files i).live)
    (hfield : ∀ {β : Type} (g : MemFile → β), (∀ f cs, g { f with children := cs } = g f) →
      g (files' i) = g (setNode files slot f i)) :
    (files' i).live ∧ (files' i).size = (files i).size := by
  have hi : i ≠ slot := by
    rintro rfl
    exact absurd ((memfsAllocSlot_dead hslot).symm.trans hlive) (by simp)
  rw [hfield MemFile.live fun _ _ => rfl, hfield MemFile.size fun _ _ => rfl, setNode_ne _ _ hi]
  exact ⟨hlive, rfl⟩

theorem initrdWalk_oversized (comps : List (List UInt8)) :
    ∀ {m : Memfs} (dir : Fin maxFiles), HasOversized m →
      HasOversized (initrdWalk m dir comps).1 := by
  induction comps with
  | nil => exact fun _ h => h
  | cons comp comps ih =>
    intro m dir h
    cases comps with
    | nil => exact h
    | cons next comps =>
      rw [initrdWalk]
      · cases memfsFindChild m.files dir comp with
        | some child => exact ih child h
        | none =>
          cases hslot : memfsAllocSlot m.files with
          | none => exact h
          | some slot =>
            exact ih slot (h.keep fun i hlive => initrd_keeps hslot hlive fun g hg =>
              addNode_field g hg)
      · simp

theorem initrdEntry_oversized {base rest rest' : List UInt8} {m m' : Memfs} (h : HasOversized m)
    (hentry : initrdEntry base m rest = some (m', rest')) : HasOversized m' := by
  unfold initrdEntry at hentry
  obtain ⟨⟨name, rest₁⟩, -, hentry⟩ := Option.bind_eq_some_iff.mp hentry
  obtain ⟨⟨size, rest₂⟩, -, hentry⟩ := Option.bind_eq_some_iff.mp hentry
  have hwalk := initrdWalk_oversized ((initrdPath name).tail.splitOn slash) rootIdx h
  dsimp only at hentry
  generalize initrdWalk m rootIdx ((initrdPath name).tail.splitOn slash) = walk at hwalk hentry
  split at hentry
  · obtain rfl := (Prod.mk.inj (Option.some.inj hentry)).1
    exact hwalk
  · cases hslot : memfsAllocSlot walk.1.files with
    | none =>
      rw [hslot] at hentry
      obtain rfl := (Prod.mk.inj (Option.some.inj hentry)).1
      exact hwalk
    | some slot =>
      rw [hslot] at hentry
      obtain ⟨data, -, hfile⟩ := Option.map_eq_some_iff.mp hentry
      obtain rfl := (Prod.mk.inj hfile).1
      exact hwalk.keep fun i hlive => initrd_keeps hslot hlive fun g hg =>
        addChild_getD_field g hg _ _ slot i

theorem initrdLoop_oversized {n i : Nat} {m m' : Memfs} {rest : List UInt8} (h : HasOversized m)
    (hloop : initrdLoop basename n i m rest = some m') : HasOversized m' := by
  induction n generalizing i m rest with
  | zero => exact Option.some.inj hloop ▸ h
  | succ n ih =>
    obtain ⟨⟨m₁, rest₁⟩, hentry, hloop⟩ := Option.bind_eq_some_iff.mp hloop
    exact ih (initrdEntry_oversized h hentry) hloop

-- ---------------------------------------------------------------------------
-- What the image gives
-- ---------------------------------------------------------------------------

theorem initrdState_resolves (hnames : ∀ f ∈ fs, BaseName f.1) (hdistinct : (fs.map (·.1)).Nodup)
    {k : Nat} (hk : k < fs.length) (hlt : k + 1 < maxFiles) :
    memfsResolvePath (initrdState fs).files [slash] (slash :: fs[k].1) = some ⟨k + 1, hlt⟩ := by
  have hname := hnames fs[k] (List.getElem_mem hk)
  have hcomps : pathComps fs[k].1 = [fs[k].1] :=
    pathComps_comp hname.ne_nil hname.no_slash (hname.length.trans (by decide))
  have hlive : ((initrdState fs).files ⟨k + 1, hlt⟩).live := by
    rw [initrdState_live]
    simp only
    omega
  have hfind : memfsFindChild (initrdState fs).files rootIdx fs[k].1 = some ⟨k + 1, hlt⟩ := by
    cases hfound : memfsFindChild (initrdState fs).files rootIdx fs[k].1 with
    | none =>
      refine absurd ?_ (memfsFindChild_none (i := ⟨k + 1, hlt⟩) hfound ?_ ?_ hlive)
      · rw [initrdState_file hk hlt]
        rfl
      · rw [initrdState_root]
        rfl
      · rw [initrdState_root]
        exact List.mem_map.mpr ⟨k, List.mem_range.mpr hk, rfl⟩
    | some i =>
      obtain ⟨hchild, -, hiname⟩ := memfsFindChild_some hfound
      rw [initrdState_root] at hchild
      obtain ⟨j, hj, hji⟩ := List.mem_map.mp hchild
      have hj' := List.mem_range.mp hj
      have hval : i.val = j + 1 := by omega
      have hi : i = ⟨j + 1, hval ▸ i.isLt⟩ := Fin.ext hval
      rw [hi, initrdState_file hj'] at hiname
      have hsame : (fs.map (·.1)).get ⟨j, by simpa using hj'⟩
          = (fs.map (·.1)).get ⟨k, by simpa using hk⟩ := by
        simpa [initrdNode] using hiname
      have hjk : j = k := congrArg Fin.val ((List.Nodup.get_inj_iff hdistinct).mp hsame)
      exact congrArg some (Fin.ext (hval.trans (by rw [hjk])))
  rw [memfsResolvePath, if_neg (by simp [Path.Absolute]), if_pos (.inr rfl), memfsResolvePathRaw,
    if_neg (by simp [Path.Absolute]), List.tail_cons, hcomps]
  change (resolveComp (initrdState fs).files rootIdx fs[k].1).bind some = _
  rw [resolveComp, if_neg hname.not_dot.1, if_neg hname.not_dot.2, hfind]
  rfl

/-- Files that fit are all there, and nothing else is. -/
theorem loaded_of_fit (hnames : ∀ f ∈ fs, BaseName f.1) (hdistinct : (fs.map (·.1)).Nodup)
    (hcount : fs.length ≤ 63) (hlens : ∀ f ∈ fs, f.2.length ≤ maxFileSize) :
    InitrdLoaded (fs.map existing) (some (initrdState fs)) := by
  have hmax : maxFiles = 64 := rfl
  refine ⟨initrdState fs, rfl, fun f hf data hdata _ => ?_, fun i hlive => ?_, fun i hlive => ?_⟩
  · obtain ⟨g, hg, rfl⟩ := List.mem_map.mp hf
    obtain rfl := Option.some.inj hdata
    obtain ⟨k, hk, rfl⟩ := List.getElem_of_mem hg
    have hlt : k + 1 < maxFiles := by omega
    refine ⟨⟨k + 1, hlt⟩, initrdState_resolves hnames hdistinct hk hlt, ?_⟩
    rw [initrdState_file hk hlt]
    refine ⟨rfl, rfl, ?_⟩
    rw [initrdNode, List.take_of_length_le (hlens _ hg)]
    exact ByteBuf.load_all _
  · by_cases hi : i = rootIdx
    · exact .inl hi
    · have hle := initrdState_live.mp hlive
      have hpos : i.val ≠ 0 := fun h => hi (Fin.ext h)
      have hk : i.val - 1 < fs.length := by omega
      have hlt : i.val - 1 + 1 < maxFiles := by omega
      refine .inr ⟨existing fs[i.val - 1], List.mem_map_of_mem (List.getElem_mem hk), ?_⟩
      refine (initrdState_resolves hnames hdistinct hk hlt).trans (congrArg some (Fin.ext ?_))
      simp only
      omega
  · by_cases hi : i = rootIdx
    · rw [hi, initrdState_root]
      exact Nat.zero_le _
    · have hle := initrdState_live.mp hlive
      have hpos : i.val ≠ 0 := fun h => hi (Fin.ext h)
      have hk : i.val - 1 < fs.length := by omega
      simp only [initrdState, if_neg hi, List.getElem?_eq_getElem hk, Option.elim_some, initrdNode]
      exact hlens _ (List.getElem_mem hk)

/-- The first file that is too large leaves a node past the maximum. -/
theorem initrdLoop_big {m : Memfs} (hnames : ∀ f ∈ fs, BaseName f.1)
    (h32 : ∀ f ∈ fs, f.2.length < 2 ^ 32) (pre : List (List UInt8 × List UInt8)) (i : Nat)
    (hcount : pre.length + fs.length < maxFiles) (hbig : ∃ f ∈ fs, maxFileSize < f.2.length)
    (hloop : initrdLoop basename fs.length i (initrdState pre) (fs.map entryBytes).flatten
      = some m) : HasOversized m := by
  induction fs generalizing pre i with
  | nil =>
    obtain ⟨f, hf, -⟩ := hbig
    exact absurd hf List.not_mem_nil
  | cons f fs ih =>
    rw [List.length_cons] at hcount
    rw [List.length_cons, initrdLoop, initrdEntry_cons (hnames f List.mem_cons_self)
      (h32 f List.mem_cons_self) (by omega), Option.bind_some] at hloop
    by_cases hlen : f.2.length ≤ maxFileSize
    · rw [List.drop_eq_nil_of_le hlen, List.nil_append] at hloop
      refine ih (fun g hg => hnames g (List.mem_cons_of_mem f hg))
        (fun g hg => h32 g (List.mem_cons_of_mem f hg)) (pre ++ [f]) (i + 1) (by simp; omega) ?_ hloop
      obtain ⟨g, hg, hlarge⟩ := hbig
      rcases List.mem_cons.mp hg with rfl | hg
      · omega
      · exact ⟨g, hg, hlarge⟩
    · refine initrdLoop_oversized ⟨⟨pre.length + 1, by omega⟩, ?_, ?_⟩ hloop
      · rw [initrdState_live]
        simp
      · rw [initrdState_file (by simp), List.getElem_concat_length rfl]
        exact Nat.lt_of_not_le hlen

theorem initrdLoad_image (image : List UInt8) (hcount : fs.length ≤ 63)
    (himage : image = LittleEndian.encode 4 fs.length ++ (fs.map entryBytes).flatten) :
    initrdLoad basename vfsInit image
      = initrdLoop basename fs.length 0 (initrdState []) (fs.map entryBytes).flatten := by
  have hheader := LittleEndian.length_encode 4 fs.length
  have hcap : min fs.length maxFiles = fs.length := by
    simp only [maxFiles]
    omega
  rw [himage, initrdLoad, if_neg (by rw [List.length_append]; omega), List.take_left' hheader,
    List.drop_left' hheader, LittleEndian.decode_encode (by omega), hcap, initrdState_nil]

theorem not_loaded_of_big (hnames : ∀ f ∈ fs, BaseName f.1) (hcount : fs.length ≤ 63)
    (h32 : ∀ f ∈ fs, f.2.length < 2 ^ 32) (hbig : ∃ f ∈ fs, maxFileSize < f.2.length) :
    ¬ InitrdLoaded (fs.map existing)
      (initrdLoop basename fs.length 0 (initrdState []) (fs.map entryBytes).flatten) := by
  rintro ⟨m, hloop, -, -, hsize⟩
  have hlt : ([] : List (List UInt8 × List UInt8)).length + fs.length < maxFiles := by
    simp only [List.length_nil, maxFiles]
    omega
  obtain ⟨i, hlive, hlarge⟩ := initrdLoop_big hnames h32 [] 0 hlt hbig hloop
  have := hsize i hlive
  omega

end

/-- **The round trip of the initial ramdisk:** what was packed is there again, and nothing
else, exactly if every packed file is as small as a memfs file has to be. -/
theorem initrd_round_trip (inputFiles : List InputFile) (image : List UInt8)
    (basename : Nat → List UInt8) (hcount : inputFiles.length ≤ 63)
    (hnames : ∀ f ∈ inputFiles, BaseName f.name) (hdistinct : (inputFiles.map (·.name)).Nodup)
    (hexist : ∀ f ∈ inputFiles, f.data.isSome) (himage : buildInitrd inputFiles = some image) :
    InitrdLoaded inputFiles (initrdLoad basename vfsInit image) ↔
      ∀ f ∈ inputFiles, ∀ data, f.data = some data → data.length ≤ maxFileSize := by
  obtain ⟨fs, rfl⟩ := all_existing hexist
  rw [List.length_map] at hcount
  obtain ⟨h32, heq⟩ := buildInitrd_existing hcount himage
  have hfs : ∀ f ∈ fs, BaseName f.1 := fun f hf => hnames _ (List.mem_map_of_mem hf)
  rw [initrdLoad_image image hcount heq]
  constructor
  · intro hloaded f hf data hdata
    obtain ⟨g, hg, rfl⟩ := List.mem_map.mp hf
    obtain rfl := Option.some.inj hdata
    by_contra hlarge
    exact not_loaded_of_big hfs hcount h32 ⟨g, hg, by omega⟩ hloaded
  · intro hlens
    have hfit : ∀ f ∈ fs, f.2.length ≤ maxFileSize := fun f hf =>
      hlens _ (List.mem_map_of_mem hf) f.2 rfl
    have hlt : ([] : List (List UInt8 × List UInt8)).length + fs.length < maxFiles := by
      simp only [List.length_nil, maxFiles]
      omega
    rw [initrdLoop_fit hfs hfit [] 0 hlt, List.nil_append]
    refine loaded_of_fit hfs ?_ hcount hfit
    rwa [List.map_map] at hdistinct

def smallFiles : List InputFile := [⟨[97], some [1, 2]⟩, ⟨[98], some []⟩]

theorem baseName_letter {c : UInt8} (hslash : c ≠ slash) (hzero : c ≠ 0) (hdot : c ≠ dot) :
    BaseName [c] :=
  ⟨by simp, by simpa using Ne.symm hslash, by simpa using Ne.symm hzero, ⟨by simpa using hdot,
    by simp⟩, by simp⟩

theorem initrd_round_trip_small :
    InitrdLoaded smallFiles (initrdLoad (fun _ => []) vfsInit ((buildInitrd smallFiles).getD [])) := by
  refine (initrd_round_trip smallFiles _ (fun _ => []) (by decide) ?_ (by decide) (by decide)
    rfl).mpr ?_
  · intro f hf
    rcases List.mem_pair.mp hf with rfl | rfl <;>
      exact baseName_letter (by decide) (by decide) (by decide)
  · intro f hf data hdata
    rcases List.mem_pair.mp hf with rfl | rfl <;> obtain rfl := Option.some.inj hdata <;> decide

/-- Two files, the first of them with a byte more than a memfs file holds. -/
def bigAndSmall : List (List UInt8 × List UInt8) :=
  [([97], List.replicate 65537 1), ([98], [2])]

/-- **A packed file that is too large breaks the loading.** -/
theorem oversized_file_disturbs :
    ¬ ∀ (inputFiles : List InputFile) (image : List UInt8) (basename : Nat → List UInt8),
      inputFiles.length ≤ 63 → (∀ f ∈ inputFiles, BaseName f.name) →
      (inputFiles.map (·.name)).Nodup → (∀ f ∈ inputFiles, f.data.isSome) →
      buildInitrd inputFiles = some image →
      InitrdLoaded inputFiles (initrdLoad basename vfsInit image) := by
  intro hall
  have h32 : ∀ f ∈ bigAndSmall, f.2.length < 2 ^ 32 := by
    intro f hf
    rcases List.mem_pair.mp hf with rfl | rfl
    · rw [List.length_replicate]
      decide
    · decide
  have hnames : ∀ f ∈ bigAndSmall, BaseName f.1 := by
    intro f hf
    rcases List.mem_pair.mp hf with rfl | rfl <;>
      exact baseName_letter (by decide) (by decide) (by decide)
  have hbuild := buildInitrd_of_lt (by decide) h32
  have hloaded := hall (bigAndSmall.map existing) _ (fun _ => []) (by decide) ?_ ?_ ?_ hbuild
  · rw [initrdLoad_image _ (by decide) rfl] at hloaded
    refine not_loaded_of_big hnames (by decide) h32 ⟨([97], List.replicate 65537 1), ?_, ?_⟩ hloaded
    · exact List.mem_cons_self
    · rw [List.length_replicate]
      decide
  · intro f hf
    obtain ⟨g, hg, rfl⟩ := List.mem_map.mp hf
    exact hnames g hg
  · decide
  · intro f hf
    obtain ⟨g, -, rfl⟩ := List.mem_map.mp hf
    rfl

end Lestra
