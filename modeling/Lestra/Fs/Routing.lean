import Lestra.Fs.Contents
import Lestra.Fs.JailPath
import Lestra.Fs.Tmpfs
import Lestra.Fs.TreeRuns

/-!
# Which file system a path belongs to

Every entry point of `kernel/fs/vfs.c` has its own chain of tests that selects the file
system for a path. `routing_agrees_iff` says for which paths they all follow the
`vfs_open` that has created or found the file: those that memfs takes, and that it walks
to the entry that `memfs_split_path` reads in them.
-/

namespace Lestra

inductive FileSystem where
  | procfs
  | devfs
  | tmpfs
  | memfs
  | fat32
  | ext2
deriving DecidableEq, Repr

-- ---------------------------------------------------------------------------
-- Selection
-- ---------------------------------------------------------------------------

/-- The last test of most chains: a mounted ext2 that covers the path. -/
def ext2Fs (d : Drivers) (path : Path) : Option FileSystem :=
  if d.covers .ext2 path ∧ d.ext2Mounted then some .ext2 else none

/-- `vfs_open` -/
def openFs (d : Drivers) (c : Caller) (m : Memfs) (path : Path) (flags : BitVec 32) :
    Option FileSystem :=
  if procPrefix.isPrefixOf path ∧ 0 ≤ d.procfsOpen path then some .procfs
  else if devPrefix.isPrefixOf path ∧ 0 ≤ d.devfsOpen path then some .devfs
  else if underTmp path then some .tmpfs
  else if (memfsResolvePath m.files c.root path).isSome then some .memfs
  else if hasFlag flags oCreat then
    if (memfsSplitPath m.files c.root path).isSome then some .memfs
    else if d.covers .ext2 path then some .ext2 else none
  else if d.covers .ext2 path ∧ 0 ≤ d.ext2OpenFile path then some .ext2
  else if d.covers .fat32 path then some .fat32 else none

/-- `vfs_stat` -/
def statFs (d : Drivers) (c : Caller) (m : Memfs) (path : Path) : Option FileSystem :=
  if (memfsResolvePath m.files c.root path).isSome then some .memfs
  else if underTmp path ∧ (d.tmpfsStat path).isSome then some .tmpfs
  else if d.covers .fat32 path ∧ d.fat32Mounted then some .fat32 else ext2Fs d path

/-- `vfs_unlink` -/
def unlinkFs (d : Drivers) (c : Caller) (m : Memfs) (path : Path) : Option FileSystem :=
  if (memfsResolvePath m.files c.root path).isSome then some .memfs
  else if underTmp path ∧ d.tmpfsUnlink path = 0 then some .tmpfs
  else if d.covers .fat32 path ∧ d.fat32Mounted ∧ slash ∉ path.dropWhile (· = slash) ∧
      d.fat32Unlink (path.dropWhile (· = slash)) = 0 then some .fat32
  else ext2Fs d path

/-- `vfs_rmdir`, and `vfs_rename` of the old path. -/
def rmdirFs (d : Drivers) (c : Caller) (m : Memfs) (path : Path) : Option FileSystem :=
  if (memfsResolvePath m.files c.root path).isSome then some .memfs else ext2Fs d path

/-- `vfs_mkdir` -/
def mkdirFs (d : Drivers) (c : Caller) (m : Memfs) (path : Path) : Option FileSystem :=
  if (memfsResolvePath m.files c.root path).isSome then some .memfs
  else
    match memfsSplitPath m.files c.root path with
    | none => ext2Fs d path
    | some (parent, _) =>
      if (m.files parent).isDir ∧ memfsAllocSlot m.files = none then ext2Fs d path
      else some .memfs

/-- `vfs_chmod` -/
def chmodFs (d : Drivers) (c : Caller) (m : Memfs) (path : Path) : Option FileSystem :=
  if (memfsResolvePath m.files c.root path).isSome then some .memfs
  else if d.ext2Writable then ext2Fs d path else none

/-- `vfs_truncate` -/
def truncateFs (c : Caller) (m : Memfs) (path : Path) : Option FileSystem :=
  if underTmp path then some .tmpfs
  else if (memfsResolvePath m.files c.root path).isSome then some .memfs else none

/-- What the entry points other than `vfs_open` select. -/
def selections (d : Drivers) (c : Caller) (m : Memfs) (path : Path) :
    List (Option FileSystem) :=
  [statFs d c m path, unlinkFs d c m path, rmdirFs d c m path, mkdirFs d c m path,
    chmodFs d c m path, truncateFs c m path]

-- ---------------------------------------------------------------------------
-- The selection is what the operation does
-- ---------------------------------------------------------------------------

/-- An operation fails where it selects no file system, and leaves memfs alone where it
selects another one. -/
def Routed (fs : Option FileSystem) (m : Memfs) (r : Memfs × Int) : Prop :=
  (fs = none → r.2 = -1) ∧ (fs ≠ some .memfs → r.1 = m)

section
variable {d : Drivers} {c : Caller} {m : Memfs} {path : Path}

theorem Routed.failed (fs : Option FileSystem) : Routed fs m (m, -1) :=
  ⟨fun _ => rfl, fun _ => rfl⟩

theorem vfsOpen_routed (flags : BitVec 32) :
    Routed (openFs d c m path flags) m (vfsOpen d c m path flags) := by
  unfold openFs vfsOpen Routed
  split
  · simp
  split
  · simp
  split
  · simp
  cases memfsResolvePath m.files c.root path with
  | some i => simp
  | none =>
    by_cases hcreat : hasFlag flags oCreat
    · cases memfsSplitPath m.files c.root path with
      | some target => simp [hcreat]
      | none => simp +contextual [hcreat]
    · by_cases hext2 : d.covers .ext2 path ∧ 0 ≤ d.ext2OpenFile path
      · simp [hcreat, hext2]
      · by_cases hfat : d.covers .fat32 path
        · simp only [hcreat, hext2, hfat]
          simp
          split <;> rfl
        · simp [hcreat, hext2, hfat]

theorem ext2Fs_eq_none : ext2Fs d path = none ↔ ¬ (d.covers .ext2 path ∧ d.ext2Mounted) := by
  simp [ext2Fs]

theorem unlinkExt2_routed : Routed (ext2Fs d path) m (m, unlinkExt2 d path) := by
  refine ⟨fun h => if_neg fun hd => ?_, fun _ => rfl⟩
  exact ext2Fs_eq_none.mp h ⟨hd.1, hd.2.1⟩

theorem mkdirExt2_routed (mode : BitVec 32) :
    Routed (ext2Fs d path) m (m, mkdirExt2 d path mode) := by
  refine ⟨fun h => if_neg fun hd => ?_, fun _ => rfl⟩
  exact ext2Fs_eq_none.mp h ⟨hd.1, hd.2.1⟩

theorem vfsUnlink_routed : Routed (unlinkFs d c m path) m (vfsUnlink d c m path) := by
  by_cases habs : path.Absolute
  · rw [vfsUnlink, if_neg (not_not.mpr habs), unlinkFs]
    cases memfsResolvePath m.files c.root path with
    | some i => simp [Routed]
    | none =>
      dsimp only
      rw [Option.isSome_none, if_neg Bool.false_ne_true]
      split
      · simp [Routed]
      split
      · simp [Routed]
      · exact unlinkExt2_routed
  · rw [vfsUnlink, if_pos habs]
    exact .failed _

theorem vfsRmdir_routed : Routed (rmdirFs d c m path) m (vfsRmdir d c m path) := by
  by_cases habs : path.Absolute
  · rw [vfsRmdir, if_neg (not_not.mpr habs), rmdirFs]
    cases memfsResolvePath m.files c.root path with
    | some i => simp [Routed]
    | none => exact unlinkExt2_routed
  · rw [vfsRmdir, if_pos habs]
    exact .failed _

theorem vfsMkdir_routed (mode : BitVec 32) :
    Routed (mkdirFs d c m path) m (vfsMkdir d c m path mode) := by
  by_cases habs : path.Absolute
  · rw [vfsMkdir, if_neg (not_not.mpr habs), mkdirFs]
    cases memfsResolvePath m.files c.root path with
    | some i => simp [Routed]
    | none =>
      cases memfsSplitPath m.files c.root path with
      | none => exact mkdirExt2_routed mode
      | some target =>
        by_cases hdir : (m.files target.1).isDir
        · cases memfsAllocSlot m.files with
          | none => simpa [hdir] using mkdirExt2_routed mode
          | some slot => simp [Routed, hdir]
        · simp [Routed, hdir]
  · rw [vfsMkdir, if_pos habs]
    exact .failed _

theorem vfsRename_routed {newpath : Path} (hne : path ≠ newpath) :
    Routed (rmdirFs d c m path) m (vfsRename d c m path newpath) := by
  by_cases habs : ¬ path.Absolute ∨ ¬ newpath.Absolute
  · rw [vfsRename, if_pos habs]
    exact .failed _
  · rw [vfsRename, if_neg habs, if_neg hne, rmdirFs]
    cases memfsResolvePath m.files c.root path with
    | some old => simp [Routed]
    | none =>
      dsimp only
      rw [Option.isSome_none, if_neg Bool.false_ne_true]
      split
      · rename_i hext2
        exact ⟨fun h => absurd hext2 (ext2Fs_eq_none.mp h), fun _ => rfl⟩
      · exact .failed _

theorem vfsChmod_routed (mode : BitVec 32) :
    Routed (chmodFs d c m path) m (vfsChmod d c m path mode) := by
  by_cases habs : path.Absolute
  · rw [vfsChmod, if_neg (not_not.mpr habs), chmodFs]
    cases memfsResolvePath m.files c.root path with
    | some i => simp [Routed]
    | none =>
      refine ⟨fun h => if_neg fun hd => ?_, fun _ => rfl⟩
      rw [Option.isSome_none, if_neg Bool.false_ne_true, if_pos hd.2.2, ext2Fs_eq_none] at h
      exact h ⟨hd.1, hd.2.1⟩
  · rw [vfsChmod, if_pos habs]
    exact .failed _

theorem vfsTruncate_routed {length : Int} {r : Memfs × Int}
    (h : vfsTruncate d c m path length = some r) : Routed (truncateFs c m path) m r := by
  unfold vfsTruncate at h
  split at h
  · exact Option.some.inj h ▸ .failed _
  split at h
  · exact Option.some.inj h ▸ .failed _
  split at h
  · rename_i htmp
    rw [← Option.some.inj h, truncateFs, if_pos htmp]
    simp [Routed]
  rename_i htmp
  split at h
  · exact Option.some.inj h ▸ .failed _
  rw [truncateFs, if_neg htmp]
  cases hres : memfsResolvePath m.files c.root path with
  | some i => simp [Routed]
  | none =>
    rw [hres] at h
    exact Option.some.inj h ▸ .failed _

theorem vfsStat_routed (h : statFs d c m path = none) :
    vfsStat (d.vfs m.files) c.root path = none := by
  have hcovers : ∀ fs, (findMountForPath (d.vfs m.files) fs path).isSome = d.covers fs path :=
    fun fs => List.isSome_find? ..
  unfold statFs at h
  unfold vfsStat
  simp only [hcovers]
  cases hres : memfsResolvePath m.files c.root path with
  | some i => simp [hres] at h
  | none =>
    rw [hres, Option.isSome_none, if_neg Bool.false_ne_true] at h
    split at h
    · exact absurd h (by simp)
    rename_i htmp
    split at h
    · exact absurd h (by simp)
    rename_i hfat
    have hnone : (if underTmp path then d.tmpfsStat path else none) = none := by
      split
      · rename_i hunder
        simpa [hunder] using htmp
      · rfl
    have hres' : memfsResolvePath (d.vfs m.files).files c.root path = none := hres
    have hnone' : (if underTmp path then (d.vfs m.files).tmpfsStat path else none) = none := hnone
    rw [hres', hnone']
    exact (if_neg hfat).trans (if_neg (ext2Fs_eq_none.mp h))

end

-- ---------------------------------------------------------------------------
-- The entry that a path names
-- ---------------------------------------------------------------------------

/-- The components that `memfs_resolve_path` walks over. -/
def walkedComps (root path : Path) : Option (List (List UInt8)) :=
  if ¬ path.Absolute then none
  else if root = [] ∨ root = [slash] then some (pathComps path.tail)
  else if maxPathLen ≤ root.length + path.length then none
  else
    let walked := effPath [slash]
      ((pathComps (combinedPath root path)).foldl (pushComp (rootDepth root)) [])
    if ¬ walked.Absolute then none else some (pathComps walked.tail)

theorem memfsResolvePath_comps (files : MemFiles) (root path : Path) :
    memfsResolvePath files root path =
      (walkedComps root path).bind fun comps =>
        comps.foldlM (resolveComp files) rootIdx := by
  unfold memfsResolvePath walkedComps memfsResolvePathRaw
  split_ifs <;> simp_all

/-- One component of the walk towards the entry `name` that the directory `parent` lacks;
`none` is this entry. -/
def entryStep (files : MemFiles) (parent : Fin maxFiles) (name : List UInt8) :
    Option (Fin maxFiles) → List UInt8 → Option (Option (Fin maxFiles))
  | none, comp =>
    if comp = [dot] then some none
    else if comp = [dot, dot] then some (some parent) else none
  | some cur, comp =>
    match resolveComp files cur comp with
    | some next => some (some next)
    | none => if cur = parent ∧ (files parent).isDir ∧ comp = name then some none else none

/-- The resolver walks the path to the entry `name` of `parent`. -/
def NamesEntry (files : MemFiles) (root path : Path) (parent : Fin maxFiles)
    (name : List UInt8) : Prop :=
  ∃ comps, walkedComps root path = some comps ∧
    comps.foldlM (entryStep files parent name) (some rootIdx) = some none

section
variable {m : Memfs} {c : Caller} {parent slot cur : Fin maxFiles} {name comp : List UInt8}
  {mode : BitVec 32}

theorem addNode_children (files : MemFiles) {isDir : Bool} (hne : cur ≠ slot)
    (hroom : (files parent).children.length < maxChildren)
    (hnew : ((slot : Nat) : Int) ∉ (files parent).children) (hps : parent ≠ slot) :
    (addNode c name isDir mode parent slot files cur).children =
      (files cur).children ++
        if cur = parent ∧ (files parent).isDir then [((slot : Nat) : Int)] else [] := by
  by_cases hdir : (files parent).isDir
  · rw [addNode_apply files hps hdir hroom hnew]
    by_cases hcur : cur = parent
    · simp [hcur, hdir]
    · simp [hcur, hne]
  · rw [if_neg fun h => hdir h.2, List.append_nil, addNode, memfsAddChild,
      setNode_ne files _ hps, if_pos (by simpa using hdir), Option.getD_none, setNode_ne _ _ hne]

/-- The search of a directory after a node has been added. -/
theorem addNode_find (h : MemfsTree m) (hslot : ¬ isLive m.files slot)
    (hp : isLive m.files parent) (hcur : isLive m.files cur) :
    memfsFindChild (addNode c name false mode parent slot m.files) cur comp =
      (memfsFindChild m.files cur comp).or
        (if cur = parent ∧ (m.files parent).isDir ∧ comp = name then some slot else none) := by
  have hne : ∀ {i}, isLive m.files i → i ≠ slot := fun hi he => hslot (he ▸ hi)
  have hnew : ((slot : Nat) : Int) ∉ (m.files parent).children := fun hmem =>
    hslot ((h.mem_children hp).mp hmem).1
  have hsame : ∀ {i}, i ≠ slot →
      (addNode c name false mode parent slot m.files i).live = (m.files i).live ∧
        (addNode c name false mode parent slot m.files i).name = (m.files i).name := fun hi => by
    rw [addNode_field MemFile.live fun _ _ => rfl, addNode_field MemFile.name fun _ _ => rfl,
      setNode_ne _ _ hi]
    exact ⟨rfl, rfl⟩
  have hold : (m.files cur).children.findSome? (fun x => (fileIdx x).filter fun i =>
        (addNode c name false mode parent slot m.files i).live &&
          (addNode c name false mode parent slot m.files i).name = comp)
      = (m.files cur).children.findSome? fun x => (fileIdx x).filter fun i =>
        (m.files i).live && (m.files i).name = comp := by
    refine findSome_congr fun x hx => ?_
    obtain ⟨i, rfl, hi, -⟩ := (h.listed cur hcur x).mp hx
    simp [Option.filter, hsame (hne hi)]
  have hfresh : fileIdx ((slot : Nat) : Int) = some slot := fileIdx_natCast slot
  have hslotNode : (addNode c name false mode parent slot m.files slot).live = true ∧
      (addNode c name false mode parent slot m.files slot).name = name := by
    rw [addNode_field MemFile.live fun _ _ => rfl, addNode_field MemFile.name fun _ _ => rfl,
      setNode_same]
    exact ⟨rfl, rfl⟩
  have hcurLive : (m.files cur).live = true := hcur
  rw [memfsFindChild, memfsFindChild, (hsame (hne hcur)).1, if_neg (by simp [hcurLive]),
    if_neg (by simp [hcurLive]), addNode_children m.files (hne hcur) (h.children_lt hp) hnew (hne hp),
    List.findSome?_append, hold]
  congr 1
  by_cases hcp : cur = parent ∧ (m.files parent).isDir
  · rw [if_pos hcp, List.findSome?_singleton, hfresh]
    by_cases hname : comp = name
    · simp [Option.filter, hslotNode, hcp.1, hcp.2, hname]
    · simp [Option.filter, hslotNode, hname, Ne.symm hname]
  · rw [if_neg hcp, if_neg fun hall => hcp ⟨hall.1, hall.2.1⟩]
    rfl

theorem addNode_parent (h : MemfsTree m) (hslot : ¬ isLive m.files slot)
    (hcur : isLive m.files cur) :
    memfsParent (addNode c name false mode parent slot m.files) cur = memfsParent m.files cur := by
  have hne : ∀ {i}, isLive m.files i → i ≠ slot := fun hi he => hslot (he ▸ hi)
  rw [memfsParent, memfsParent, addNode_field MemFile.parentIdx fun _ _ => rfl,
    setNode_ne _ _ (hne hcur)]
  cases hpar : fileIdx (m.files cur).parentIdx with
  | none => rfl
  | some p =>
    dsimp only
    rw [addNode_field MemFile.live fun _ _ => rfl,
      setNode_ne _ _ (hne (h.rooted.live_parent hcur hpar))]

theorem addNode_slot_parent (hp : isLive m.files parent) (hps : parent ≠ slot) :
    memfsParent (addNode c name false mode parent slot m.files) slot = parent := by
  have hlive : (m.files parent).live = true := hp
  rw [memfsParent, addNode_field MemFile.parentIdx fun _ _ => rfl, setNode_same]
  simp only [newNode, fileIdx_natCast]
  rw [addNode_field MemFile.live fun _ _ => rfl, setNode_ne _ _ hps, if_pos hlive]

theorem addNode_slot_find (hps : parent ≠ slot) :
    memfsFindChild (addNode c name false mode parent slot m.files) slot comp = none := by
  have hchildren : (addNode c name false mode parent slot m.files slot).children = [] := by
    unfold addNode memfsAddChild
    split_ifs
    · rw [Option.getD_none, setNode_same]
      rfl
    · rw [Option.getD_none, setNode_same]
      rfl
    · rw [Option.getD_some, setNode_same]
      rfl
    · rw [Option.getD_some, setNode_ne _ _ hps.symm, setNode_same]
      rfl
  rw [memfsFindChild, hchildren]
  split <;> rfl

/-- **The walk after a creation is the walk towards the missing entry before it.** -/
theorem resolveComp_addNode (h : MemfsTree m) (hslot : ¬ isLive m.files slot)
    (hp : isLive m.files parent) {s : Option (Fin maxFiles)}
    (hs : ∀ i, s = some i → isLive m.files i) :
    resolveComp (addNode c name false mode parent slot m.files) (s.getD slot) comp =
      (entryStep m.files parent name s comp).map (·.getD slot) := by
  have hps : parent ≠ slot := fun he => hslot (he ▸ hp)
  have hroot : slot ≠ rootIdx := fun he => hslot (he ▸ h.rooted.root_live)
  cases s with
  | none =>
    rw [Option.getD_none, resolveComp, entryStep]
    by_cases hdot : comp = [dot]
    · rw [if_pos hdot, if_pos hdot]
      rfl
    rw [if_neg hdot, if_neg hdot]
    by_cases hdd : comp = [dot, dot]
    · rw [if_pos hdd, if_pos hdd, if_pos hroot, addNode_slot_parent hp hps]
      rfl
    · rw [if_neg hdd, if_neg hdd, addNode_slot_find hps]
      rfl
  | some cur =>
    have hcur := hs cur rfl
    rw [Option.getD_some, entryStep, resolveComp, resolveComp]
    by_cases hdot : comp = [dot]
    · rw [if_pos hdot, if_pos hdot]
      rfl
    rw [if_neg hdot, if_neg hdot]
    by_cases hdd : comp = [dot, dot]
    · rw [if_pos hdd, if_pos hdd, addNode_parent h hslot hcur]
      rfl
    · rw [if_neg hdd, if_neg hdd, addNode_find h hslot hp hcur]
      cases memfsFindChild m.files cur comp with
      | some next => rfl
      | none =>
        rw [Option.none_or]
        dsimp only
        split <;> rfl

theorem entryStep_live (hp : isLive m.files parent) {s s' : Option (Fin maxFiles)}
    (hs : ∀ i, s = some i → isLive m.files i) (h : entryStep m.files parent name s comp = some s') :
    ∀ i, s' = some i → isLive m.files i := by
  rintro i rfl
  cases s with
  | none =>
    rw [entryStep] at h
    split_ifs at h
    · exact absurd h (by simp)
    · obtain rfl := Option.some.inj (Option.some.inj h)
      exact hp
  | some cur =>
    rw [entryStep] at h
    split at h
    · rename_i hnext
      obtain rfl := Option.some.inj (Option.some.inj h)
      exact resolveComp_live (hs cur rfl) hnext
    · split_ifs at h
      exact absurd h (by simp)

theorem entryWalk_live (hp : isLive m.files parent) (comps : List (List UInt8))
    {s s' : Option (Fin maxFiles)} (hs : ∀ i, s = some i → isLive m.files i)
    (h : comps.foldlM (entryStep m.files parent name) s = some s') :
    ∀ i, s' = some i → isLive m.files i := by
  induction comps generalizing s with
  | nil => exact Option.some.inj h ▸ hs
  | cons comp comps ih =>
    obtain ⟨s₁, hstep, hrest⟩ := Option.bind_eq_some_iff.mp h
    exact ih (entryStep_live hp hs hstep) hrest

/-- What the walk after a creation ends at. -/
theorem walk_addNode (h : MemfsTree m) (hslot : ¬ isLive m.files slot)
    (hp : isLive m.files parent) (comps : List (List UInt8)) {s : Option (Fin maxFiles)}
    (hs : ∀ i, s = some i → isLive m.files i) :
    comps.foldlM (resolveComp (addNode c name false mode parent slot m.files)) (s.getD slot) =
      (comps.foldlM (entryStep m.files parent name) s).map (·.getD slot) := by
  induction comps generalizing s with
  | nil => rfl
  | cons comp comps ih =>
    rw [List.foldlM_cons, List.foldlM_cons, resolveComp_addNode h hslot hp hs]
    cases hstep : entryStep m.files parent name s comp with
    | none => rfl
    | some s' => exact ih (entryStep_live hp hs hstep)

/-- **A created file is found under its path where the path names its entry.** -/
theorem resolves_addNode (h : MemfsTree m) (hslot : ¬ isLive m.files slot)
    (hp : isLive m.files parent) {root path : Path} :
    memfsResolvePath (addNode c name false mode parent slot m.files) root path = some slot ↔
      NamesEntry m.files root path parent name := by
  have hlive : ∀ i, some rootIdx = some i → isLive m.files i := by
    rintro i hi
    exact Option.some.inj hi ▸ h.rooted.root_live
  rw [memfsResolvePath_comps, Option.bind_eq_some_iff]
  refine exists_congr fun comps => and_congr_right fun _ => ?_
  have hwalk : comps.foldlM (resolveComp (addNode c name false mode parent slot m.files))
      ((some rootIdx).getD slot) = _ := walk_addNode h hslot hp comps hlive
  rw [Option.getD_some] at hwalk
  rw [hwalk, Option.map_eq_some_iff]
  constructor
  · rintro ⟨s, hs, hslot'⟩
    cases s with
    | none => exact hs
    | some i =>
      obtain rfl : i = slot := hslot'
      exact absurd (entryWalk_live hp comps hlive hs i rfl) hslot
  · exact fun hs => ⟨none, hs, rfl⟩

/-- A missing entry is no node yet. -/
theorem NamesEntry.free {root path : Path} (h : NamesEntry m.files root path parent name) :
    (m.files parent).isDir ∧ memfsFindChild m.files parent name = none := by
  obtain ⟨comps, -, hwalk⟩ := h
  have hgoal : ∀ (comps : List (List UInt8)) (cur : Fin maxFiles),
      comps.foldlM (entryStep m.files parent name) (some cur) = some none →
      (m.files parent).isDir ∧ memfsFindChild m.files parent name = none := by
    intro comps
    induction comps with
    | nil => exact fun cur h => absurd (Option.some.inj h) (by simp)
    | cons comp comps ih =>
      intro cur h
      obtain ⟨s, hstep, hrest⟩ := Option.bind_eq_some_iff.mp h
      rw [entryStep] at hstep
      split at hstep
      · obtain rfl := Option.some.inj hstep
        exact ih _ hrest
      · rename_i hnone
        split_ifs at hstep with hentry
        obtain ⟨rfl, hdir, rfl⟩ := hentry
        refine ⟨hdir, ?_⟩
        rw [resolveComp] at hnone
        split_ifs at hnone
        exact hnone
  exact hgoal comps rootIdx hwalk

end

-- ---------------------------------------------------------------------------
-- Ordinary paths
-- ---------------------------------------------------------------------------

section
variable {m : Memfs} {root path : Path} {parent : Fin maxFiles} {name : List UInt8}

theorem path_eq_parent_base (h : path.Absolute) :
    ∃ dir, path = dir ++ slash :: baseName path ∧
      parentPath path = if dir = [] then [slash] else dir.take (maxPathLen - 1) := by
  have hmem : slash ∈ path := List.mem_of_mem_head? h
  have hne : path.rdropWhile (· ≠ slash) ≠ [] := fun hnil => by
    simpa using List.rdropWhile_eq_nil_iff.mp hnil slash hmem
  have hlast : (path.rdropWhile (· ≠ slash)).getLast hne = slash := by
    simpa using List.rdropWhile_last_not (· ≠ slash) path hne
  refine ⟨(path.rdropWhile (· ≠ slash)).dropLast, ?_, rfl⟩
  calc path = path.rdropWhile (· ≠ slash) ++ baseName path :=
        List.rdropWhile_append_rtakeWhile.symm
    _ = (path.rdropWhile (· ≠ slash)).dropLast ++ [slash] ++ baseName path := by
        conv_lhs => rw [← List.dropLast_append_getLast hne, hlast]
    _ = _ := by rw [List.append_assoc, List.singleton_append]

/-- The walk towards a missing entry goes the way of the resolver as long as that has one. -/
theorem entryWalk_resolved {cur i : Fin maxFiles} (comps : List (List UInt8))
    (h : comps.foldlM (resolveComp m.files) cur = some i) :
    comps.foldlM (entryStep m.files parent name) (some cur) = some (some i) := by
  induction comps generalizing cur with
  | nil => exact congrArg some h
  | cons comp comps ih =>
    obtain ⟨next, hnext, hrest⟩ := Option.bind_eq_some_iff.mp h
    refine Option.bind_eq_some_iff.mpr ⟨some next, ?_, ih hrest⟩
    rw [entryStep, hnext]

/-- **A path of ordinary length whose last component is ordinary names the entry that
`memfs_split_path` reads in it**, unless the process is in a `chroot`. -/
theorem namesEntry_plain (hroot : ¬ jailedRoot root)
    (hsplit : memfsSplitPath m.files root path = some (parent, name))
    (hbase : PlainComp (baseName path)) (hlen : path.length ≤ maxPathLen)
    (hdir : (m.files parent).isDir) (habsent : memfsResolvePath m.files root path = none) :
    NamesEntry m.files root path parent name := by
  have hunjailed : root = [] ∨ root = [slash] := by
    by_contra h
    exact hroot (not_or.mp h)
  have habs : path.Absolute := by
    by_contra h
    rw [memfsSplitPath, if_pos (.inl h)] at hsplit
    exact absurd hsplit (by simp)
  have hname : name = baseName path := by
    rw [(memfsSplitPath_name hsplit).1, List.take_of_length_le hbase.short]
  have hwalked : ∀ p : Path, p.Absolute → walkedComps root p = some (pathComps p.tail) := by
    intro p hp
    rw [walkedComps, if_neg (not_not.mpr hp), if_pos hunjailed]
  have hone := pathComps_comp hbase.ne_nil hbase.no_slash hbase.short
  obtain ⟨dir, hpath, hparent⟩ := path_eq_parent_base habs
  have hwalk : ∃ comps, pathComps path.tail = comps ++ [baseName path] ∧
      comps.foldlM (resolveComp m.files) rootIdx = some parent := by
    cases dir with
    | nil =>
      rw [if_pos rfl] at hparent
      rcases memfsSplitPath_parent hsplit with ⟨-, rfl⟩ | ⟨hne, -⟩
      · refine ⟨[], ?_, rfl⟩
        conv_lhs => rw [hpath]
        exact hone
      · exact absurd hparent hne
    | cons c d =>
      obtain rfl : c = slash := by
        rw [hpath] at habs
        exact Option.some.inj habs
      have htake : (slash :: d).take (maxPathLen - 1) = slash :: d := by
        have := congrArg List.length hpath
        simp only [List.length_append, List.length_cons] at this
        exact List.take_of_length_le (by rw [List.length_cons]; omega)
      rw [if_neg (List.cons_ne_nil _ _), htake] at hparent
      refine ⟨pathComps d, ?_, ?_⟩
      · conv_lhs => rw [hpath]
        rw [List.cons_append, List.tail_cons, pathComps, compsFrom_append_slash]
        exact congrArg (pathComps d ++ ·) hone
      · rcases memfsSplitPath_parent hsplit with ⟨hp, rfl⟩ | ⟨-, hres⟩
        · rw [hp] at hparent
          obtain rfl := (List.cons.inj hparent).2
          rfl
        · rw [hparent, memfsResolvePath_comps, hwalked (slash :: d) rfl] at hres
          exact hres
  obtain ⟨comps, hcomps, hdirWalk⟩ := hwalk
  have hmissing : resolveComp m.files parent (baseName path) = none := by
    rw [memfsResolvePath_comps, hwalked path habs, Option.bind_some, hcomps, List.foldlM_append,
      hdirWalk] at habsent
    simpa using habsent
  refine ⟨_, hwalked path habs, ?_⟩
  rw [hcomps, List.foldlM_append, entryWalk_resolved comps hdirWalk]
  change (entryStep m.files parent name (some parent) (baseName path)).bind some = some none
  rw [entryStep, hmissing]
  dsimp only
  rw [if_pos ⟨rfl, hdir, hname.symm⟩]
  rfl

end

-- ---------------------------------------------------------------------------
-- The law
-- ---------------------------------------------------------------------------

/-- All entry points follow the `vfs_open` that took `m` to `m₁` and returned `fd`: the file
has a status, its mode can be changed, its directory cannot be removed, and removing the
path removes it. The other file systems answer `d` to the `vfs_open` and `d'` after it. -/
structure RoutingLaw (d d' : Drivers) (c : Caller) (m m₁ : Memfs) (path : Path)
    (flags : BitVec 32) (fd : Int) : Prop where
  same : ∀ fs ∈ selections d' c m₁ path, fs = openFs d c m path flags
  stats : (vfsStat (d'.vfs m₁.files) c.root path).isSome
  chmods : ∀ mode, ∃ m₂ st, vfsChmod d' c m₁ path mode = (m₂, 0) ∧
    vfsStat (d'.vfs m₂.files) c.root path = some st ∧
    st.mode &&& 0o777#32 = mode &&& 0o777#32
  rmdirs : ∀ i p q, fd = memfsFd i → parentOf m₁.files i = some p →
    memfsResolvePath m₁.files c.root q = some p → vfsRmdir d' c m₁ q = (m₁, -1)
  unlinks : ∃ m₂, vfsUnlink d' c m₁ path = (m₂, 0) ∧ ∀ i, fd = memfsFd i →
    ∀ j, isLive m₂.files j ↔ isLive m₁.files j ∧ j ≠ i

/-- memfs takes the path and has it, as a file or an empty directory, or else walks it to the
entry where it is created. -/
structure RoutesToMemfs (d : Drivers) (c : Caller) (m : Memfs) (path : Path) : Prop where
  memfs : reachesMemfs d path
  present : ∀ i, memfsResolvePath m.files c.root path = some i →
    i ≠ rootIdx ∧ ((m.files i).isDir → (m.files i).children = [])
  absent : memfsResolvePath m.files c.root path = none → ∃ parent name,
    memfsSplitPath m.files c.root path = some (parent, name) ∧
      NamesEntry m.files c.root path parent name

section
variable {d d' : Drivers} {c : Caller} {m m₁ : Memfs} {path : Path} {flags : BitVec 32}
  {fd : Int} {i j : Fin maxFiles}

theorem memfsFd_inj (h : memfsFd i = memfsFd j) : i = j := by
  unfold memfsFd at h
  exact Fin.ext (by omega)

theorem removeNode_live (m : Memfs) (i j : Fin maxFiles) :
    isLive (removeNode m i).files j ↔ isLive m.files j ∧ j ≠ i := by
  by_cases hj : j = i
  · simp [isLive, hj, removeNode_same]
  · simp [isLive, removeNode_ne m hj, hj, detach_field MemFile.live fun _ _ => rfl]

theorem memfsResolvePath_absolute {files : MemFiles} {root : Path}
    (h : memfsResolvePath files root path = some i) : path.Absolute := by
  by_contra habs
  rw [memfsResolvePath, if_pos habs] at h
  exact absurd h (by simp)

/-- The shape of the nodes decides what a path resolves to. -/
theorem memfsResolvePath_congr {files files' : MemFiles} {root : Path}
    (h : ∀ i, (files' i).shape = (files i).shape) :
    memfsResolvePath files' root path = memfsResolvePath files root path := by
  have hlive : ∀ i, (files' i).live = (files i).live := fun i => congrArg (·.1) (h i)
  have hparent : ∀ i, (files' i).parentIdx = (files i).parentIdx := fun i =>
    congrArg (fun s => s.2.1) (h i)
  have hchildren : ∀ i, (files' i).children = (files i).children := fun i =>
    congrArg (fun s => s.2.2.2.1) (h i)
  have hname : ∀ i, (files' i).name = (files i).name := fun i =>
    congrArg (fun s => s.2.2.2.2) (h i)
  have hcomp : resolveComp files' = resolveComp files := by
    funext cur comp
    simp only [resolveComp, memfsParent, memfsFindChild, hlive, hparent, hchildren, hname]
  rw [memfsResolvePath_comps, memfsResolvePath_comps, hcomp]

theorem chmod_bits (x mode : BitVec 32) :
    (x &&& sIfmt ||| mode &&& 0o777#32) &&& 0o777#32 = mode &&& 0o777#32 := by
  rw [BitVec.and_or_distrib_right, BitVec.and_assoc, BitVec.and_assoc]
  simp [sIfmt]

theorem vfsStat_resolved {v : Vfs} {root : Path}
    (h : memfsResolvePath v.files root path = some i) :
    vfsStat v root path = some ⟨(v.files i).mode, (v.files i).uid, (v.files i).gid,
      if (v.files i).isDir then 0 else (v.files i).size⟩ := by
  rw [vfsStat, h]

/-- **Once memfs has the file, every entry point finds it there.** -/
theorem law_of_resolved (h : MemfsTree m₁) (hres : memfsResolvePath m₁.files c.root path = some i)
    (hroot : i ≠ rootIdx) (hempty : (m₁.files i).isDir → (m₁.files i).children = [])
    (htmp : underTmp path = false) (hfs : openFs d c m path flags = some .memfs)
    (hfd : fd = memfsFd i) : RoutingLaw d d' c m m₁ path flags fd := by
  have habs := memfsResolvePath_absolute hres
  have hsome : (memfsResolvePath m₁.files c.root path).isSome := by rw [hres, Option.isSome_some]
  refine ⟨fun fs hmem => ?_, ?_, fun mode => ?_, ?_, ?_⟩
  · rw [hfs]
    simp only [selections, statFs, unlinkFs, rmdirFs, mkdirFs, chmodFs, truncateFs, hsome, htmp,
      if_true, Bool.false_eq_true, if_false, List.mem_cons, List.not_mem_nil, or_false,
      or_self] at hmem
    exact hmem
  · rw [vfsStat_resolved (v := d'.vfs m₁.files) hres, Option.isSome_some]
  · have hchmod : (vfsChmod d' c m₁ path mode).2 = 0 ∧ (vfsChmod d' c m₁ path mode).1.files
        = setNode m₁.files i fun f =>
          { f with mode := (f.mode &&& sIfmt) ||| (mode &&& 0o777#32) } := by
      rw [vfsChmod, if_neg (not_not.mpr habs), hres]
      exact ⟨rfl, rfl⟩
    refine ⟨(vfsChmod d' c m₁ path mode).1, _, Prod.ext rfl hchmod.1,
      vfsStat_resolved (i := i) ?_, ?_⟩
    · change memfsResolvePath (vfsChmod d' c m₁ path mode).1.files c.root path = some i
      rw [hchmod.2, ← hres]
      exact memfsResolvePath_congr fun j => setNode_field MemFile.shape m₁.files i j rfl
    · change ((vfsChmod d' c m₁ path mode).1.files i).mode &&& 0o777#32 = _
      rw [hchmod.2, setNode_same]
      exact chmod_bits _ mode
  · intro k p q hk hp hq
    obtain rfl := memfsFd_inj (hfd.symm.trans hk)
    have hi : isLive m₁.files i := memfsResolvePath_live h.rooted.root_live hres
    have hchild := (h.mem_children (h.rooted.live_parent hi hp)).mpr ⟨hi, hp⟩
    rw [vfsRmdir, if_neg (not_not.mpr (memfsResolvePath_absolute hq)), hq]
    dsimp only
    split_ifs with hproot hpdir hpempty
    · rfl
    · rfl
    · rfl
    · rw [not_not.mp hpempty] at hchild
      exact absurd hchild List.not_mem_nil
  · refine ⟨removeNode m₁ i, ?_, fun k hk j => ?_⟩
    · rw [vfsUnlink, if_neg (not_not.mpr habs), hres]
      dsimp only
      rw [if_neg hroot, if_neg fun hd => hd.2 (hempty hd.1)]
    · obtain rfl := memfsFd_inj (hfd.symm.trans hk)
      exact removeNode_live m₁ i j

theorem openFs_reaches (h : reachesMemfs d path) (hcreat : hasFlag flags oCreat)
    (hplace : (memfsResolvePath m.files c.root path).isSome ∨
      (memfsSplitPath m.files c.root path).isSome) : openFs d c m path flags = some .memfs := by
  obtain ⟨hproc, hdev, htmp⟩ := h
  rw [openFs, if_neg hproc, if_neg hdev, htmp, if_neg Bool.false_ne_true, if_pos hcreat]
  split_ifs with hres hsplit
  · rfl
  · rfl
  · exact absurd hplace (by simp_all)
  · exact absurd hplace (by simp_all)

theorem openFs_memfs (hfs : openFs d c m path flags = some .memfs) (hcreat : hasFlag flags oCreat)
    (hfd : 0 ≤ (vfsOpen d c m path flags).2) :
    (∃ i, reachesMemfs d path ∧ memfsResolvePath m.files c.root path = some i ∧
      vfsOpen d c m path flags = (openNode m i flags, memfsFd i)) ∨
    ∃ parent slot name, Creates d c m path flags parent slot name ∧
      vfsOpen d c m path flags = (createNode c m parent slot name flags, memfsFd slot) := by
  rw [openFs] at hfs
  split at hfs
  · exact absurd hfs (by decide)
  rename_i hproc
  split at hfs
  · exact absurd hfs (by decide)
  rename_i hdev
  split at hfs
  · exact absurd hfs (by decide)
  rename_i htmp
  have hm : reachesMemfs d path := ⟨hproc, hdev, by simpa using htmp⟩
  rw [vfsOpen, if_neg hproc, if_neg hdev, if_neg htmp] at hfd ⊢
  cases hres : memfsResolvePath m.files c.root path with
  | some i => exact .inl ⟨i, hm, rfl, rfl⟩
  | none =>
    rw [hres, Option.isSome_none, if_neg Bool.false_ne_true] at hfs
    rw [hres] at hfd
    dsimp only at hfd ⊢
    simp only [hcreat, if_true] at hfs hfd ⊢
    cases hsplit : memfsSplitPath m.files c.root path with
    | none =>
      rw [hsplit, Option.isSome_none, if_neg Bool.false_ne_true] at hfs
      split at hfs <;> exact absurd hfs (by decide)
    | some target =>
      rw [hsplit] at hfd
      cases hslot : memfsAllocSlot m.files with
      | none =>
        rw [hslot] at hfd
        exact absurd hfd (by simp)
      | some slot => exact .inr ⟨_, slot, _, ⟨hm, hres, hcreat, hsplit, hslot⟩, rfl⟩

theorem openNode_shape (m : Memfs) (i j : Fin maxFiles) (flags : BitVec 32) :
    ((openNode m i flags).files j).shape = (m.files j).shape := by
  dsimp only [openNode]
  split
  · exact setNode_field MemFile.shape m.files i j rfl
  · rfl

/-- No file system but memfs is behind both `vfs_chmod` and `vfs_truncate`. -/
theorem RoutingLaw.memfs_or_none (h : RoutingLaw d d' c m m₁ path flags fd) :
    openFs d c m path flags = some .memfs ∨ openFs d c m path flags = none := by
  have hchmod := h.same (chmodFs d' c m₁ path) (by simp [selections])
  have htrunc := h.same (truncateFs c m₁ path) (by simp [selections])
  have hext2 : chmodFs d' c m₁ path ≠ some .tmpfs := by
    unfold chmodFs ext2Fs
    split_ifs <;> simp
  rw [← hchmod] at htrunc ⊢
  rw [← htrunc] at hext2 ⊢
  unfold truncateFs at hext2 ⊢
  split_ifs at hext2 ⊢
  · exact absurd rfl hext2
  · exact .inl rfl
  · exact .inr rfl

/-- What `vfs_unlink` of an opened path needs. -/
theorem RoutingLaw.unlinked (h : RoutingLaw d d' c m m₁ path flags (memfsFd i))
    (hi : isLive m₁.files i) : Removes c m₁ path i := by
  obtain ⟨m₂, hunlink, hgone⟩ := h.unlinks
  rcases vfsUnlink_cases d' c m₁ path with hkeep | ⟨k, hrm, heq⟩
  · rw [hunlink] at hkeep
    obtain rfl : m₂ = m₁ := hkeep
    exact absurd rfl ((hgone i rfl i).mp hi).2
  · rw [hunlink] at heq
    obtain rfl := (Prod.mk.inj heq).1
    have hk : ¬ (i ≠ k) := fun hne =>
      ((hgone i rfl i).mp ((removeNode_live m₁ k i).mpr ⟨hi, hne⟩)).2 rfl
    rwa [not_not.mp hk]

/-- **All entry points agree on a path after a successful `vfs_open` with `O_CREAT` exactly
where memfs takes it, and has it or walks it to the entry that it creates.** -/
theorem routing_agrees_iff (h : MemfsTree m) (hcreat : hasFlag flags oCreat)
    (hopen : vfsOpen d c m path flags = (m₁, fd)) (hfd : 0 ≤ fd) :
    RoutingLaw d d' c m m₁ path flags fd ↔ RoutesToMemfs d c m path := by
  by_cases hfs : openFs d c m path flags = some .memfs
  · have hpos : 0 ≤ (vfsOpen d c m path flags).2 := by
      rw [hopen]
      exact hfd
    rcases openFs_memfs hfs hcreat hpos with ⟨i, hm, hres, heq⟩ | ⟨parent, slot, name, hcr, heq⟩
    · obtain ⟨rfl, rfl⟩ := Prod.mk.inj (hopen.symm.trans heq)
      have hshape := fun j => openNode_shape m i j flags
      have htree : MemfsTree (openNode m i flags) := h.congr rfl hshape
      have hres₁ : memfsResolvePath (openNode m i flags).files c.root path = some i := by
        rw [memfsResolvePath_congr hshape, hres]
      have hdir : ((openNode m i flags).files i).isDir = (m.files i).isDir :=
        congrArg (fun s => s.2.2.1) (hshape i)
      have hchildren : ((openNode m i flags).files i).children = (m.files i).children :=
        congrArg (fun s => s.2.2.2.1) (hshape i)
      constructor
      · intro hlaw
        have hrm := hlaw.unlinked (memfsResolvePath_live htree.rooted.root_live hres₁)
        refine ⟨hm, fun k hk => ?_, fun hnone => absurd hnone (by rw [hres]; simp)⟩
        obtain rfl := Option.some.inj (hk.symm.trans hres)
        exact ⟨hrm.not_root, hdir ▸ hchildren ▸ hrm.empty⟩
      · intro hr
        obtain ⟨hroot, hempty⟩ := hr.present i hres
        exact law_of_resolved htree hres₁ hroot (hdir ▸ hchildren ▸ hempty) hm.2.2 hfs rfl
    · obtain ⟨rfl, rfl⟩ := Prod.mk.inj (hopen.symm.trans heq)
      have hslot : ¬ isLive m.files slot := by
        rw [isLive, memfsAllocSlot_dead hcr.slot]
        simp
      have hp : isLive m.files parent := memfsSplitPath_live h.rooted.root_live hcr.split
      constructor
      · intro hlaw
        have hlive : isLive (createNode c m parent slot name flags).files slot := by
          rw [isLive, createNode, addNode_field MemFile.live fun _ _ => rfl, setNode_same]
          rfl
        refine ⟨hcr.memfs, fun k hk => absurd hk (by rw [hcr.absent]; simp), fun _ =>
          ⟨parent, name, hcr.split, ?_⟩⟩
        exact (resolves_addNode h hslot hp).mp (hlaw.unlinked hlive).resolved
      · intro hr
        obtain ⟨parent', name', hsplit, hnames⟩ := hr.absent hcr.absent
        obtain ⟨rfl, rfl⟩ := Prod.mk.inj (Option.some.inj (hcr.split.symm.trans hsplit))
        obtain ⟨hdir, hfree⟩ := hnames.free
        have htree : MemfsTree (createNode c m parent slot name flags) :=
          h.add hslot hp hdir (memfsSplitPath_name hcr.split).2 hfree _ _
        have hfile : ((createNode c m parent slot name flags).files slot).isDir = false :=
          addNode_isDir
        refine law_of_resolved htree ((resolves_addNode h hslot hp).mpr hnames) ?_ ?_
          hcr.memfs.2.2 hfs rfl
        · exact fun he => hslot (he ▸ h.rooted.root_live)
        · exact fun hd => absurd (hfile.symm.trans hd) Bool.false_ne_true
  · constructor
    · intro hlaw
      rcases hlaw.memfs_or_none with hmemfs | hnone
      · exact absurd hmemfs hfs
      · have hfail := (vfsOpen_routed flags).1 hnone
        rw [hopen] at hfail
        obtain rfl : fd = -1 := hfail
        exact absurd hfd (by decide)
    · intro hr
      refine absurd (openFs_reaches hr.memfs hcreat ?_) hfs
      cases hres : memfsResolvePath m.files c.root path with
      | some i => exact .inl rfl
      | none =>
        obtain ⟨parent, name, hsplit, -⟩ := hr.absent hres
        rw [hsplit]
        exact .inr rfl

end

/-- `"/hello.txt"` -/
def helloPath : Path := [47, 104, 101, 108, 108, 111, 46, 116, 120, 116]

theorem routing_agrees_iff_hello :
    RoutingLaw noDrivers noDrivers rootCaller vfsInit
      (vfsOpen noDrivers rootCaller vfsInit helloPath oCreat).1 helloPath oCreat 4 := by
  have hcreat : hasFlag oCreat oCreat := by decide
  have hopen : vfsOpen noDrivers rootCaller vfsInit helloPath oCreat
      = ((vfsOpen noDrivers rootCaller vfsInit helloPath oCreat).1, 4) :=
    Prod.ext rfl (by decide)
  have hmemfs : reachesMemfs noDrivers helloPath := ⟨by decide, by decide, by decide⟩
  refine (routing_agrees_iff vfsInit_tree hcreat hopen (by decide)).mpr
    ⟨hmemfs, fun i hi => ?_, fun _ => ?_⟩
  · have hnone : memfsResolvePath vfsInit.files rootCaller.root helloPath = none := by
      decide
    exact absurd hi (by rw [hnone]; simp)
  · exact ⟨rootIdx, helloPath.tail, by decide, [helloPath.tail], by decide,
      by decide⟩

-- ---------------------------------------------------------------------------
-- Below /tmp
-- ---------------------------------------------------------------------------

/-- `tmpfs_stat` -/
def tmpfsStat (t : Tmpfs) (path : Path) : Option Stat :=
  if path = tmpDir ∨ path = tmpDir ++ [slash] then some ⟨sIfdir ||| 0o755#32, 0#32, 0#32, 0⟩
  else (findInode t path).map fun i =>
    ⟨sIfreg ||| 0o644#32, 0#32, 0#32, ((t.inodes i).map (·.size)).getD 0⟩

/-- tmpfs alone, with what `kmalloc` returns in a call. -/
def tmpfsDrivers (fresh : Option (List UInt8)) (t : Tmpfs) : Drivers :=
  { noDrivers with
    tmpfsOpen := fun path flags => (tmpfsOpen t fresh path flags).2
    tmpfsStat := tmpfsStat t
    tmpfsUnlink := fun path => (tmpfsUnlink t path).2
    tmpfsTruncate := fun path length => ((tmpfsTruncate t path length).map (·.2)).getD (-1) }

/-- What `kmalloc` returns for a file of tmpfs. -/
def freshFile : Option (List UInt8) := some (List.replicate tmpfsMaxFileSize 0)

/-- `"/tmp/hello.txt"` -/
def tmpHello : Path := tmpDir ++ helloPath

/-- memfs after `mkdir("/tmp")`. -/
def tmpDirMade : Memfs := (vfsMkdir noDrivers rootCaller vfsInit tmpDir 0o755#32).1

/-- **`vfs_selftest`:** after `mkdir("/tmp")` the file that `vfs_open` creates below it lies in
tmpfs, and `vfs_chmod` looks for it in memfs. -/
theorem selftest_leaves_memfs :
    ¬ ∀ (d d' : Drivers) (c : Caller) (m m₁ : Memfs) (path : Path) (flags : BitVec 32) (fd : Int),
      MemfsTree m → path.Absolute → hasFlag flags oCreat →
      vfsOpen d c m path flags = (m₁, fd) → 0 ≤ fd → RoutingLaw d d' c m m₁ path flags fd := by
  intro h
  have htree : MemfsTree tmpDirMade := by
    refine vfsMkdir_tree vfsInit_tree fun parent slot name hmk => ?_
    have hsplit : some (rootIdx, tmpDir.tail) = some (parent, name) := hmk.split
    obtain ⟨rfl, rfl⟩ := Prod.mk.inj (Option.some.inj hsplit)
    decide
  have hlaw := h (tmpfsDrivers freshFile tmpfsInit)
    (tmpfsDrivers freshFile (tmpfsOpen tmpfsInit freshFile tmpHello oCreat).1) rootCaller
    tmpDirMade tmpDirMade tmpHello oCreat 500 htree (by decide) (by decide)
    (Prod.ext rfl (by decide)) (by decide)
  obtain ⟨m₂, st, hchmod, -⟩ := hlaw.chmods 0o644#32
  have hfail : (vfsChmod (tmpfsDrivers freshFile (tmpfsOpen tmpfsInit freshFile tmpHello oCreat).1)
      rootCaller tmpDirMade tmpHello 0o644#32).2 = -1 := by
    decide
  rw [hchmod] at hfail
  exact absurd hfail (by simp)

end Lestra
