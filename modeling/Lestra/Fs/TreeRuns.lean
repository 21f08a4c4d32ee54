import Lestra.Fs.MemfsTree

/-!
# The memfs tree over runs

`memfs_tree_run`: a run from `vfs_init` keeps the tree as long as every creation is in a
directory that lacks the name, every rename has a destination that takes the node, and
no access leaves a data array. `open_below_a_file` is a run of two calls that breaks it.
-/

namespace Lestra

/-- What the source does not check before it edits the tree. -/
def treeSafe (s : VfsStep) (m : Memfs) : Prop :=
  match s.call with
  | .open path flags => ∀ parent slot name,
      Creates s.drivers s.caller m path flags parent slot name →
      (m.files parent).isDir ∧ memfsFindChild m.files parent name = none
  | .mkdir path _ => ∀ parent slot name, Makes s.caller m path parent slot name →
      memfsFindChild m.files parent name = none
  | .rename oldpath newpath => ∀ old new parent name,
      Moves s.caller m oldpath newpath old new parent name → MoveSafe m old new parent name
  | _ => True

/-- The condition on one step. -/
def treeAllowed (m : Memfs) (s : VfsStep) : Prop := treeSafe s m ∧ staysInside s.caller m s.call

theorem vfsInit_tree : MemfsTree vfsInit := by
  have hlive : ∀ i, isLive vfsInit.files i ↔ i = rootIdx := by decide
  have hparent : parentOf vfsInit.files rootIdx = none := by decide
  constructor
  · refine ⟨by decide, hparent, fun x hx => ?_⟩
    rw [(hlive x).mp hx]
    exact .self (by decide)
  · intro i p hi hip
    rw [(hlive i).mp hi, hparent] at hip
    exact absurd hip (by simp)
  · intro p hp x
    rw [(hlive p).mp hp]
    constructor
    · intro hx
      exact absurd hx (List.not_mem_nil)
    · rintro ⟨i, -, hi, hip⟩
      rw [(hlive i).mp hi, hparent] at hip
      exact absurd hip (by simp)
  · intro p hp
    rw [(hlive p).mp hp]
    exact List.nodup_nil
  · intro i hi
    rw [(hlive i).mp hi]
    decide
  · intro i j hi hj _ _
    rw [(hlive i).mp hi, (hlive j).mp hj]
  · have hset : (Finset.univ.filter fun i => isLive vfsInit.files i) = {rootIdx} := by
      ext i
      simp [hlive]
    rw [liveCount, hset, Finset.card_singleton]
    rfl

section
variable {m : Memfs} {d : Drivers} {c : Caller}

theorem vfsOpen_tree (h : MemfsTree m) {path : Path} {flags : BitVec 32}
    (hsafe : treeSafe ⟨d, c, .open path flags⟩ m) : MemfsTree (vfsOpen d c m path flags).1 := by
  rcases vfsOpen_cases d c m path flags with
    heq | ⟨i, -, -, heq⟩ | ⟨parent, slot, name, hcr, heq⟩
  · rwa [heq]
  · rw [heq]
    refine h.congr rfl fun j => ?_
    dsimp only [openNode]
    split
    · exact setNode_field MemFile.shape m.files i j rfl
    · rfl
  · rw [heq]
    obtain ⟨hdir, hfree⟩ := hsafe parent slot name hcr
    have hslot : ¬ isLive m.files slot := by
      rw [isLive, memfsAllocSlot_dead hcr.slot]
      simp
    exact h.add hslot (memfsSplitPath_live h.rooted.root_live hcr.split) hdir
      (memfsSplitPath_name hcr.split).2 hfree _ _

theorem vfsMkdir_tree (h : MemfsTree m) {path : Path} {mode : BitVec 32}
    (hsafe : treeSafe ⟨d, c, .mkdir path mode⟩ m) : MemfsTree (vfsMkdir d c m path mode).1 := by
  rcases vfsMkdir_cases d c m path mode with heq | ⟨parent, slot, name, hmk, heq⟩
  · rwa [heq]
  · rw [heq]
    have hslot : ¬ isLive m.files slot := by
      rw [isLive, memfsAllocSlot_dead hmk.slot]
      simp
    exact h.add hslot (memfsSplitPath_live h.rooted.root_live hmk.split) hmk.isDir
      (memfsSplitPath_name hmk.split).2 (hsafe parent slot name hmk) _ _

/-- What `vfs_unlink` and `vfs_rmdir` free has no children. -/
theorem MemfsTree.removes (h : MemfsTree m) {path : Path} {i : Fin maxFiles}
    (hrm : Removes c m path i) : MemfsTree (removeNode m i) := by
  have hi : isLive m.files i := memfsResolvePath_live h.rooted.root_live hrm.resolved
  refine h.remove hi hrm.not_root ?_
  by_cases hdir : (m.files i).isDir
  · exact hrm.empty hdir
  · exact h.file_children hi (by simpa using hdir)

theorem vfsUnlink_tree (h : MemfsTree m) (path : Path) : MemfsTree (vfsUnlink d c m path).1 := by
  rcases vfsUnlink_cases d c m path with heq | ⟨i, hrm, heq⟩
  · rwa [heq]
  · rw [heq]
    exact h.removes hrm

theorem vfsRmdir_tree (h : MemfsTree m) (path : Path) : MemfsTree (vfsRmdir d c m path).1 := by
  rcases vfsRmdir_cases d c m path with heq | ⟨i, hrm, heq⟩
  · rwa [heq]
  · rw [heq]
    exact h.removes hrm

theorem vfsRename_tree (h : MemfsTree m) {oldpath newpath : Path}
    (hsafe : treeSafe ⟨d, c, .rename oldpath newpath⟩ m) :
    MemfsTree (vfsRename d c m oldpath newpath).1 := by
  rcases vfsRename_cases d c m oldpath newpath with heq | ⟨old, new, parent, name, hmv, heq⟩
  · rwa [heq]
  · rw [heq]
    have hroot := h.rooted.root_live
    refine h.move (memfsResolvePath_live hroot hmv.resolved) hmv.not_root
      (memfsSplitPath_live hroot hmv.split) hmv.isDir (memfsSplitPath_name hmv.split).2 ?_
      (hsafe old new parent name hmv)
    intro n hn
    have hclear := hmv.clear n hn
    simp only [renameBlocked, Bool.or_eq_false_iff, decide_eq_false_iff_not] at hclear
    exact ⟨memfsResolvePath_live hroot (hmv.target.trans hn), hclear.1.1⟩

/-- The calls that edit the tree. -/
def VfsCall.editsTree : VfsCall → Bool
  | .open .. | .mkdir .. | .unlink .. | .rmdir .. | .rename .. => true
  | _ => false

/-- Every other call keeps the shape of every node. -/
theorem vfsStep_shape {s : VfsStep} (hcall : s.call.editsTree = false)
    (hin : staysInside s.caller m s.call) :
    ∃ m', vfsStep m s = some m' ∧ m'.numFiles = m.numFiles ∧
      ∀ j, (m'.files j).shape = (m.files j).shape := by
  have hset : ∀ (i : Fin maxFiles) (f : MemFile → MemFile),
      (f (m.files i)).shape = (m.files i).shape →
      ∀ j, (setNode m.files i f j).shape = (m.files j).shape := fun i f hf j =>
    setNode_field MemFile.shape m.files i j hf
  obtain ⟨d, c, call⟩ := s
  cases call with
  | «open» | mkdir | unlink | rmdir | rename => exact absurd hcall (by simp [VfsCall.editsTree])
  | stat path => exact ⟨_, rfl, rfl, fun _ => rfl⟩
  | chmod path mode =>
    refine ⟨_, rfl, ?_⟩
    dsimp only [plain, vfsChmod]
    split
    · exact ⟨rfl, fun _ => rfl⟩
    · split
      · exact ⟨rfl, fun _ => rfl⟩
      · exact ⟨rfl, hset _ _ rfl⟩
  | chown path uid gid =>
    refine ⟨_, rfl, ?_⟩
    dsimp only [plain, vfsChown]
    split
    · exact ⟨rfl, fun _ => rfl⟩
    · split
      · exact ⟨rfl, hset _ _ rfl⟩
      · exact ⟨rfl, fun _ => rfl⟩
  | truncate path length =>
    rcases vfsTruncate_cases (d := d) hin with ⟨r, heq⟩ | ⟨i, -, -, -, heq⟩
    · exact ⟨m, vfsStep_of_call ⟨d, c, .truncate path length⟩ (congrArg (Option.map plain) heq),
        rfl, fun _ => rfl⟩
    · exact ⟨truncated m i length.toNat,
        vfsStep_of_call ⟨d, c, .truncate path length⟩ (congrArg (Option.map plain) heq), rfl,
        hset _ _ rfl⟩
  | ftruncate fd length =>
    rcases vfsFtruncate_cases (d := d) hin with ⟨r, heq⟩ | ⟨i, -, -, heq⟩
    · exact ⟨m, vfsStep_of_call ⟨d, c, .ftruncate fd length⟩ (congrArg (Option.map plain) heq),
        rfl, fun _ => rfl⟩
    · exact ⟨truncated m i length.toNat,
        vfsStep_of_call ⟨d, c, .ftruncate fd length⟩ (congrArg (Option.map plain) heq), rfl,
        hset _ _ rfl⟩
  | close fd =>
    refine ⟨_, rfl, ?_⟩
    dsimp only [vfsClose]
    split <;> exact ⟨rfl, fun _ => rfl⟩
  | read fd count =>
    rcases vfsRead_cases d m fd count with
      ⟨r, heq, -⟩ | ⟨i, hfile, heq⟩
    · exact ⟨m, vfsStep_of_call ⟨d, c, .read fd count⟩ heq, rfl, fun _ => rfl⟩
    · obtain ⟨bs, hbs⟩ := readNode_some (hin i hfile)
      rw [hbs] at heq
      exact ⟨_, vfsStep_of_call ⟨d, c, .read fd count⟩ heq, rfl, fun _ => rfl⟩
  | write fd buf =>
    rcases vfsWrite_cases d buf hin with ⟨r, heq, -⟩ | ⟨i, -, -, heq⟩
    · exact ⟨m, vfsStep_of_call ⟨d, c, .write fd buf⟩ heq, rfl, fun _ => rfl⟩
    · exact ⟨_, vfsStep_of_call ⟨d, c, .write fd buf⟩ heq, rfl, hset _ _ rfl⟩
  | lseek fd offset whence =>
    rcases vfsLseek_cases d m fd offset whence with ⟨r, heq, -⟩ | ⟨i, off, -, heq⟩
    · exact ⟨m, vfsStep_of_call ⟨d, c, .lseek fd offset whence⟩ (congrArg some heq), rfl,
        fun _ => rfl⟩
    · exact ⟨_, vfsStep_of_call ⟨d, c, .lseek fd offset whence⟩ (congrArg some heq), rfl,
        fun _ => rfl⟩
  | readAt fd count offset =>
    rcases vfsReadAt_cases d m fd offset count with
      ⟨r, heq, -⟩ | ⟨i, hfile, heq⟩
    · exact ⟨m, vfsStep_of_call ⟨d, c, .readAt fd count offset⟩ heq, rfl, fun _ => rfl⟩
    · obtain ⟨bs, hbs⟩ := readNode_some (hin i hfile)
      rw [hbs] at heq
      exact ⟨m, vfsStep_of_call ⟨d, c, .readAt fd count offset⟩ heq, rfl, fun _ => rfl⟩
  | writeAt fd buf offset =>
    rcases vfsWriteAt_cases d buf hin with ⟨r, heq, -⟩ | ⟨i, -, -, heq⟩
    · exact ⟨m, vfsStep_of_call ⟨d, c, .writeAt fd buf offset⟩ heq, rfl, fun _ => rfl⟩
    · exact ⟨_, vfsStep_of_call ⟨d, c, .writeAt fd buf offset⟩ heq, rfl, hset _ _ rfl⟩

/-- **One step keeps the tree.** -/
theorem vfsStep_tree {s : VfsStep} (h : MemfsTree m) (hok : treeAllowed m s) :
    ∃ m', vfsStep m s = some m' ∧ MemfsTree m' := by
  obtain ⟨hsafe, hin⟩ := hok
  by_cases hcall : s.call.editsTree
  · obtain ⟨d, c, call⟩ := s
    cases call with
    | «open» path flags => exact ⟨_, rfl, vfsOpen_tree h hsafe⟩
    | mkdir path mode => exact ⟨_, rfl, vfsMkdir_tree h hsafe⟩
    | unlink path => exact ⟨_, rfl, vfsUnlink_tree h path⟩
    | rmdir path => exact ⟨_, rfl, vfsRmdir_tree h path⟩
    | rename oldpath newpath => exact ⟨_, rfl, vfsRename_tree h hsafe⟩
    | _ => exact absurd hcall (by simp [VfsCall.editsTree])
  · obtain ⟨m', hm', hnum, hshape⟩ := vfsStep_shape (by simpa using hcall) hin
    exact ⟨m', hm', h.congr hnum hshape⟩

end

/-- **The memfs tree holds in every state that a run of allowed steps reaches.** -/
theorem memfs_tree_run (steps : List VfsStep)
    (hok : Run.AllowedOption vfsStep treeAllowed vfsInit steps) :
    ∃ m, Run.runOption vfsStep vfsInit steps = some m ∧ MemfsTree m :=
  Run.inv_runOption (fun _ _ h hs => vfsStep_tree h hs) steps vfsInit vfsInit_tree hok

-- ---------------------------------------------------------------------------
-- A run that breaks the tree
-- ---------------------------------------------------------------------------

/-- Drivers without a mount and without any file. -/
def noDrivers : Drivers where
  mounts := []
  fdReply := ⟨-1, []⟩
  procfsOpen _ := -1
  devfsOpen _ := -1
  tmpfsOpen _ _ := -1
  tmpfsStat _ := none
  tmpfsUnlink _ := -1
  tmpfsTruncate _ _ := -1
  fat32Mounted := false
  fat32ShimOpen _ := -1
  fat32Stat _ := none
  fat32Unlink _ := -1
  ext2Mounted := false
  ext2Writable := false
  ext2OpenFile _ := -1
  ext2Create _ := -1
  ext2Stat _ := none
  ext2Mkdir _ _ := 0#32
  ext2Unlink _ := 0
  ext2Chmod _ _ := -1
  ext2Rename _ _ := -1

/-- A process that is not in a `chroot`. -/
def rootCaller : Caller := ⟨[slash], 0#32, 0#32⟩

def bareStep (call : VfsCall) : VfsStep := ⟨noDrivers, rootCaller, call⟩

/-- The operations that the tree invariant is about. -/
def VfsCall.namesOrWrites : VfsCall → Bool
  | .open .. | .mkdir .. | .unlink .. | .rmdir .. | .rename .. | .truncate .. | .write ..
  | .writeAt .. => true
  | _ => false

/-- `mkdir /d`, `open /d/a` with `O_CREAT`, and `rename` of that to `/b`. -/
def moveRun : List VfsStep :=
  [bareStep (.mkdir [47, 100] 0#32), bareStep (.open [47, 100, 47, 97] oCreat),
    bareStep (.rename [47, 100, 47, 97] [47, 98])]

theorem memfs_tree_run_move :
    ∃ m, Run.runOption vfsStep vfsInit moveRun = some m ∧ MemfsTree m := by
  refine memfs_tree_run moveRun ⟨⟨?_, trivial⟩, fun m₁ h₁ => ⟨⟨?_, trivial⟩, fun m₂ h₂ =>
    ⟨⟨?_, trivial⟩, fun _ _ => trivial⟩⟩⟩
  · intro parent slot name hmk
    have hsplit : some (rootIdx, [100]) = some (parent, name) := hmk.split
    obtain ⟨rfl, rfl⟩ := Prod.mk.inj (Option.some.inj hsplit)
    decide
  · obtain rfl := Option.some.inj h₁
    intro parent slot name hcr
    have hsplit : some ((⟨1, by decide⟩ : Fin maxFiles), [97]) = some (parent, name) := hcr.split
    obtain ⟨rfl, rfl⟩ := Prod.mk.inj (Option.some.inj hsplit)
    decide
  · obtain rfl := Option.some.inj h₁
    obtain rfl := Option.some.inj h₂
    intro old new parent name hmv
    have hsplit : some (rootIdx, [98]) = some (parent, name) := hmv.split
    obtain ⟨rfl, rfl⟩ := Prod.mk.inj (Option.some.inj hsplit)
    have hold : some (⟨2, by decide⟩ : Fin maxFiles) = some old := hmv.resolved
    obtain rfl := Option.some.inj hold
    have hnew : none = new := hmv.target
    subst hnew
    refine ⟨?_, by simp, by simp, by decide⟩
    intro hbelow
    cases hbelow with
    | @child _ q _ _ hb =>
      clear hb
      revert q
      decide

/-- **The tree is lost when a file is created below a file:** `vfs_open` takes `/a` for
the parent of `/a/b`, and the node hangs nowhere. -/
theorem open_below_a_file :
    ¬ ∀ (steps : List VfsStep) (m : Memfs), (∀ s ∈ steps, s.call.namesOrWrites) →
      Run.runOption vfsStep vfsInit steps = some m → MemfsTree m := by
  intro h
  have htree := h [bareStep (.open [47, 97] oCreat), bareStep (.open [47, 97, 47, 98] oCreat)] _
    (by decide) rfl
  exact absurd (htree.dirs ⟨2, by decide⟩ ⟨1, by decide⟩ (by decide) (by decide)) (by decide)

end Lestra
