import Lestra.Fs.Jail
import Lestra.Fs.TreeRuns
import Lestra.Syscall.Paths

/-!
# chroot

`sys_chroot` of `kernel/syscall/syscall.c`, and what a process can reach after it: over
every run of operations on paths, `sys_chdir` and further `sys_chroot` calls it keeps to the
subtree it named (`chroot_confines`), under what these calls do not check themselves.
`chroot_escape` leaves the subtree with one `vfs_open`.
-/

namespace Lestra

open ParentTree

/-- `current` as the file system sees it. -/
def callerOf (p : Process) : Caller := ⟨p.root, BitVec.ofInt 32 p.uid, BitVec.ofInt 32 p.gid⟩

/-- `strncpy` into `root` and `cwd`. -/
def storedRoot (kpath : Path) : Path := kpath.take (maxPathLen - 1)

def sysChroot (v : Vfs) (p : Process) (mem : BitVec 64 → UInt8) (path : BitVec 64) :
    Process × Int :=
  match copyPath mem path with
  | .error e => (p, e)
  | .ok kpath =>
    if !v.isDirectory p.root kpath then (p, errNoEntry)
    -- the string is relative to the current root, but is stored as it is
    else ({ p with root := storedRoot kpath, cwd := storedRoot kpath }, 0)

-- ---------------------------------------------------------------------------
-- A process and the file system
-- ---------------------------------------------------------------------------

/-- The operations of the process. -/
inductive JailCall where
  | open (path : Path) (flags : BitVec 32)
  | stat (path : Path)
  | mkdir (path : Path) (mode : BitVec 32)
  | unlink (path : Path)
  | rmdir (path : Path)
  | rename (oldpath newpath : Path)
  | chdir (mem : BitVec 64 → UInt8) (path : BitVec 64)
  | chroot (mem : BitVec 64 → UInt8) (path : BitVec 64)

structure JailStep where
  drivers : Drivers
  call : JailCall

/-- The process, memfs, and the nodes of the subtree that the process has named, with
those created in it since. -/
structure Jail where
  proc : Process
  fs : Memfs
  inside : Fin maxFiles → Prop

def jailProc (j : Jail) (s : JailStep) : Process :=
  match s.call with
  | .chdir mem path => (sysChdir (s.drivers.vfs j.fs.files) j.proc mem path).1
  | .chroot mem path => (sysChroot (s.drivers.vfs j.fs.files) j.proc mem path).1
  | _ => j.proc

def jailFs (j : Jail) (s : JailStep) : Memfs :=
  let c := callerOf j.proc
  match s.call with
  | .open path flags => (vfsOpen s.drivers c j.fs path flags).1
  | .mkdir path mode => (vfsMkdir s.drivers c j.fs path mode).1
  | .unlink path => (vfsUnlink s.drivers c j.fs path).1
  | .rmdir path => (vfsRmdir s.drivers c j.fs path).1
  | .rename oldpath newpath => (vfsRename s.drivers c j.fs oldpath newpath).1
  | .stat _ | .chdir .. | .chroot .. => j.fs

/-- A node joins the subtree when it is created below a node of it. -/
def grown (S : Fin maxFiles → Prop) (m m' : Memfs) (i : Fin maxFiles) : Prop :=
  S i ∨ ¬ isLive m.files i ∧ isLive m'.files i ∧ ∃ p, S p ∧ parentOf m'.files i = some p

def jailStep (j : Jail) (s : JailStep) : Jail where
  proc := jailProc j s
  fs := jailFs j s
  inside := grown j.inside j.fs (jailFs j s)

/-- The paths that a call looks up. -/
def lookups (p : Process) : JailCall → List Path
  | .open path _ | .stat path | .mkdir path _ | .unlink path | .rmdir path => [path]
  | .rename oldpath newpath => [oldpath, newpath]
  | .chdir mem path =>
    match copyPath mem path with
    | .error _ => []
    | .ok kpath => kpath :: (resolveAgainstCwd p.cwd kpath).toList
  | .chroot mem path =>
    match copyPath mem path with
    | .error _ => []
    | .ok kpath => [kpath]

/-- The call reports on node `i`. -/
def JailReads (j : Jail) (s : JailStep) (i : Fin maxFiles) : Prop :=
  ∃ path ∈ lookups j.proc s.call, memfsResolvePath j.fs.files j.proc.root path = some i

/-- The call creates, changes or removes node `i`. -/
def JailChanges (j : Jail) (s : JailStep) (i : Fin maxFiles) : Prop :=
  (jailFs j s).files i ≠ j.fs.files i ∨ (jailFs j s).offsets i ≠ j.fs.offsets i ∨
    (jailFs j s).flags i ≠ j.fs.flags i

/-- The call reads, creates, changes and removes nothing outside the subtree. -/
def KeepsInside (j : Jail) (s : JailStep) : Prop :=
  (∀ i, JailReads j s i → j.inside i) ∧ ∀ i, JailChanges j s i → (jailStep j s).inside i

/-- What `sys_chroot` names, if that is a node of memfs. -/
def chrootDir (m : Memfs) (p : Process) (mem : BitVec 64 → UInt8) (path : BitVec 64) :
    Option (Fin maxFiles) :=
  match copyPath mem path with
  | .error _ => none
  | .ok kpath => memfsResolvePath m.files p.root kpath

/-- The subtree below `r`. -/
def subtree (files : MemFiles) (r : Option (Fin maxFiles)) (i : Fin maxFiles) : Prop :=
  ∃ d, r = some d ∧ Below (isLive files) (parentOf files) d i

-- ---------------------------------------------------------------------------
-- The condition
-- ---------------------------------------------------------------------------

/-- A stored root leads, from the root of memfs and by the components that the resolver
keeps of it, into the set or nowhere, and the resolver counts no fewer of them. -/
def leadsInside (S : Fin maxFiles → Prop) (files : MemFiles) (root : Path) : Prop :=
  (jailedRoot root → (rootComps root).length ≤ rootDepth root) ∧
    ∀ i, (rootComps root).foldlM (resolveComp files) rootIdx = some i → S i

/-- What the calls do not check, for a process that has named the subtree below `r`. -/
def jailAllowed (r : Option (Fin maxFiles)) (j : Jail) (s : JailStep) : Prop :=
  let c := callerOf j.proc
  match s.call with
  | .open path flags => ∀ parent slot name, Creates s.drivers c j.fs path flags parent slot name →
      jailedRoot j.proc.root → parentPath path ≠ [slash]
  | .mkdir path _ => ∀ parent slot name, Makes c j.fs path parent slot name →
      jailedRoot j.proc.root → parentPath path ≠ [slash]
  | .unlink path | .rmdir path => ∀ i, Removes c j.fs path i → r ≠ some i
  | .rename oldpath newpath => ∀ old new parent name,
      Moves c j.fs oldpath newpath old new parent name →
      r ≠ some old ∧ (∀ n, new = some n → r ≠ some n) ∧
        (jailedRoot j.proc.root → parentPath newpath ≠ [slash])
  | .chroot mem path => ∀ kpath, copyPath mem path = .ok kpath →
      (s.drivers.vfs j.fs.files).isDirectory j.proc.root kpath →
      leadsInside j.inside j.fs.files (storedRoot kpath)
  | .stat _ | .chdir .. => True

-- ---------------------------------------------------------------------------
-- Edits of memfs by a confined process
-- ---------------------------------------------------------------------------

section
variable {S : Fin maxFiles → Prop} {r : Option (Fin maxFiles)} {m m' : Memfs} {c : Caller}
  {d : Drivers} {path : Path}

/-- An edit inside the subtree that leaves its top in place. -/
structure JailEdit (S : Fin maxFiles → Prop) (r : Option (Fin maxFiles)) (m m' : Memfs) :
    Prop where
  within : Within (grown S m m') m.files m'.files
  joins : Joins S (grown S m m') m.files m'.files
  top : KeepsTop r m.files m'.files
  rest : ∀ i, ¬ grown S m m' i → m'.offsets i = m.offsets i ∧ m'.flags i = m.flags i

theorem grown_of_within (hw : Within S m.files m'.files) : grown S m m' = S := by
  funext i
  refine propext ⟨fun h => h.elim id fun ⟨hdead, hlive, _⟩ => ?_, .inl⟩
  by_contra hS
  rw [isLive, hw.frame i hS] at hlive
  exact hdead hlive

theorem JailEdit.of_within (hw : Within S m.files m'.files)
    (htop : KeepsTop r m.files m'.files)
    (hrest : ∀ i, ¬ S i → m'.offsets i = m.offsets i ∧ m'.flags i = m.flags i) :
    JailEdit S r m m' := by
  have hS := grown_of_within hw
  constructor
  · rwa [hS]
  · rw [hS]
    exact .refl _ _
  · exact htop
  · rwa [hS]

theorem JailEdit.refl (m : Memfs) : JailEdit S r m m :=
  .of_within (.refl _) (fun _ _ => ⟨rfl, rfl⟩) fun _ _ => ⟨rfl, rfl⟩

/-- A new node below a node of the subtree. -/
theorem JailEdit.add {parent slot : Fin maxFiles} {name : List UInt8} {isDir : Bool}
    {mode : BitVec 32} (hparent : S parent) (hslot : (m.files slot).live = false)
    (htop : ∀ i, r = some i → isLive m.files i)
    (hfiles : m'.files = addNode c name isDir mode parent slot m.files)
    (hrest : ∀ i, i ≠ slot → m'.offsets i = m.offsets i ∧ m'.flags i = m.flags i) :
    JailEdit S r m m' := by
  set files := setNode m.files slot (newNode c name isDir mode parent) with hset
  have hadd : m'.files = (memfsAddChild files parent slot).getD files := hfiles
  have hnode : ∀ {β : Type} (g : MemFile → β), (∀ f cs, g { f with children := cs } = g f) →
      ∀ i, g (m'.files i) = g (files i) := by
    intro β g hg i
    rw [hadd]
    unfold memfsAddChild
    split_ifs
    · rfl
    · rfl
    · rfl
    · rw [Option.getD_some]
      refine setNode_field g files parent i ?_
      exact hg _ _
  have hlive : isLive m'.files slot := by
    rw [isLive, hnode (fun f => f.live) (fun _ _ => rfl), hset, setNode_same]
    rfl
  have hpar : parentOf m'.files slot = some parent := by
    rw [parentOf, hnode (fun f => f.parentIdx) (fun _ _ => rfl), hset, setNode_same]
    exact fileIdx_natCast parent
  have hdead : ¬ isLive m.files slot := by simp [isLive, hslot]
  have hgrown : ∀ i, grown S m m' i ↔ S i ∨ i = slot := by
    intro i
    constructor
    · rintro (h | ⟨hd, hl, -⟩)
      · exact .inl h
      · by_cases hi : i = slot
        · exact .inr hi
        · rw [isLive, hnode (fun f => f.live) (fun _ _ => rfl), hset, setNode_ne _ _ hi] at hl
          exact absurd hl hd
    · rintro (h | rfl)
      · exact .inl h
      · exact .inr ⟨hdead, hlive, parent, hparent, hpar⟩
  have hwithin : Within (grown S m m') m.files m'.files := by
    rw [hadd]
    refine Within.trans ?_
      (within_addChild ((hgrown parent).mpr (.inl hparent)) ((hgrown slot).mpr (.inr rfl)))
    exact within_setNode ((hgrown slot).mpr (.inr rfl))
      (fun _ hj => absurd hj (List.not_mem_nil))
      (.inr ⟨parent, (hgrown parent).mpr (.inl hparent), fileIdx_natCast parent⟩)
  refine ⟨hwithin, ⟨fun i hi => .inl hi, fun i hi hS => ?_⟩, fun i hi => ?_, fun i hi => ?_⟩
  · obtain rfl := ((hgrown i).mp hi).resolve_left hS
    refine ⟨hdead, ?_, parent, hparent, hpar⟩
    have hne : i ≠ parent := fun he => hS (he ▸ hparent)
    rw [hadd]
    unfold memfsAddChild
    split_ifs
    · exact congrArg MemFile.children (setNode_same ..)
    · exact congrArg MemFile.children (setNode_same ..)
    · exact congrArg MemFile.children (setNode_same ..)
    · rw [Option.getD_some, setNode_ne _ _ hne]
      exact congrArg MemFile.children (setNode_same ..)
  · have hne : i ≠ slot := fun he => hdead (he ▸ htop i hi)
    rw [hnode (fun f => f.name) (fun _ _ => rfl), hnode (fun f => f.live) (fun _ _ => rfl), hset,
      setNode_ne _ _ hne]
    exact ⟨rfl, rfl⟩
  · exact hrest i fun he => hi ((hgrown i).mpr (.inr he))

theorem removeNode_top {i : Fin maxFiles} (h : r ≠ some i) :
    KeepsTop r m.files (removeNode m i).files := by
  intro j hj
  have hne : j ≠ i := fun he => h (he ▸ hj)
  rw [removeNode_ne m hne, detach_field MemFile.name (fun _ _ => rfl),
    detach_field MemFile.live (fun _ _ => rfl)]
  exact ⟨rfl, rfl⟩

theorem moveNode_top {m₁ : Memfs} {old parent : Fin maxFiles} {new : Option (Fin maxFiles)}
    {name : List UInt8} (h₁ : KeepsTop r m.files m₁.files) (hold : r ≠ some old)
    (hnew : ∀ n, new = some n → r ≠ some n) :
    KeepsTop r m.files (moveNode m m₁ old new parent name).1.files := by
  intro j hj
  have hjo : j ≠ old := fun he => hold (he ▸ hj)
  have hfield : ∀ {β : Type} (g : MemFile → β), (∀ f cs, g { f with children := cs } = g f) →
      g ((moveNode m m₁ old new parent name).1.files j) = g (m₁.files j) := by
    intro β g hg
    unfold moveNode
    dsimp only
    split
    · rename_i files hadd
      rw [addChild_field g hg hadd, setNode_ne _ _ hjo, detach_field g hg]
    · split
      · rw [reattach_field g hg, setNode_ne _ _ hjo, setNode_ne _ _ hjo, detach_field g hg]
      · rename_i n
        have hjn : j ≠ n := fun he => hnew n rfl (he ▸ hj)
        rw [reattach_field g hg, setNode_ne _ _ hjn, reattach_field g hg, setNode_ne _ _ hjo,
          setNode_ne _ _ hjo, detach_field g hg]
  rw [hfield MemFile.name fun _ _ => rfl, hfield MemFile.live fun _ _ => rfl]
  exact h₁ j hj

theorem moveNode_rest {m₁ : Memfs} {old parent : Fin maxFiles} {new : Option (Fin maxFiles)}
    {name : List UInt8} : (moveNode m m₁ old new parent name).1.offsets = m₁.offsets ∧
      (moveNode m m₁ old new parent name).1.flags = m₁.flags := by
  unfold moveNode
  dsimp only
  split
  · exact ⟨rfl, rfl⟩
  · split <;> exact ⟨rfl, rfl⟩

end

-- ---------------------------------------------------------------------------
-- One step of a confined process
-- ---------------------------------------------------------------------------

section
variable {r : Option (Fin maxFiles)} {j : Jail} {s : JailStep}

/-- The process is confined to the subtree. -/
def JailInv (r : Option (Fin maxFiles)) (j : Jail) : Prop :=
  Confines j.inside r j.fs.files j.proc.root

theorem jailStep_edit (h : JailInv r j) (hok : jailAllowed r j s) :
    JailEdit j.inside r j.fs (jailFs j s) := by
  obtain ⟨d, call⟩ := s
  have hlive : ∀ i, r = some i → isLive j.fs.files i := fun i hi => (h.top i hi).2
  have hroot : (callerOf j.proc).root = j.proc.root := rfl
  cases call with
  | stat path => exact .refl _
  | chdir mem path => exact .refl _
  | chroot mem path => exact .refl _
  | «open» path flags =>
    change JailEdit j.inside r j.fs (vfsOpen d (callerOf j.proc) j.fs path flags).1
    rcases vfsOpen_cases d (callerOf j.proc) j.fs path flags with
      heq | ⟨i, -, hres, heq⟩ | ⟨parent, slot, name, hcr, heq⟩
    · rw [heq]
      exact .refl _
    · have hi : j.inside i := h.resolve hres
      rw [heq]
      refine .of_within ?_ (fun k _ => ?_) fun k hk => ?_
      · dsimp only [openNode]
        split
        · exact within_setNode_field hi rfl rfl
        · exact .refl _
      · dsimp only [openNode]
        split
        · rw [setNode_field MemFile.name _ _ _ rfl, setNode_field MemFile.live _ _ _ rfl]
          exact ⟨rfl, rfl⟩
        · exact ⟨rfl, rfl⟩
      · have hne : k ≠ i := fun he => hk (he ▸ hi)
        exact ⟨Function.update_of_ne hne .., Function.update_of_ne hne ..⟩
    · rw [heq]
      exact .add (h.split hcr.split (hok parent slot name hcr)) (memfsAllocSlot_dead hcr.slot)
        hlive rfl fun i hi => ⟨Function.update_of_ne hi .., Function.update_of_ne hi ..⟩
  | mkdir path mode =>
    change JailEdit j.inside r j.fs (vfsMkdir d (callerOf j.proc) j.fs path mode).1
    rcases vfsMkdir_cases d (callerOf j.proc) j.fs path mode with
      heq | ⟨parent, slot, name, hmk, heq⟩
    · rw [heq]
      exact .refl _
    · rw [heq]
      exact .add (h.split hmk.split (hok parent slot name hmk)) (memfsAllocSlot_dead hmk.slot)
        hlive rfl fun _ _ => ⟨rfl, rfl⟩
  | unlink path =>
    change JailEdit j.inside r j.fs (vfsUnlink d (callerOf j.proc) j.fs path).1
    rcases vfsUnlink_cases d (callerOf j.proc) j.fs path with heq | ⟨i, hrm, heq⟩
    · rw [heq]
      exact .refl _
    · have hi : j.inside i := h.resolve hrm.resolved
      rw [heq]
      exact .of_within (within_removeNode hi (h.parents i hi (hok i hrm)))
        (removeNode_top (hok i hrm)) fun _ _ => ⟨rfl, rfl⟩
  | rmdir path =>
    change JailEdit j.inside r j.fs (vfsRmdir d (callerOf j.proc) j.fs path).1
    rcases vfsRmdir_cases d (callerOf j.proc) j.fs path with heq | ⟨i, hrm, heq⟩
    · rw [heq]
      exact .refl _
    · have hi : j.inside i := h.resolve hrm.resolved
      rw [heq]
      exact .of_within (within_removeNode hi (h.parents i hi (hok i hrm)))
        (removeNode_top (hok i hrm)) fun _ _ => ⟨rfl, rfl⟩
  | rename oldpath newpath =>
    change JailEdit j.inside r j.fs (vfsRename d (callerOf j.proc) j.fs oldpath newpath).1
    rcases vfsRename_cases d (callerOf j.proc) j.fs oldpath newpath with
      heq | ⟨old, new, parent, name, hmv, heq⟩
    · rw [heq]
      exact .refl _
    · obtain ⟨hold, hnew, hslash⟩ := hok old new parent name hmv
      have hio : j.inside old := h.resolve hmv.resolved
      have hin : ∀ n, new = some n → j.inside n ∧
          ∀ p, parentOf j.fs.files n = some p → j.inside p := fun n hn =>
        have hi : j.inside n := h.resolve (hmv.target.trans hn)
        ⟨hi, h.parents n hi (hnew n hn)⟩
      rw [heq]
      refine .of_within (within_moveNode (within_clearTarget hin) hio
        (h.split hmv.split hslash) (h.parents old hio hold) h.closed hin)
        (moveNode_top ?_ hold hnew) fun i _ => ?_
      · cases new with
        | none => exact fun _ _ => ⟨rfl, rfl⟩
        | some n => exact removeNode_top (hnew n rfl)
      · rw [moveNode_rest.1, moveNode_rest.2]
        cases new <;> exact ⟨rfl, rfl⟩

/-- A call that is not `sys_chroot` leaves the root of the process. -/
theorem jailProc_root (h : ∀ mem path, s.call ≠ .chroot mem path) :
    (jailProc j s).root = j.proc.root := by
  obtain ⟨d, call⟩ := s
  cases call with
  | chroot mem path => exact absurd rfl (h mem path)
  | chdir mem path =>
    dsimp only [jailProc, sysChdir]
    split
    · rfl
    · split_ifs
      · rfl
      · split
        · rfl
        · split_ifs <;> rfl
      · rfl
      · rfl
      · rfl
  | _ => rfl

/-- **A step keeps the process confined and touches nothing outside.** -/
theorem jailStep_inside (h : JailInv r j) (hok : jailAllowed r j s) :
    JailInv r (jailStep j s) ∧ KeepsInside j s := by
  have hedit := jailStep_edit h hok
  have hstep : Confines (grown j.inside j.fs (jailFs j s)) r (jailFs j s).files j.proc.root :=
    Confines.step h hedit.within hedit.joins hedit.top
  refine ⟨?_, ?_, ?_⟩
  · by_cases hroot : ∀ mem path, s.call ≠ .chroot mem path
    · change Confines _ r _ (jailProc j s).root
      rwa [jailProc_root hroot]
    · push Not at hroot
      obtain ⟨mem, path, hcall⟩ := hroot
      obtain ⟨d, call⟩ := s
      obtain rfl : call = .chroot mem path := hcall
      have hS : grown j.inside j.fs (jailFs j ⟨d, .chroot mem path⟩) = j.inside :=
        grown_of_within (.refl _)
      change Confines (grown _ _ _) r j.fs.files
        (sysChroot (d.vfs j.fs.files) j.proc mem path).1.root
      rw [hS]
      unfold sysChroot
      cases hcopy : copyPath mem path with
      | error e => exact h
      | ok kpath =>
        dsimp only
        split
        · exact h
        · rename_i hdir
          have hlead := hok kpath hcopy (by simpa using hdir)
          exact { h with depth := hlead.1, leads := hlead.2 }
  · rintro i ⟨path, -, hres⟩
    exact h.resolve hres
  · intro i hi
    by_contra hout
    rcases hi with hi | hi | hi
    · exact hi (hedit.within.frame i hout)
    · exact hi (hedit.rest i hout).1
    · exact hi (hedit.rest i hout).2

end

-- ---------------------------------------------------------------------------
-- Runs after sys_chroot
-- ---------------------------------------------------------------------------

theorem confines_subtree {m : Memfs} {r : Option (Fin maxFiles)} {root : Path}
    (hm : MemfsTree m) (hr : ∀ d, r = some d → isLive m.files d)
    (hlead : leadsInside (subtree m.files r) m.files root) :
    Confines (subtree m.files r) r m.files root where
  closed := by
    rintro p ⟨d, hd, hp⟩ i hi
    obtain ⟨hlive, hpar⟩ := (hm.mem_children hp.live_self).mp hi
    exact ⟨d, hd, .child hlive hpar hp⟩
  parents := by
    rintro i ⟨d, hd, hi⟩ hne p hp
    cases hi with
    | self _ => exact absurd hd hne
    | child _ hq hb =>
      rw [hp] at hq
      exact ⟨d, hd, Option.some.inj hq ▸ hb⟩
  outside := by
    rintro k hk hlive i hi
    obtain ⟨hil, hip⟩ := (hm.mem_children hlive).mp hi
    refine ⟨hil, fun ⟨d, hd, hb⟩ => ?_⟩
    cases hb with
    | self _ => exact hd
    | child _ hq hb' =>
      rw [hip] at hq
      exact absurd ⟨d, hd, Option.some.inj hq ▸ hb'⟩ hk
  top d hd := ⟨⟨d, hd, .self (hr d hd)⟩, hr d hd⟩
  root_live := hm.rooted.root_live
  root_inside := by
    rintro ⟨d, hd, hb⟩
    cases hb with
    | self _ => exact hd
    | child _ hq _ =>
      rw [hm.rooted.root_parent] at hq
      exact absurd hq (by simp)
  depth := hlead.1
  leads := hlead.2

/-- The state after `sys_chroot`. -/
def jailAfter (d : Drivers) (m : Memfs) (p : Process) (mem : BitVec 64 → UInt8)
    (path : BitVec 64) : Jail where
  proc := (sysChroot (d.vfs m.files) p mem path).1
  fs := m
  inside := subtree m.files (chrootDir m p mem path)

/-- **A process that has called `sys_chroot` stays in the subtree it named.** -/
theorem chroot_confines {d : Drivers} {m : Memfs} {p : Process} {mem : BitVec 64 → UInt8}
    {path : BitVec 64} (hm : MemfsTree m) (hcall : (sysChroot (d.vfs m.files) p mem path).2 = 0)
    (hlead : ∀ kpath, copyPath mem path = .ok kpath →
      leadsInside (subtree m.files (chrootDir m p mem path)) m.files (storedRoot kpath))
    (steps : List JailStep)
    (hok : Run.Allowed jailStep (jailAllowed (chrootDir m p mem path)) (jailAfter d m p mem path)
      steps) :
    Run.Allowed jailStep KeepsInside (jailAfter d m p mem path) steps := by
  refine Run.allowed_of_inv (I := JailInv (chrootDir m p mem path))
    (fun _ _ h hs => jailStep_inside h hs) steps _ ?_ hok
  have hlive : ∀ k, chrootDir m p mem path = some k → isLive m.files k := by
    intro k hk
    unfold chrootDir at hk
    split at hk
    · exact absurd hk (by simp)
    · exact memfsResolvePath_live hm.rooted.root_live hk
  unfold sysChroot at hcall
  cases hcopy : copyPath mem path with
  | error e =>
    rw [hcopy] at hcall
    exact absurd (hcall : e = 0) (copyPath_error hcopy).ne
  | ok kpath =>
    rw [hcopy] at hcall
    have hdir : (d.vfs m.files).isDirectory p.root kpath := by
      by_contra hdir
      dsimp only at hcall
      rw [if_pos (by simpa using hdir)] at hcall
      exact absurd hcall (show errNoEntry ≠ 0 by decide)
    have hroot : (jailAfter d m p mem path).proc.root = storedRoot kpath := by
      simp only [jailAfter, sysChroot, hcopy, hdir]
      rfl
    unfold JailInv
    rw [hroot]
    exact confines_subtree hm hlive (hlead kpath hcopy)

/-- memfs with the directories `/j` and `/j/d`. -/
def twoDirs : Memfs :=
  (vfsMkdir noDrivers rootCaller
    (vfsMkdir noDrivers rootCaller vfsInit [47, 106] 0#32).1 [47, 106, 47, 100] 0#32).1

theorem twoDirs_tree : MemfsTree twoDirs := by
  refine vfsMkdir_tree (vfsMkdir_tree vfsInit_tree ?_) ?_
  · intro parent slot name hmk
    have hsplit : some (rootIdx, [106]) = some (parent, name) := hmk.split
    obtain ⟨rfl, rfl⟩ := Prod.mk.inj (Option.some.inj hsplit)
    decide
  · intro parent slot name hmk
    have hsplit : some ((⟨1, by decide⟩ : Fin maxFiles), [100]) = some (parent, name) := hmk.split
    obtain ⟨rfl, rfl⟩ := Prod.mk.inj (Option.some.inj hsplit)
    decide

/-- A process with the root of memfs. -/
def freeProc : Process :=
  { zeroProcess with pid := 1, state := .running, cwd := [47], root := [47] }

theorem chrootDir_twoDirs :
    chrootDir twoDirs freeProc (memWith [47, 106]) 0x400000#64 = some ⟨1, by decide⟩ := by
  decide

/-- In `/j`, a stat of `/d/../..` and the creation of `/d/f`. -/
theorem chroot_confines_twoDirs :
    Run.Allowed jailStep KeepsInside
      (jailAfter noDrivers twoDirs freeProc (memWith [47, 106]) 0x400000#64)
      [⟨noDrivers, .stat [47, 100, 47, 46, 46, 47, 46, 46]⟩,
        ⟨noDrivers, .open [47, 100, 47, 102] oCreat⟩] := by
  refine chroot_confines twoDirs_tree (by decide) ?_ _ ⟨trivial, ?_, trivial⟩
  · intro kpath hcopy
    have hk : copyPath (memWith [47, 106]) 0x400000#64 = .ok [47, 106] := by rfl
    rw [hk] at hcopy
    obtain rfl := Except.ok.inj hcopy
    rw [chrootDir_twoDirs]
    refine ⟨fun _ => by decide, fun i hi => ⟨i, ?_, .self ?_⟩⟩
    · rw [← hi]
      decide
    · have h1 : some (⟨1, by decide⟩ : Fin maxFiles) = some i := by
        rw [← hi]
        decide
      obtain rfl := Option.some.inj h1
      decide
  · intro parent slot name _ _
    decide

/-- **A process leaves its chroot with one `vfs_open`:** the parent `/` of a new file is
the root of memfs. -/
theorem chroot_escape :
    ¬ ∀ (d : Drivers) (m : Memfs) (p : Process) (mem : BitVec 64 → UInt8) (path : BitVec 64),
      MemfsTree m → (sysChroot (d.vfs m.files) p mem path).2 = 0 → ∀ steps : List JailStep,
      Run.Allowed jailStep KeepsInside (jailAfter d m p mem path) steps := by
  intro h
  obtain ⟨⟨-, hchanges⟩, -⟩ := h noDrivers twoDirs freeProc (memWith [47, 106]) 0x400000#64
    twoDirs_tree (by decide) [⟨noDrivers, .open [47, 120] oCreat⟩]
  have hin := hchanges rootIdx (.inl fun he => absurd (congrArg MemFile.children he)
    (by decide))
  have hlive : isLive twoDirs.files rootIdx := by decide
  rcases hin with ⟨k, hk, hbelow⟩ | ⟨hdead, -⟩
  · rw [chrootDir_twoDirs] at hk
    obtain rfl := Option.some.inj hk
    cases hbelow with
    | @child _ q _ hp hb =>
      exact absurd (hp.symm.trans (show parentOf twoDirs.files rootIdx = none by decide)) (by simp)
  · exact hdead hlive

end Lestra
