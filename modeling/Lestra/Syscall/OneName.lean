import Lestra.Syscall.Paths

/-!
# One name, one file

* `OneName` — every path system call hands the VFS the name that its string has in the
  current directory, or fails
* `ChdirNamesDir` — a `sys_chdir` that succeeds leaves the name of a directory
* `one_name_one_file` — exactly when they hold
-/

namespace Lestra

-- ---------------------------------------------------------------------------
-- The path a call acts on
-- ---------------------------------------------------------------------------

/-- A path system call, with its other arguments. -/
inductive PathCall where
  | open (flags : BitVec 32)
  | stat (st : BitVec 64)
  | mkdir (mode : BitVec 32)
  | rmdir
  | unlink
  | chmod (mode : BitVec 32)
  | truncate (length : Int)
  | chdir
  | execve (vecs : Except Int Unit)

/-- The path that a call on the string at `path` acts on, if it gets that far: that of its
request to the VFS, and for `chdir` the new directory. -/
def PathCall.actsOn (v : Vfs) (p : Process) (mem : BitVec 64 → UInt8) (path : BitVec 64) :
    PathCall → Option Path
  | .open flags => (sysOpen p mem path flags).toOption.map fun r => r.2.path
  | .stat st => (sysStat mem path st).toOption.map VfsRequest.path
  | .mkdir mode => (sysMkdir mem path mode).toOption.map VfsRequest.path
  | .rmdir => (sysRmdir mem path).toOption.map VfsRequest.path
  | .unlink => (sysUnlink mem path).toOption.map VfsRequest.path
  | .chmod mode => (sysChmod mem path mode).toOption.map VfsRequest.path
  | .truncate length => (sysTruncate p mem path length).toOption.map VfsRequest.path
  | .chdir =>
    if (sysChdir v p mem path).2 = 0 then some (sysChdir v p mem path).1.cwd else none
  | .execve vecs => (sysExecve mem path vecs).toOption.map VfsRequest.path

/-- The absolute name of what `s` names in directory `cwd`. -/
def absName (cwd s : Path) : Option Path :=
  if s.Absolute then some s
  else if cwd.Absolute then some (joinCwd cwd (stripDot s))
  else none

/-- Every call acts on what `s` names, and none acts when `s` does not fit its buffer. -/
structure OneName (v : Vfs) (p : Process) (mem : BitVec 64 → UInt8) (path : BitVec 64)
    (s : Path) : Prop where
  same : ∀ (call : PathCall) q, call.actsOn v p mem path = some q → absName p.cwd s = some q
  whole : maxPathLen ≤ s.length → ∀ call : PathCall, call.actsOn v p mem path = none

/-- After a successful `sys_chdir` the directory of the process exists. -/
def ChdirNamesDir (v : Vfs) (p : Process) (mem : BitVec 64 → UInt8) (path : BitVec 64) : Prop :=
  (sysChdir v p mem path).2 = 0 →
    v.isDirectory (sysChdir v p mem path).1.root (sysChdir v p mem path).1.cwd

/-- What `sys_chdir` is given, up to where it is cut, is a directory if it is absolute, and
stays one below `cwd` if it is not but passes for one. -/
structure DirGiven (v : Vfs) (p : Process) (k : Path) : Prop where
  absolute : k.Absolute → v.isDirectory p.root k
  relative : ¬ k.Absolute → k ≠ [] → v.isDirectory p.root k →
    (appendCwd p.cwd k).length < maxPathLen → v.isDirectory p.root (appendCwd p.cwd k)

-- ---------------------------------------------------------------------------
-- The copy
-- ---------------------------------------------------------------------------

section Copied

variable {v : Vfs} {p : Process} {mem : BitVec 64 → UInt8} {path : BitVec 64} {s : Path}

theorem accessOk_ne_zero {addr size : BitVec 64} (h : accessOk addr size = true) : addr ≠ 0#64 := by
  unfold accessOk at h
  simp only [decide_eq_true_eq] at h
  exact h.1

theorem copyPath_eq (hpath : accessOk path 1#64 = true) (hs : UserString mem path s) :
    copyPath mem path = if s = [] then .error errInvalid else .ok (s.take (maxPathLen - 1)) := by
  have hne := accessOk_ne_zero hpath
  unfold copyPath strncpyFromUser
  rw [if_neg (by simp [hne, hpath]), if_neg hne, strncpyLoop_userString hs]
  dsimp only
  cases s with
  | nil => rfl
  | cons c s =>
    rw [if_neg (by simp [maxPathLen]), if_neg (by simp)]

end Copied

-- ---------------------------------------------------------------------------
-- What a call did that acts
-- ---------------------------------------------------------------------------

theorem toOption_map_some {α β : Type} {e : Except Int α} {f : α → β} {b : β}
    (h : e.toOption.map f = some b) : ∃ a, e = .ok a ∧ f a = b := by
  cases e with
  | error _ => cases h
  | ok a => exact ⟨a, rfl, Option.some.inj h⟩

theorem except_bind_ok {α β : Type} {e : Except Int α} {f : α → Except Int β} {b : β}
    (h : (e >>= f) = .ok b) : ∃ a, e = .ok a ∧ f a = .ok b := by
  cases e with
  | error _ => cases h
  | ok a => exact ⟨a, rfl, h⟩

theorem except_map_ok {α β : Type} {e : Except Int α} {f : α → β} {b : β}
    (h : e.map f = .ok b) : ∃ a, e = .ok a ∧ f a = b := by
  cases e with
  | error _ => cases h
  | ok a => exact ⟨a, rfl, Except.ok.inj h⟩

section Acts

variable {v : Vfs} {p : Process} {mem : BitVec 64 → UInt8} {path : BitVec 64} {s k q : Path}

/-- The calls that hand over the copied path. -/
theorem actsOn_copied {f : Path → VfsRequest} (hf : ∀ k, (f k).path = k)
    (h : ((copyPath mem path).map f).toOption.map VfsRequest.path = some q) :
    copyPath mem path = .ok q := by
  obtain ⟨r, hr, hq⟩ := toOption_map_some h
  obtain ⟨k, hk, rfl⟩ := except_map_ok hr
  rw [hk, ← hq, hf]

theorem effectivePath_absolute (hk : k.Absolute) : effectivePath p.cwd k = .ok k := by
  unfold effectivePath resolveAgainstCwd
  rw [if_pos hk]
  dsimp only
  rw [if_neg (not_not.mpr hk)]

theorem sysChdir_of_error {e : Int} (h : copyPath mem path = .error e) :
    sysChdir v p mem path = (p, e) := by
  unfold sysChdir
  rw [h]

theorem sysChdir_of_absolute (h : copyPath mem path = .ok k) (hk : k.Absolute)
    (hlen : k.length < maxPathLen) : sysChdir v p mem path = (setCwd p k, 0) := by
  unfold sysChdir
  rw [h]
  dsimp only
  rw [if_neg (by omega), if_neg (fun hr => hr.2 hk), if_neg (not_not.mpr hk)]

/-- Before it acts, a call copies the path, and an absolute path it takes as it is. -/
theorem actsOn_some {call : PathCall} (h : call.actsOn v p mem path = some q) :
    ∃ k, copyPath mem path = .ok k ∧ (k.Absolute → k.length < maxPathLen → q = k) := by
  cases call with
  | «open» flags =>
    obtain ⟨r, hr, hq⟩ := toOption_map_some h
    obtain ⟨k, hk, hr⟩ := except_bind_ok hr
    obtain ⟨kpath, he, hr⟩ := except_bind_ok hr
    refine ⟨k, hk, fun ha _ => ?_⟩
    rw [effectivePath_absolute ha] at he
    rw [Except.ok.inj he]
    split at hr
    · cases hr
    · rw [← hq, ← Except.ok.inj hr]
      rfl
  | truncate length =>
    obtain ⟨r, hr, hq⟩ := toOption_map_some h
    obtain ⟨k, hk, hr⟩ := except_bind_ok hr
    refine ⟨k, hk, fun ha _ => ?_⟩
    split at hr
    · cases hr
    · obtain ⟨eff, he, hr⟩ := except_bind_ok hr
      rw [effectivePath_absolute ha] at he
      rw [Except.ok.inj he, ← hq, ← Except.ok.inj hr]
      rfl
  | stat st =>
    have h : (sysStat mem path st).toOption.map VfsRequest.path = some q := h
    unfold sysStat at h
    split at h
    · cases h
    · exact ⟨q, actsOn_copied (fun _ => rfl) h, fun _ _ => rfl⟩
  | mkdir mode => exact ⟨q, actsOn_copied (fun _ => rfl) h, fun _ _ => rfl⟩
  | rmdir => exact ⟨q, actsOn_copied (fun _ => rfl) h, fun _ _ => rfl⟩
  | unlink => exact ⟨q, actsOn_copied (fun _ => rfl) h, fun _ _ => rfl⟩
  | chmod mode => exact ⟨q, actsOn_copied (fun _ => rfl) h, fun _ _ => rfl⟩
  | execve vecs =>
    obtain ⟨r, hr, hq⟩ := toOption_map_some h
    obtain ⟨k, hk, hr⟩ := except_bind_ok hr
    obtain ⟨_, _, hr⟩ := except_bind_ok hr
    refine ⟨k, hk, fun _ _ => ?_⟩
    rw [← hq, ← Except.ok.inj hr]
    rfl
  | chdir =>
    have h : (if (sysChdir v p mem path).2 = 0 then some (sysChdir v p mem path).1.cwd else none) =
      some q := h
    cases hk : copyPath mem path with
    | error e =>
      have he := copyPath_error hk
      rw [sysChdir_of_error hk, if_neg (by omega)] at h
      cases h
    | ok k =>
      refine ⟨k, rfl, fun ha hlen => ?_⟩
      rw [sysChdir_of_absolute hk ha hlen, if_pos rfl] at h
      rw [← Option.some.inj h]
      exact List.take_of_length_le (by unfold maxPathLen at hlen ⊢; omega)

-- ---------------------------------------------------------------------------
-- Agreement
-- ---------------------------------------------------------------------------

theorem joinCwd_absolute {cwd : Path} (h : cwd.Absolute) : (joinCwd cwd q).Absolute := by
  unfold Path.Absolute joinCwd at *
  cases cwd with
  | nil => cases h
  | cons c cwd => exact h

theorem joinCwd_length (cwd : Path) : (joinCwd cwd q).length ≤ cwd.length + 1 + q.length := by
  unfold joinCwd
  rw [List.length_append, List.length_append]
  split
  · simp
  · simp

/-- The name of `s` is absolute. -/
theorem absName_absolute {cwd : Path} (h : absName cwd s = some q) : q.Absolute := by
  unfold absName at h
  split at h
  case isTrue hs => rwa [← Option.some.inj h]
  case isFalse =>
    split at h
    case isTrue hcwd =>
      rw [← Option.some.inj h]
      exact joinCwd_absolute hcwd
    case isFalse => cases h

theorem oneName_iff (hpath : accessOk path 1#64 = true) (hs : UserString mem path s) :
    OneName v p mem path s ↔ s.length < maxPathLen ∧ (s = [] ∨ s.Absolute) := by
  have hcopy := copyPath_eq hpath hs
  constructor
  · intro h
    by_cases h0 : s = []
    · rw [h0]
      exact ⟨by decide, .inl rfl⟩
    · rw [if_neg h0] at hcopy
      have hmkdir : (PathCall.mkdir 0#32).actsOn v p mem path = some (s.take (maxPathLen - 1)) := by
        show ((copyPath mem path).map _).toOption.map VfsRequest.path = _
        rw [hcopy]
        rfl
      have hlen : s.length < maxPathLen := by
        by_contra hlong
        rw [h.whole (by omega)] at hmkdir
        cases hmkdir
      have hname := absName_absolute (h.same _ _ hmkdir)
      rw [List.take_of_length_le (by omega)] at hname
      exact ⟨hlen, .inr hname⟩
  · rintro ⟨hlen, hs'⟩
    refine ⟨fun call q hq => ?_, fun hlong => by omega⟩
    obtain ⟨k, hk, hq⟩ := actsOn_some hq
    rw [hcopy] at hk
    split at hk
    · cases hk
    case isFalse h0 =>
      have habs := hs'.resolve_left h0
      have hks : k = s := by
        rw [← Except.ok.inj hk]
        exact List.take_of_length_le (by omega)
      rw [hks] at hq
      rw [hq habs hlen, absName, if_pos habs]

-- ---------------------------------------------------------------------------
-- The new directory
-- ---------------------------------------------------------------------------

theorem setCwd_cwd (hq : q.length < maxPathLen) : (setCwd p q).cwd = q :=
  List.take_of_length_le (by unfold maxPathLen at hq ⊢; omega)

/-- A relative path that is no directory is resolved, and then it has to be one. -/
theorem sysChdir_resolved (h : copyPath mem path = .ok k) (hk : ¬ k.Absolute)
    (hlen : k.length < maxPathLen) (hdir : v.isDirectory p.root k = false) :
    ChdirNamesDir v p mem path := by
  intro h0
  unfold sysChdir at h0 ⊢
  rw [h] at h0 ⊢
  dsimp only at h0 ⊢
  rw [if_neg (by omega), if_pos ⟨by rw [hdir]; rfl, hk⟩] at h0 ⊢
  cases hr : resolveAgainstCwd p.cwd k with
  | none =>
    rw [hr] at h0
    exact absurd h0 (show errNameTooLong ≠ 0 by decide)
  | some resolved =>
    have hfit : resolved.length < maxPathLen := by
      unfold resolveAgainstCwd at hr
      rw [if_neg hk] at hr
      split at hr
      · cases hr
      · rw [← Option.some.inj hr]
        have := joinCwd_length (q := stripDot k) p.cwd
        omega
    rw [hr] at h0
    dsimp only at h0 ⊢
    by_cases hd : v.isDirectory p.root resolved = true
    · rw [if_neg (by simp [hd])]
      dsimp only
      rw [setCwd_cwd hfit]
      exact hd
    · rw [if_pos (by simpa using hd)] at h0
      exact absurd h0 (show errNoEntry ≠ 0 by decide)

/-- A relative path that passes for a directory is appended without another look. -/
theorem sysChdir_appended (h : copyPath mem path = .ok k) (hk : ¬ k.Absolute)
    (hlen : k.length < maxPathLen) (hdir : v.isDirectory p.root k = true) :
    ChdirNamesDir v p mem path ↔ ((appendCwd p.cwd k).length < maxPathLen →
      v.isDirectory p.root (appendCwd p.cwd k)) := by
  have hcall : sysChdir v p mem path =
      if maxPathLen ≤ (appendCwd p.cwd k).length then (p, errNameTooLong)
      else (setCwd p (appendCwd p.cwd k), 0) := by
    unfold sysChdir
    rw [h]
    dsimp only
    rw [if_neg (by omega), if_neg (by simp [hdir]), if_pos hk]
  unfold ChdirNamesDir
  rw [hcall]
  by_cases hfit : (appendCwd p.cwd k).length < maxPathLen
  · rw [if_neg (by omega)]
    dsimp only
    rw [setCwd_cwd hfit]
    exact ⟨fun hd _ => hd rfl, fun hd _ => hd hfit⟩
  · rw [if_pos (by omega)]
    exact ⟨fun _ hf => absurd hf hfit, fun _ h0 =>
      absurd h0 (show errNameTooLong ≠ 0 by decide)⟩

theorem chdirNamesDir_iff (hpath : accessOk path 1#64 = true) (hs : UserString mem path s) :
    ChdirNamesDir v p mem path ↔ DirGiven v p (s.take (maxPathLen - 1)) := by
  have hcopy := copyPath_eq hpath hs
  have hlen : (s.take (maxPathLen - 1)).length < maxPathLen := by
    rw [List.length_take]
    unfold maxPathLen
    omega
  by_cases h0 : s = []
  · rw [if_pos h0] at hcopy
    rw [h0]
    constructor
    · exact fun _ => ⟨fun ha => (by cases ha), fun _ hne => absurd (List.take_nil) hne⟩
    · intro _ hrc
      rw [sysChdir_of_error hcopy] at hrc
      exact absurd hrc (show errInvalid ≠ 0 by decide)
  · rw [if_neg h0] at hcopy
    by_cases ha : Path.Absolute (s.take (maxPathLen - 1))
    · constructor
      · intro h
        refine ⟨fun _ => ?_, fun hr => absurd ha hr⟩
        have hd := h (by rw [sysChdir_of_absolute hcopy ha hlen])
        rw [sysChdir_of_absolute hcopy ha hlen, setCwd_cwd hlen] at hd
        exact hd
      · intro h _
        rw [sysChdir_of_absolute hcopy ha hlen, setCwd_cwd hlen]
        exact h.absolute ha
    · cases hdir : v.isDirectory p.root (s.take (maxPathLen - 1)) with
      | false =>
        refine ⟨fun _ => ⟨fun hr => absurd hr ha, fun _ _ hd => ?_⟩,
          fun _ => sysChdir_resolved hcopy ha hlen hdir⟩
        rw [hdir] at hd
        cases hd
      | true =>
        rw [sysChdir_appended hcopy ha hlen hdir]
        refine ⟨fun h => ⟨fun hr => absurd hr ha, fun _ _ _ hfit => h hfit⟩, fun h hfit => ?_⟩
        refine h.relative ha (fun hnil => h0 ?_) hdir hfit
        rcases List.take_eq_nil_iff.mp hnil with h | h
        · exact absurd h (by decide)
        · exact h

/-- **One name, one file.** The path system calls agree exactly on absolute names that fit
their buffer, and a `sys_chdir` leaves the name of a directory exactly when what it
is given names one. -/
theorem one_name_one_file (hpath : accessOk path 1#64 = true) (hs : UserString mem path s) :
    (OneName v p mem path s ↔ s.length < maxPathLen ∧ (s = [] ∨ s.Absolute)) ∧
      (ChdirNamesDir v p mem path ↔ DirGiven v p (s.take (maxPathLen - 1))) :=
  ⟨oneName_iff hpath hs, chdirNamesDir_iff hpath hs⟩

end Acts

-- ---------------------------------------------------------------------------
-- Names that go wrong
-- ---------------------------------------------------------------------------

/-- `/bin` with a file `sh`, and nothing else. -/
def binVfs : Vfs where
  files := fun i =>
    match i.val with
    | 0 => ⟨[slash], [], 0, true, 0o040755#32, 0, 0, true, -1, [1]⟩
    | 1 => ⟨[98, 105, 110], [], 0, true, 0o040755#32, 0, 0, true, 0, [2]⟩
    | 2 => ⟨[115, 104], [], 0, true, 0o100644#32, 0, 0, false, 1, []⟩
    | _ => ⟨[], [], 0, false, 0, 0, 0, false, 0, []⟩
  mounts := []
  tmpfsStat := fun _ => none
  fat32Mounted := false
  fat32Stat := fun _ => none
  ext2Mounted := false
  ext2Stat := fun _ => none

/-- A process whose directory is `/bin`. -/
def inBin : Process :=
  { zeroProcess with pid := 1, state := .running, cwd := [47, 98, 105, 110], root := [47] }

/-- On `/bin` all of this holds. -/
theorem one_name_one_file_bin :
    OneName binVfs inBin (memWith [47, 98, 105, 110]) 0x400000#64 [47, 98, 105, 110] ∧
      ChdirNamesDir binVfs inBin (memWith [47, 98, 105, 110]) 0x400000#64 := by
  have hs : UserString (memWith [47, 98, 105, 110]) 0x400000#64 [47, 98, 105, 110] := by
    simp [UserString, memWith]
  have h := one_name_one_file (v := binVfs) (p := inBin) (by decide) hs
  refine ⟨h.1.mpr ⟨by decide, .inr (by decide)⟩, h.2.mpr ⟨fun _ => by decide, fun ha => ?_⟩⟩
  exact absurd (by decide) ha

/-- `sh` is a file that `sys_open` finds in `/bin` and `sys_stat` does not, and `sys_chdir`
moves to `/no`, which does not exist. -/
theorem relative_name_two_files :
    ¬ OneName binVfs inBin (memWith [115, 104]) 0x400000#64 [115, 104] ∧
      ¬ ChdirNamesDir binVfs inBin (memWith [47, 110, 111]) 0x400000#64 := by
  constructor
  · intro h
    have hstat : (PathCall.stat 0x600000#64).actsOn binVfs inBin (memWith [115, 104])
        0x400000#64 = some [115, 104] := by decide
    exact absurd (h.same _ _ hstat) (by decide)
  · intro h
    have hrc : (sysChdir binVfs inBin (memWith [47, 110, 111]) 0x400000#64).2 = 0 := by
      decide
    exact absurd (h hrc) (by decide)

end Lestra
