import Lestra.Fs.Vfs
import Lestra.Syscall.Descriptors

/-!
# Path system calls

How the system calls of `kernel/syscall/syscall.c` that take a path copy it from user
memory and resolve it, up to the request to the VFS. What the VFS makes of the
request, and the error reported when it refuses, are not part of this state.
-/

namespace Lestra

def errNoEntry : Int := -2

def errNameTooLong : Int := -36

/-- A request to the VFS, by the path it is about. `exec` is `ldso_is_dynamic` and then the
loader, which all open this path. -/
inductive VfsRequest where
  | open (path : Path) (flags : BitVec 32)
  | stat (path : Path)
  | mkdir (path : Path) (mode : BitVec 32)
  | rmdir (path : Path)
  | unlink (path : Path)
  | chmod (path : Path) (mode : BitVec 32)
  | truncate (path : Path) (length : Int)
  | exec (path : Path)
deriving Repr

def VfsRequest.path : VfsRequest → Path
  | .open path _ | .stat path | .mkdir path _ | .rmdir path | .unlink path | .chmod path _
  | .truncate path _ | .exec path => path

-- ---------------------------------------------------------------------------
-- Copying and resolving a path
-- ---------------------------------------------------------------------------

/-- The checks and the copy at the start of every path system call. -/
def copyPath (mem : BitVec 64 → UInt8) (path : BitVec 64) : Except Int Path :=
  if path = 0#64 ∨ !accessOk path 1#64 then .error errBadAddress
  else
    match strncpyFromUser mem path maxPathLen with
    | .error _ => .error errBadAddress
    | .ok (kpath, rc) => if rc = 0 ∨ kpath = [] then .error errInvalid else .ok kpath

theorem copyPath_error {mem : BitVec 64 → UInt8} {path : BitVec 64} {e : Int}
    (h : copyPath mem path = .error e) : e < 0 := by
  unfold copyPath at h
  split at h
  · rw [← Except.error.inj h]
    decide
  · split at h
    · rw [← Except.error.inj h]
      decide
    · split at h
      · rw [← Except.error.inj h]
        decide
      · cases h

/-- User memory with the string `s` at `0x400000`. -/
def memWith (s : Path) (a : BitVec 64) : UInt8 := s.getD (a - 0x400000#64).toNat 0

/-- The path without a leading `./`. -/
def stripDot (p : Path) : Path :=
  if p = [dot] then [] else if p.take 2 = [dot, slash] then p.drop 2 else p

/-- `cwd` and `p`, with a slash between them. -/
def joinCwd (cwd p : Path) : Path :=
  cwd ++ (if cwd ≠ [] ∧ cwd.getLast? ≠ some slash then [slash] else []) ++ p

/-- `resolve_against_cwd` -/
def resolveAgainstCwd (cwd upath : Path) : Option Path :=
  if upath.Absolute then none
  else if maxPathLen ≤ cwd.length + 1 + (stripDot upath).length then none
  else some (joinCwd cwd (stripDot upath))

/-- The path that a call uses which resolves against `cwd`. -/
def effectivePath (cwd upath : Path) : Except Int Path :=
  match resolveAgainstCwd cwd upath with
  | some resolved => .ok resolved
  | none => if ¬ upath.Absolute then .error errNameTooLong else .ok upath

-- ---------------------------------------------------------------------------
-- Calls that resolve against cwd
-- ---------------------------------------------------------------------------

/-- `sys_open` of process `p`: the descriptor it fills, and the request. -/
def sysOpen (p : Process) (mem : BitVec 64 → UInt8) (path : BitVec 64) (flags : BitVec 32) :
    Except Int (Fin maxFdPerProc × VfsRequest) := do
  let upath ← copyPath mem path
  let kpath ← effectivePath p.cwd upath
  match lowestFree p.fds 3 with
  | none => .error errMfile
  | some fd => .ok (fd, .open kpath flags)

def sysTruncate (p : Process) (mem : BitVec 64 → UInt8) (path : BitVec 64) (length : Int) :
    Except Int VfsRequest := do
  let kpath ← copyPath mem path
  if length < 0 then .error errInvalid
  else
    let eff ← effectivePath p.cwd kpath
    .ok (.truncate eff length)

-- ---------------------------------------------------------------------------
-- Calls that use the copied path
-- ---------------------------------------------------------------------------

/-- `sizeof(struct stat)` -/
def statSize : BitVec 64 := 48#64

def sysStat (mem : BitVec 64 → UInt8) (path st : BitVec 64) : Except Int VfsRequest :=
  if st = 0#64 ∨ !accessOk st statSize then .error errBadAddress
  else (copyPath mem path).map .stat

def sysMkdir (mem : BitVec 64 → UInt8) (path : BitVec 64) (mode : BitVec 32) :
    Except Int VfsRequest :=
  (copyPath mem path).map fun kpath =>
    .mkdir kpath (if mode ≠ 0#32 then mode &&& 0o777#32 else 0o755#32)

def sysRmdir (mem : BitVec 64 → UInt8) (path : BitVec 64) : Except Int VfsRequest :=
  (copyPath mem path).map .rmdir

def sysUnlink (mem : BitVec 64 → UInt8) (path : BitVec 64) : Except Int VfsRequest :=
  (copyPath mem path).map .unlink

def sysChmod (mem : BitVec 64 → UInt8) (path : BitVec 64) (mode : BitVec 32) :
    Except Int VfsRequest :=
  (copyPath mem path).map fun kpath => .chmod kpath mode

/-- `sys_execve`, where `vecs` is what `copy_argvec_from_user` makes of `argv` and `envp`. -/
def sysExecve (mem : BitVec 64 → UInt8) (path : BitVec 64) (vecs : Except Int Unit) :
    Except Int VfsRequest := do
  let kpath ← copyPath mem path
  vecs
  .ok (.exec kpath)

-- ---------------------------------------------------------------------------
-- chdir
-- ---------------------------------------------------------------------------

/-- `strncpy(cur->cwd, path, sizeof(cur->cwd) - 1)` -/
def setCwd (p : Process) (path : Path) : Process := { p with cwd := path.take (maxPathLen - 1) }

/-- `tmp`, which `sys_chdir` prints for a relative path that is a directory as it is. -/
def appendCwd (cwd kpath : Path) : Path :=
  cwd ++ (if cwd.getLast? = some slash then [] else [slash]) ++ kpath

def sysChdir (v : Vfs) (p : Process) (mem : BitVec 64 → UInt8) (path : BitVec 64) :
    Process × Int :=
  match copyPath mem path with
  | .error e => (p, e)
  | .ok kpath =>
    if maxPathLen ≤ kpath.length then (p, errNameTooLong)
    else if !v.isDirectory p.root kpath ∧ ¬ kpath.Absolute then
      match resolveAgainstCwd p.cwd kpath with
      | none => (p, errNameTooLong)
      | some resolved =>
        if !v.isDirectory p.root resolved then (p, errNoEntry) else (setCwd p resolved, 0)
    else if ¬ kpath.Absolute then
      if maxPathLen ≤ (appendCwd p.cwd kpath).length then (p, errNameTooLong)
      else (setCwd p (appendCwd p.cwd kpath), 0)
    -- an absolute path is taken whether it is a directory or not
    else (setCwd p kpath, 0)

end Lestra
