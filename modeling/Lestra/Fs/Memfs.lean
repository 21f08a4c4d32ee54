import Mathlib.Algebra.Group.Nat.Defs
import Mathlib.Tactic.Common

/-!
# memfs

The in-memory file system of `kernel/fs/vfs.c`: its nodes and how it resolves a path,
with and without a `chroot`. A character array is the list of its characters before the
terminator, and `children` holds the first `num_children` entries of the source's array.
-/

namespace Lestra

def maxPathLen : Nat := 256

def maxNameLen : Nat := 64

def maxFiles : Nat := 64

/-- `'/'` -/
def slash : UInt8 := 47

/-- `'.'` -/
def dot : UInt8 := 46

abbrev Path := List UInt8

def Path.Absolute (p : Path) : Prop := p.head? = some slash

instance (p : Path) : Decidable p.Absolute := inferInstanceAs (Decidable (_ = _))

/-- `struct mem_file`; `live` is `exists`. -/
structure MemFile where
  name : List UInt8
  data : List UInt8
  size : Nat
  live : Bool
  mode : BitVec 32
  uid : BitVec 32
  gid : BitVec 32
  isDir : Bool
  parentIdx : Int
  children : List Int
deriving Inhabited

abbrev MemFiles := Fin maxFiles → MemFile

def rootIdx : Fin maxFiles := ⟨0, by decide⟩

/-- `idx >= 0 && idx < MAX_FILES`, with the index it makes valid. -/
def fileIdx (i : Int) : Option (Fin maxFiles) :=
  if h : 0 ≤ i ∧ i < maxFiles then some ⟨i.toNat, by omega⟩ else none

-- ---------------------------------------------------------------------------
-- Components of a path
-- ---------------------------------------------------------------------------

/-- A component, unless it is empty. -/
def flushComp (comp : List UInt8) : List (List UInt8) := if comp = [] then [] else [comp]

/-- The components of a path, read one character at a time; `comp` is the component so
far. A component that fills its buffer of `MAX_NAME_LEN` ends there, and the rest of
the name is read as the next one. -/
def compsFrom (comp : List UInt8) : Path → List (List UInt8)
  | [] => flushComp comp
  | c :: p =>
    if c = slash then flushComp comp ++ compsFrom [] p
    else if maxNameLen - 1 ≤ comp.length then comp :: compsFrom [c] p
    else compsFrom (comp ++ [c]) p

def pathComps (p : Path) : List (List UInt8) := compsFrom [] p

-- ---------------------------------------------------------------------------
-- Resolution
-- ---------------------------------------------------------------------------

/-- `memfs_find_child` -/
def memfsFindChild (files : MemFiles) (dir : Fin maxFiles) (name : List UInt8) :
    Option (Fin maxFiles) :=
  if !(files dir).live then none
  else (files dir).children.findSome? fun c =>
    (fileIdx c).filter fun i => (files i).live && (files i).name = name

/-- The parent that `..` leads to. -/
def memfsParent (files : MemFiles) (cur : Fin maxFiles) : Fin maxFiles :=
  match fileIdx (files cur).parentIdx with
  | some par => if (files par).live then par else cur
  | none => cur

/-- One component of the walk. -/
def resolveComp (files : MemFiles) (cur : Fin maxFiles) (comp : List UInt8) :
    Option (Fin maxFiles) :=
  if comp = [dot] then some cur
  else if comp = [dot, dot] then some (if cur ≠ rootIdx then memfsParent files cur else cur)
  else memfsFindChild files cur comp

/-- `memfs_resolve_path_raw` -/
def memfsResolvePathRaw (files : MemFiles) (path : Path) : Option (Fin maxFiles) :=
  if ¬ path.Absolute then none
  else (pathComps path.tail).foldlM (resolveComp files) rootIdx

/-- `root_depth`: the components of the root, of any length. -/
def rootDepth (root : Path) : Nat := ((root.splitOn slash).filter (· ≠ [])).length

/-- The stack of components below a `chroot`: `..` never leaves the root, and what is
deeper than 64 is dropped. -/
def pushComp (depth : Nat) (stack : List (List UInt8)) (tok : List UInt8) : List (List UInt8) :=
  if tok = [dot] then stack
  else if tok = [dot, dot] then if depth < stack.length then stack.dropLast else stack
  else if stack.length < 64 then stack ++ [tok] else stack

/-- `eff_path` from `acc` on, cut where the buffer is full. -/
def effPath (acc : Path) : List (List UInt8) → Path
  | [] => acc
  | [c] => if maxPathLen ≤ acc.length + c.length then acc else acc ++ c
  | c :: stack =>
    if maxPathLen ≤ acc.length + c.length then acc
    else if maxPathLen ≤ acc.length + c.length + 1 then acc ++ c
    else effPath (acc ++ c ++ [slash]) stack

/-- `tmp_combined` -/
def combinedPath (root path : Path) : Path :=
  if root.getLast? = some slash then root.dropLast ++ path else root ++ path

/-- `memfs_resolve_path`, where `root` is that of the current process. -/
def memfsResolvePath (files : MemFiles) (root path : Path) : Option (Fin maxFiles) :=
  if ¬ path.Absolute then none
  else if root = [] ∨ root = [slash] then memfsResolvePathRaw files path
  else if maxPathLen ≤ root.length + path.length then none
  else
    memfsResolvePathRaw files (effPath [slash]
      ((pathComps (combinedPath root path)).foldl (pushComp (rootDepth root)) []))

end Lestra
