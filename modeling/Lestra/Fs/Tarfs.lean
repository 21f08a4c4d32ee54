import Lestra.Fs.Memfs
import Lestra.Lib.FirstFit
import Mathlib.Logic.Function.Basic

/-!
# tarfs

`kernel/fs/tar_extract.c`: the index of the regular files and symlinks of a tar archive that
`tarfs_init` builds, and opening and reading files through it. A C string is the list of its
bytes before the NUL; the entries in use are the first ones of the table.
-/

namespace Lestra

def maxTarfsEntries : Nat := 8192

def maxTarfsOpen : Nat := 128

def tarBlockSize : Nat := 512

def tarfsFdBase : Int := 200

def maxSymlinkDepth : Nat := 10

/-- `struct tarfs_entry` -/
structure TarfsEntry where
  name : List UInt8
  offset : Nat
  size : Nat
  isSymlink : Bool
  linkTarget : List UInt8
deriving DecidableEq, Repr

/-- `struct tarfs_open` -/
structure TarfsOpen where
  used : Bool
  entryIdx : Nat
  pos : Nat
deriving DecidableEq, Repr

structure Tarfs where
  entries : List TarfsEntry
  opens : Fin maxTarfsOpen → TarfsOpen
  blob : List UInt8

-- ---------------------------------------------------------------------------
-- Names
-- ---------------------------------------------------------------------------

/-- The C string at the start of the memory. -/
def cString (mem : List UInt8) : List UInt8 := mem.takeWhile (· ≠ 0)

/-- `if (src[0] == '.' && src[1] == '/') src += 2; if (src[0] == '/') src++` -/
def stripRoot (src : List UInt8) : List UInt8 :=
  let src := if src.take 2 = [dot, slash] then src.drop 2 else src
  if src.head? = some slash then src.tail else src

/-- `normalize_name` with a buffer of 256 bytes. A name of 255 bytes grows by the slash, and
its NUL is written behind the buffer. -/
def normalizeName (src : List UInt8) : List UInt8 :=
  let dst := (stripRoot src).take 255
  if dst.head? = some slash then dst else slash :: dst

def findEntry (entries : List TarfsEntry) (path : List UInt8) : Option Nat :=
  entries.findIdx? fun e => e.name == normalizeName path

/-- The bytes up to the last slash. -/
def dirPart (path : List UInt8) : List UInt8 :=
  (path.reverse.dropWhile (· ≠ slash)).reverse

/-- The path after one symlink, in `tarfs_resolve_symlink`. -/
def joinTarget (current target : List UInt8) : Option (List UInt8) :=
  if target.head? = some slash then some (target.take 255)
  else
    let dir := if slash ∈ current.take 255 then dirPart (current.take 255) else [slash]
    if 256 ≤ dir.length + target.length then none else some (dir ++ target)

/-- The loop of `tarfs_resolve_symlink`, `depth` turns before its end. -/
def tarfsResolveLoop (entries : List TarfsEntry) : Nat → List UInt8 → Option (List UInt8)
  | 0, _ => none
  | depth + 1, current =>
    match (findEntry entries current).bind fun idx => entries[idx]? with
    | none => none
    | some e =>
      if e.isSymlink then (joinTarget current e.linkTarget).bind (tarfsResolveLoop entries depth)
      else some (current.take 255)

def tarfsResolveSymlink (entries : List TarfsEntry) (path : List UInt8) : Option (List UInt8) :=
  tarfsResolveLoop entries maxSymlinkDepth (normalizeName path)

-- ---------------------------------------------------------------------------
-- Open and read
-- ---------------------------------------------------------------------------

def Tarfs.setOpen (t : Tarfs) (i : Fin maxTarfsOpen) (o : TarfsOpen) : Tarfs :=
  { t with opens := Function.update t.opens i o }

@[simp] theorem setOpen_self (t : Tarfs) (i : Fin maxTarfsOpen) (o : TarfsOpen) :
    (t.setOpen i o).opens i = o := Function.update_self ..

/-- The file descriptor is the slot plus `TARFS_FD_BASE`. -/
def tarfsOpen (t : Tarfs) (path : List UInt8) : Tarfs × Option (Fin maxTarfsOpen) :=
  let path := (tarfsResolveSymlink t.entries path).getD path
  match findEntry t.entries path with
  | none => (t, none)
  | some idx =>
    if (t.entries[idx]?).any (·.isSymlink) then (t, none)
    else
      match (List.finRange maxTarfsOpen).find? fun i => !(t.opens i).used with
      | none => (t, none)
      | some i => (t.setOpen i ⟨true, idx, 0⟩, some i)

/-- `none` is `-1`. -/
def tarfsRead (t : Tarfs) (i : Fin maxTarfsOpen) (count : Nat) : Tarfs × Option (List UInt8) :=
  let o := t.opens i
  if o.used = false then (t, none)
  else
    match t.entries[o.entryIdx]? with
    | none => (t, none)
    | some e =>
      if e.size ≤ o.pos then (t, some [])
      else
        let count := min count (e.size - o.pos)
        (t.setOpen i { o with pos := o.pos + count },
          some ((t.blob.drop (e.offset + o.pos)).take count))

/-- Reads one after the other. -/
def tarfsReads (t : Tarfs) (i : Fin maxTarfsOpen) : List Nat → List (Option (List UInt8))
  | [] => []
  | count :: counts => (tarfsRead t i count).2 :: tarfsReads (tarfsRead t i count).1 i counts

-- ---------------------------------------------------------------------------
-- The index
-- ---------------------------------------------------------------------------

def isOctal (b : UInt8) : Bool := 0x30 ≤ b && b ≤ 0x37

/-- `size * 8 + (digit - '0')` over the digits. -/
def octalValue (digits : List UInt8) : Nat := digits.foldl (fun n b => n * 8 + (b.toNat - 0x30)) 0

/-- The size in a header. -/
def headerSize (header : List UInt8) : Nat :=
  octalValue (((header.drop 124).take 11).takeWhile isOctal)

/-- Rounded up to whole blocks. -/
def tarPadded (size : Nat) : Nat := (size + tarBlockSize - 1) / tarBlockSize * tarBlockSize

def isRegularType (typeflag : UInt8) : Bool := typeflag == 0x30 || typeflag == 0 || typeflag == 0x37

def isSymlinkType (typeflag : UInt8) : Bool := typeflag == 0x32

/-- The extended headers. -/
def isPaxType (typeflag : UInt8) : Bool := typeflag == 0x78 || typeflag == 0x67

/-- The entry for a header at `offset`. -/
def headerEntry (header : List UInt8) (offset : Nat) : TarfsEntry :=
  let name := (normalizeName (cString header)).take 255
  if isSymlinkType (header.getD 156 0) then
    ⟨name, 0, 0, true, (cString (header.drop 157)).take 255⟩
  else ⟨name, offset + tarBlockSize, headerSize header, false, []⟩

/-- The loop of `tarfs_init`: `rest` is what is left of the blob at `offset`. A full table
takes no more entries. Every turn goes on by at least a block, so `fuel` is a bound on the
length. -/
def tarfsScan : Nat → Nat → List UInt8 → List TarfsEntry → List TarfsEntry
  | 0, _, _, entries => entries
  | fuel + 1, offset, rest, entries =>
    if rest.length < tarBlockSize then entries
    else
      let header := rest.take tarBlockSize
      let typeflag := header.getD 156 0
      let next := tarBlockSize + tarPadded (headerSize header)
      if header.getD 0 0 = 0 then entries
      else if isPaxType typeflag then tarfsScan fuel (offset + next) (rest.drop next) entries
      else if !isRegularType typeflag && !isSymlinkType typeflag then
        tarfsScan fuel (offset + next) (rest.drop next) entries
      else if normalizeName (cString header) = [slash] then
        tarfsScan fuel (offset + tarBlockSize) (rest.drop tarBlockSize) entries
      else
        tarfsScan fuel (offset + next) (rest.drop next)
          (if entries.length < maxTarfsEntries then entries ++ [headerEntry header offset]
            else entries)

/-- The state after `tarfs_init`. A blob of less than a block is not taken. -/
def tarfsInit (blob : List UInt8) : Tarfs :=
  ⟨tarfsScan blob.length 0 blob [], fun _ => ⟨false, 0, 0⟩, blob⟩

end Lestra
