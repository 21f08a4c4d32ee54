import Lestra.Fs.Ext2Map

/-!
# ext2: directory blocks

`ext2_find_dirent`, `ext2_add_dir_entry` and `ext2_remove_dir_entry`. A directory
block is a row of records; a record begins with the inode, its own length, the length
of the name and the type, and the name follows. A name is the list of its characters
before the terminator.

`ext2_add_dir_entry` walks a block to its end and uses the slack of the last record if
it stopped short of the end. In a block that the records fill, it never does.

* `ext2_dir_law` — what adding and removing an entry do to a well-formed directory.
-/

namespace Lestra

open ByteMem

-- ---------------------------------------------------------------------------
-- Records
-- ---------------------------------------------------------------------------

/-- The fields of the `struct ext2_dirent` at `off`. -/
def deInode (buf : Mem) (off : Nat) : Nat := getLE buf off 4

def deRecLen (buf : Mem) (off : Nat) : Nat := getLE buf (off + 4) 2

def deNameLen (buf : Mem) (off : Nat) : Nat := (buf (off + 6)).toNat

def deName (buf : Mem) (off : Nat) : List UInt8 := load buf (off + 8) (deNameLen buf off)

/-- `(sizeof(struct ext2_dirent) + n + 3) & ~3` -/
def dirRecSize (n : Nat) : Nat := (8 + n + 3) / 4 * 4

/-- The comparison of `name` with the record, character by character; behind its last
character lies the terminator. -/
def deMatches (buf : Mem) (off : Nat) (name : List UInt8) : Bool :=
  (List.range (deNameLen buf off)).all (fun j => name.getD j 0 = buf (off + 8 + j)) &&
    name.getD (deNameLen buf off) 0 = 0

/-- The record is in use and has the name. -/
def deFound (buf : Mem) (off : Nat) (name : List UInt8) : Bool :=
  deInode buf off ≠ 0 && 0 < deNameLen buf off && deMatches buf off name

-- ---------------------------------------------------------------------------
-- ext2_find_dirent
-- ---------------------------------------------------------------------------

/-- The loop over one block, of which `left` bytes belong to the directory. -/
def findInBlock (buf : Mem) (blockSize left : Nat) (name : List UInt8) : Nat → Nat → Option Nat
  | 0, _ => none
  | fuel + 1, off =>
    if off < blockSize ∧ off < left then
      if deRecLen buf off = 0 then none
      else if deFound buf off name then some (deInode buf off)
      else findInBlock buf blockSize left name fuel (off + deRecLen buf off)
    else none

/-- The loop over the blocks from `logicalBlock` on. A record is at least one byte long. -/
def findFromBlock (v : Ext2Volume) (dir : Ext2Inode) (name : List UInt8) : Nat → Nat → Nat
  | 0, _ => 0
  | fuel + 1, logicalBlock =>
    let walked := logicalBlock * v.blockSize
    if walked < dir.iSize then
      let phys := ext2GetInodeBlock v dir logicalBlock
      if phys = 0 then 0
      else
        match findInBlock (v.blocks phys) v.blockSize (dir.iSize - walked) name v.blockSize 0 with
        | some ino => ino
        | none => findFromBlock v dir name fuel (logicalBlock + 1)
    else 0

/-- `ext2_find_dirent` -/
def ext2FindDirent (v : Ext2Volume) (dir : Ext2Inode) (name : List UInt8) : Nat :=
  findFromBlock v dir name (dir.iSize / v.blockSize + 1) 0

-- ---------------------------------------------------------------------------
-- ext2_add_dir_entry
-- ---------------------------------------------------------------------------

/-- Where the walk over the records of a block stops, and the last record before it. -/
def walkRecords (buf : Mem) (blockSize : Nat) : Nat → Nat → Option Nat → Nat × Option Nat
  | 0, off, last => (off, last)
  | fuel + 1, off, last =>
    if off < blockSize then
      if deRecLen buf off = 0 then (off, last)
      else walkRecords buf blockSize fuel (off + deRecLen buf off) (some off)
    else (off, last)

/-- A record put at `off`. -/
def putDirent (buf : Mem) (off inode recLen : Nat) (type : UInt8) (name : List UInt8) : Mem :=
  let nameLen := UInt8.ofNat name.length
  store (store (putLE (putLE buf off 4 inode) (off + 4) 2 recLen) (off + 6) [nameLen, type])
    (off + 8) (name.take nameLen.toNat)

/-- The block with the entry behind its last record, if the walk stopped before the end of the
block and there is room. The subtraction wraps around. -/
def addToBlock (buf : Mem) (blockSize child : Nat) (type : UInt8) (name : List UInt8) : Option Mem :=
  match walkRecords buf blockSize blockSize 0 none with
  | (off, some last) =>
    if off < blockSize then
      let actualLen := dirRecSize (deNameLen buf last)
      let remaining := (blockSize - off + deRecLen buf last + (2 ^ 32 - actualLen)) % 2 ^ 32
      if dirRecSize name.length ≤ remaining then
        some (putDirent (putLE buf (last + 4) 2 actualLen) (last + actualLen) child
          (blockSize - (last + actualLen)) type name)
      else none
    else none
  | (_, none) => none

/-- `ext2_add_dir_entry`: the volume, the inode of the directory and the result. -/
def ext2AddDirEntry (v : Ext2Volume) (dir : Ext2Inode) (child : Nat) (name : List UInt8)
    (type : UInt8) : Ext2Volume × Ext2Inode × Nat :=
  let into := (List.range 12).findSome? fun i =>
    if dir.iBlock i = 0 then none
    else (addToBlock (v.blocks (dir.iBlock i)) v.blockSize child type name).map fun buf => (i, buf)
  match into with
  | some (i, buf) => (v.writeBlock (dir.iBlock i) buf, dir, 1)
  | none =>
    match (List.range 12).find? fun i => dir.iBlock i = 0 with
    | none => (v, dir, 0)
    | some i =>
      let (v, newBlock) := v.allocBlock
      if newBlock = 0 then (v, dir, 0)
      else
        (v.writeBlock newBlock (putDirent (fun _ => 0) 0 child v.blockSize type name),
          { dir with
            iBlock := Function.update dir.iBlock i newBlock
            iSize := (dir.iSize + v.blockSize) % 2 ^ 32
            iBlocks := (dir.iBlocks + v.blockSize / 512) % 2 ^ 32 }, 1)

-- ---------------------------------------------------------------------------
-- ext2_remove_dir_entry
-- ---------------------------------------------------------------------------

/-- The loop over one block: the block without the entry, if it is there. -/
def removeInBlock (buf : Mem) (blockSize left : Nat) (name : List UInt8) :
    Nat → Nat → Option Nat → Option Mem
  | 0, _, _ => none
  | fuel + 1, off, prev =>
    if off < blockSize ∧ off < left then
      if deRecLen buf off = 0 then none
      else if deFound buf off name then
        match prev with
        | some p => some (putLE buf (p + 4) 2 ((deRecLen buf p + deRecLen buf off) % 2 ^ 16))
        | none => some (putLE buf off 4 0)
      else removeInBlock buf blockSize left name fuel (off + deRecLen buf off) (some off)
    else none

/-- The loop over the blocks from `logicalBlock` on. -/
def removeFromBlock (v : Ext2Volume) (dir : Ext2Inode) (name : List UInt8) :
    Nat → Nat → Ext2Volume × Nat
  | 0, _ => (v, 0)
  | fuel + 1, logicalBlock =>
    let walked := logicalBlock * v.blockSize
    if walked < dir.iSize then
      let phys := ext2GetInodeBlock v dir logicalBlock
      if phys = 0 then (v, 0)
      else
        match removeInBlock (v.blocks phys) v.blockSize (dir.iSize - walked) name v.blockSize 0
          none with
        | some buf => (v.writeBlock phys buf, 1)
        | none => removeFromBlock v dir name fuel (logicalBlock + 1)
    else (v, 0)

/-- `ext2_remove_dir_entry`: the volume and the result. -/
def ext2RemoveDirEntry (v : Ext2Volume) (dir : Ext2Inode) (name : List UInt8) : Ext2Volume × Nat :=
  removeFromBlock v dir name (dir.iSize / v.blockSize + 1) 0

-- ---------------------------------------------------------------------------
-- Well-formed directories
-- ---------------------------------------------------------------------------

/-- What a record says. -/
structure DirRec where
  inode : Nat
  recLen : Nat
  name : List UInt8

/-- The entry of a record in use. -/
def DirRec.entry (r : DirRec) : Option (List UInt8 × Nat) :=
  if r.inode ≠ 0 ∧ r.name ≠ [] then some (r.name, r.inode) else none

/-- The length is a multiple of 4 and covers the name, which has no terminator in it. -/
structure DirRec.Good (r : DirRec) : Prop where
  aligned : r.recLen % 4 = 0
  covers : 8 + r.name.length ≤ r.recLen
  name : r.inode ≠ 0 → 0 ∉ r.name

/-- The record lies at `off`. -/
structure RecAt (buf : Mem) (off : Nat) (r : DirRec) : Prop where
  inode : deInode buf off = r.inode
  recLen : deRecLen buf off = r.recLen
  name : deName buf off = r.name

/-- The records fill the bytes from `s` to `e`. -/
def RecsFill (buf : Mem) (e : Nat) : Nat → List DirRec → Prop
  | s, [] => s = e
  | s, r :: recs => RecAt buf s r ∧ r.Good ∧ RecsFill buf e (s + r.recLen) recs

/-- A directory of `k` blocks, each of them filled by its records. -/
structure DirOk (v : Ext2Volume) (dir : Ext2Inode) (k : Nat) (recs : Nat → List DirRec) : Prop where
  blockSize : v.blockSize = 1024 ∨ v.blockSize = 2048 ∨ v.blockSize = 4096
  size : dir.iSize = k * v.blockSize
  size_lt : k * v.blockSize < 2 ^ 32
  mapped : ∀ l < k, ext2GetInodeBlock v dir l ≠ 0
  distinct : ∀ l < k, ∀ l' < k, ext2GetInodeBlock v dir l = ext2GetInodeBlock v dir l' → l = l'
  apart : ∀ l < k, ∀ l' < k, ext2GetInodeBlock v dir l ∉ lookupBlocks v dir l'
  direct : ∀ i < 12, dir.iBlock i = 0 ↔ k ≤ i
  fill : ∀ l < k, RecsFill (v.blocks (ext2GetInodeBlock v dir l)) v.blockSize 0 (recs l)

/-- The entries of the first `k` blocks. -/
def dirEntries (recs : Nat → List DirRec) (k : Nat) : List (List UInt8 × Nat) :=
  ((List.range k).flatMap recs).filterMap DirRec.entry

/-- The inode of the first entry with the name, 0 for none. -/
def dirLookup (entries : List (List UInt8 × Nat)) (name : List UInt8) : Nat :=
  ((entries.find? fun e => e.1 = name).map (·.2)).getD 0

/-- A name as the callers pass it. -/
structure DirName (name : List UInt8) : Prop where
  pos : name ≠ []
  le : name.length ≤ 255
  chars : 0 ∉ name

section

variable {v : Ext2Volume} {dir : Ext2Inode} {buf buf' : Mem} {name other : List UInt8}
  {r q : DirRec} {x : List UInt8 × Nat} {rs pre post : List DirRec} {recs : Nat → List DirRec}
  {s e m k l off fuel left blockSize child : Nat} {type : UInt8}

-- ---------------------------------------------------------------------------
-- One record
-- ---------------------------------------------------------------------------

theorem RecAt.nameLen (h : RecAt buf off r) : deNameLen buf off = r.name.length := by
  rw [← h.name, deName, length_load]

/-- A record is known by the bytes up to the end of its name. -/
theorem RecAt.congr (h : RecAt buf off r)
    (hsame : ∀ x, off ≤ x → x < off + 8 + r.name.length → buf' x = buf x) : RecAt buf' off r := by
  have hlen : deNameLen buf' off = deNameLen buf off := by
    rw [deNameLen, hsame (off + 6) (by omega) (by omega), deNameLen]
  have hname := h.nameLen
  refine ⟨?_, ?_, ?_⟩
  · rw [deInode, getLE_congr fun x _ _ => hsame x (by omega) (by omega)]
    exact h.inode
  · rw [deRecLen, getLE_congr fun x _ _ => hsame x (by omega) (by omega)]
    exact h.recLen
  · rw [deName, hlen, load_congr fun x _ _ => hsame x (by omega) (by omega)]
    exact h.name

/-- Two strings are the same when the comparison finds no difference. -/
theorem deMatches_iff (hrec : 0 ∉ deName buf off) (hname : 0 ∉ name) :
    deMatches buf off name = decide (deName buf off = name) := by
  have hget : ∀ j < deNameLen buf off, (deName buf off)[j]? = some (buf (off + 8 + j)) := by
    intro j hj
    rw [deName, load, List.getElem?_map, List.getElem?_range hj]
    rfl
  have hlen : (deName buf off).length = deNameLen buf off := length_load ..
  rw [Bool.eq_iff_iff, decide_eq_true_iff, deMatches, Bool.and_eq_true, List.all_eq_true]
  simp only [List.mem_range, decide_eq_true_eq]
  constructor
  · rintro ⟨hsame, hend⟩
    have hle : name.length ≤ deNameLen buf off := by
      by_contra hlt
      rw [List.getD_eq_getElem?_getD, List.getElem?_eq_getElem (by omega), Option.getD_some] at hend
      exact hname (hend ▸ List.getElem_mem _)
    refine List.ext_getElem? fun j => ?_
    by_cases hj : j < deNameLen buf off
    · have hchar := hsame j hj
      rw [hget j hj, ← hchar, List.getD_eq_getElem?_getD]
      cases hnj : name[j]? with
      | some ch => rfl
      | none =>
        -- the name ends inside the record, which has no terminator
        rw [List.getD_eq_getElem?_getD, hnj, Option.getD_none] at hchar
        exact absurd (List.mem_of_getElem? (hchar ▸ hget j hj)) hrec
    · rw [List.getElem?_eq_none (by omega), List.getElem?_eq_none (by omega)]
  · rintro rfl
    refine ⟨fun j hj => ?_, ?_⟩
    · rw [List.getD_eq_getElem?_getD, hget j hj, Option.getD_some]
    · rw [List.getD_eq_getElem?_getD, List.getElem?_eq_none (by omega), Option.getD_none]

/-- The record is in use and has the name. -/
def DirRec.hits (name : List UInt8) (r : DirRec) : Bool :=
  r.entry.any fun e => e.1 = name

theorem RecAt.found (h : RecAt buf off r) (hgood : r.Good) (hname : 0 ∉ name) :
    deFound buf off name = r.hits name := by
  rw [deFound, DirRec.hits, DirRec.entry, h.inode, h.nameLen]
  by_cases hinode : r.inode = 0
  · simp [hinode]
  · by_cases hnil : r.name = []
    · simp [hnil]
    · have hrec : 0 ∉ deName buf off := h.name ▸ hgood.name hinode
      rw [deMatches_iff hrec hname, h.name]
      simp [hinode, hnil, List.length_pos_iff]

-- ---------------------------------------------------------------------------
-- Rows of records
-- ---------------------------------------------------------------------------

theorem recsFill_append : RecsFill buf e s (pre ++ post) ↔
    ∃ m, RecsFill buf m s pre ∧ RecsFill buf e m post := by
  induction pre generalizing s with
  | nil => exact ⟨fun h => ⟨s, rfl, h⟩, fun ⟨m, hm, h⟩ => hm ▸ h⟩
  | cons r pre ih =>
    simp only [List.cons_append, RecsFill, ih]
    constructor
    · rintro ⟨hr, hgood, m, hpre, hpost⟩
      exact ⟨m, ⟨hr, hgood, hpre⟩, hpost⟩
    · rintro ⟨m, ⟨hr, hgood, hpre⟩, hpost⟩
      exact ⟨hr, hgood, m, hpre, hpost⟩

/-- A record takes at least 8 bytes. -/
theorem RecsFill.le (h : RecsFill buf e s rs) : s + 8 * rs.length ≤ e := by
  induction rs generalizing s with
  | nil => exact Nat.le_of_eq h
  | cons r rs ih =>
    have hrest := ih h.2.2
    have hcovers := h.2.1.covers
    rw [List.length_cons]
    omega

theorem RecsFill.congr (h : RecsFill buf e s rs) (hsame : ∀ x, s ≤ x → x < e → buf' x = buf x) :
    RecsFill buf' e s rs := by
  induction rs generalizing s with
  | nil => exact h
  | cons r rs ih =>
    have hrest := h.2.2.le
    have hcovers := h.2.1.covers
    exact ⟨h.1.congr fun x h₁ h₂ => hsame x h₁ (by omega), h.2.1,
      ih h.2.2 fun x h₁ h₂ => hsame x (by omega) h₂⟩

/-- The loop of `ext2_find_dirent` over a block that its records fill. -/
theorem findInBlock_eq (h : RecsFill buf blockSize s rs) (hfuel : rs.length ≤ fuel)
    (hleft : blockSize ≤ left) (hname : 0 ∉ name) :
    findInBlock buf blockSize left name fuel s = (rs.find? (DirRec.hits name)).map (·.inode) := by
  induction rs generalizing s fuel with
  | nil =>
    have hend : s = blockSize := h
    cases fuel with
    | zero => rfl
    | succ fuel =>
      rw [findInBlock, if_neg (by omega)]
      rfl
  | cons r rs ih =>
    obtain ⟨hr, hgood, hrest⟩ := h
    have hle := hrest.le
    have hcovers := hgood.covers
    cases fuel with
    | zero => exact absurd hfuel (by simp)
    | succ fuel =>
      rw [findInBlock, if_pos (by omega), hr.recLen, if_neg (by omega), hr.found hgood hname,
        hr.inode]
      cases hhit : r.hits name with
      | true => rw [if_pos rfl, List.find?_cons_of_pos hhit, Option.map_some]
      | false =>
        rw [if_neg Bool.false_ne_true, List.find?_cons_of_neg (by rw [hhit]; exact Bool.false_ne_true)]
        exact ih hrest (by rw [List.length_cons] at hfuel; omega)

/-- The walk of `ext2_add_dir_entry` reaches the end of a block that its records fill. -/
theorem walkRecords_eq (h : RecsFill buf blockSize s rs) (hfuel : rs.length ≤ fuel)
    (last : Option Nat) : (walkRecords buf blockSize fuel s last).1 = blockSize := by
  induction rs generalizing s fuel last with
  | nil =>
    have hend : s = blockSize := h
    cases fuel with
    | zero => exact hend
    | succ fuel =>
      rw [walkRecords, if_neg (by omega)]
      exact hend
  | cons r rs ih =>
    obtain ⟨hr, hgood, hrest⟩ := h
    have hle := hrest.le
    have hcovers := hgood.covers
    cases fuel with
    | zero => exact absurd hfuel (by simp)
    | succ fuel =>
      rw [walkRecords, if_pos (by omega), hr.recLen, if_neg (by omega)]
      exact ih hrest (by rw [List.length_cons] at hfuel; omega) _

/-- Nothing is added to a block that its records fill. -/
theorem addToBlock_none (h : RecsFill buf blockSize 0 rs) (child : Nat) (type : UInt8)
    (name : List UInt8) : addToBlock buf blockSize child type name = none := by
  have hwalk := walkRecords_eq h (show rs.length ≤ blockSize by have := h.le; omega) none
  unfold addToBlock
  split
  · rename_i off last heq
    rw [heq] at hwalk
    rw [if_neg (by have : off = blockSize := hwalk; omega)]
  · rfl

/-- The records that hit a name and the entries that have it. -/
theorem find_hits (rs : List DirRec) (name : List UInt8) :
    (rs.find? (DirRec.hits name)).map (·.inode) =
      ((rs.filterMap DirRec.entry).find? fun e => e.1 = name).map (·.2) := by
  induction rs with
  | nil => rfl
  | cons r rs ih =>
    rw [List.filterMap_cons]
    cases hentry : r.entry with
    | none =>
      have hmiss : r.hits name = false := by rw [DirRec.hits, hentry, Option.any_none]
      rw [List.find?_cons_of_neg (by rw [hmiss]; exact Bool.false_ne_true)]
      exact ih
    | some x =>
      have hx : x = (r.name, r.inode) := by
        rw [DirRec.entry] at hentry
        split at hentry
        · exact (Option.some.inj hentry).symm
        · exact absurd hentry (by simp)
      have hhits : r.hits name = decide (r.name = name) := by
        rw [DirRec.hits, hentry, Option.any_some, hx]
      subst hx
      by_cases hname : r.name = name
      · rw [List.find?_cons_of_pos (by rw [hhits]; exact decide_eq_true hname),
          List.find?_cons_of_pos (by simpa using hname)]
        rfl
      · rw [List.find?_cons_of_neg (by rw [hhits]; simpa using hname),
          List.find?_cons_of_neg (by simpa using hname)]
        exact ih

theorem dirLookup_append (E F : List (List UInt8 × Nat)) (name : List UInt8) :
    dirLookup (E ++ F) name =
      (((E.find? fun e => e.1 = name).map (·.2)).getD (dirLookup F name)) := by
  rw [dirLookup, List.find?_append]
  cases E.find? fun e => e.1 = name <;> rfl

-- ---------------------------------------------------------------------------
-- The search of a directory
-- ---------------------------------------------------------------------------

theorem DirOk.length_le (h : DirOk v dir k recs) (hl : l < k) : (recs l).length ≤ v.blockSize := by
  have hle := (h.fill l hl).le
  omega

theorem DirOk.walked_lt (h : DirOk v dir k recs) : l * v.blockSize < dir.iSize ↔ l < k := by
  have hpos : 0 < v.blockSize := by have := h.blockSize; omega
  rw [h.size, Nat.mul_lt_mul_right hpos]

/-- A whole block of the directory is left. -/
theorem DirOk.block_left (h : DirOk v dir k recs) (hl : l < k) :
    v.blockSize ≤ dir.iSize - l * v.blockSize := by
  have hle : (l + 1) * v.blockSize ≤ k * v.blockSize := Nat.mul_le_mul_right _ hl
  rw [Nat.succ_mul] at hle
  rw [h.size]
  omega

theorem DirOk.blocks_eq (h : DirOk v dir k recs) : dir.iSize / v.blockSize = k := by
  rw [h.size, Nat.mul_div_cancel _ (by have := h.blockSize; omega)]

theorem findFromBlock_eq (h : DirOk v dir k recs) (hname : 0 ∉ name) (n : Nat) :
    ∀ l, l + n = k → findFromBlock v dir name (n + 1) l =
      dirLookup (((List.range' l n).flatMap recs).filterMap DirRec.entry) name := by
  induction n with
  | zero =>
    intro l hl
    rw [findFromBlock, if_neg (by rw [h.walked_lt]; omega)]
    rfl
  | succ n ih =>
    intro l hl
    have hlk : l < k := by omega
    have hfind := (findInBlock_eq (h.fill l hlk) (h.length_le hlk) (h.block_left hlk) hname).trans
      (find_hits (recs l) name)
    rw [findFromBlock, List.range'_succ, List.flatMap_cons, List.filterMap_append, dirLookup_append,
      ← ih (l + 1) (by omega)]
    simp only [if_pos (h.walked_lt.mpr hlk), if_neg (h.mapped l hlk), hfind]
    cases ((recs l).filterMap DirRec.entry).find? fun e => e.1 = name <;> rfl

/-- **The search.** It finds the first entry with the name. -/
theorem ext2FindDirent_eq (h : DirOk v dir k recs) (hname : 0 ∉ name) :
    ext2FindDirent v dir name = dirLookup (dirEntries recs k) name := by
  rw [ext2FindDirent, h.blocks_eq, findFromBlock_eq h hname k 0 (Nat.zero_add k), dirEntries,
    List.range_eq_range']

-- ---------------------------------------------------------------------------
-- Adding
-- ---------------------------------------------------------------------------

/-- What a new record reads. -/
theorem recAt_putDirent (hchild : child < 2 ^ 32) (hlen : s < 2 ^ 16) (hname : name.length ≤ 255) :
    RecAt (putDirent buf off child s type name) off ⟨child, s, name⟩ := by
  have hnat : (UInt8.ofNat name.length).toNat = name.length := by
    rw [UInt8.toNat_ofNat']
    omega
  simp only [putDirent, hnat, List.take_length]
  have hbyte : deNameLen (store (store (putLE (putLE buf off 4 child) (off + 4) 2 s) (off + 6)
      [UInt8.ofNat name.length, type]) (off + 8) name) off = name.length := by
    rw [deNameLen, store_out (Or.inl (by omega)), store, if_pos ⟨Nat.le_refl _, by simp⟩, Nat.sub_self]
    exact hnat
  refine ⟨?_, ?_, ?_⟩
  · rw [deInode, getLE_congr fun x _ hx => store_out (Or.inl (by omega)),
      getLE_congr fun x _ hx => store_out (Or.inl (by omega)),
      getLE_putLE_of_apart (Or.inl (by omega)), getLE_putLE (by omega)]
  · rw [deRecLen, getLE_congr fun x _ hx => store_out (Or.inl (by omega)),
      getLE_congr fun x _ hx => store_out (Or.inl (by omega)), getLE_putLE (by omega)]
  · rw [deName, hbyte, load_store]

/-- The next block that is handed out is none of the directory's. -/
def FreshForDir (v : Ext2Volume) (dir : Ext2Inode) (k : Nat) : Prop :=
  ∀ b ∈ v.supply.head?, b ≠ 0 ∧ ∀ l < k, ext2GetInodeBlock v dir l ≠ b

/-- The records of the directory with one more block. -/
def addRec (recs : Nat → List DirRec) (k : Nat) (r : DirRec) : Nat → List DirRec :=
  Function.update recs k [r]

/-- No block of the directory takes the entry. -/
theorem DirOk.addToBlocks_none (h : DirOk v dir k recs) (child : Nat) (name : List UInt8)
    (type : UInt8) : ((List.range 12).findSome? fun i =>
      if dir.iBlock i = 0 then none
      else (addToBlock (v.blocks (dir.iBlock i)) v.blockSize child type name).map fun buf =>
        (i, buf)) = none := by
  rw [List.findSome?_eq_none_iff]
  intro i hi
  have hi12 := List.mem_range.mp hi
  split
  · rfl
  · rename_i hne
    have hik : i < k := by
      rw [h.direct i hi12] at hne
      omega
    have hfill := h.fill i hik
    rw [ext2GetInodeBlock, if_pos hi12] at hfill
    rw [addToBlock_none hfill]
    rfl

/-- The first direct pointer that is not in use. -/
theorem DirOk.find_direct (h : DirOk v dir k recs) :
    ((List.range 12).find? fun i => dir.iBlock i = 0) = if k < 12 then some k else none := by
  split
  · rename_i hk
    rw [List.find?_range_eq_some]
    refine ⟨by simpa using (h.direct k hk).mpr (Nat.le_refl k), List.mem_range.mpr hk, fun j hj => ?_⟩
    have := (h.direct j (by omega)).not.mpr (by omega)
    simpa using this
  · rename_i hk
    rw [List.find?_range_eq_none]
    intro i hi
    have := (h.direct i hi).not.mpr (by omega)
    simpa using this

/-- Without a direct pointer and a block, nothing is added. -/
theorem DirOk.add_fails (h : DirOk v dir k recs) (child : Nat) (name : List UInt8) (type : UInt8)
    (hno : ¬ (k < 12 ∧ v.supply ≠ [])) :
    ext2AddDirEntry v dir child name type = (v, dir, 0) := by
  rw [ext2AddDirEntry, h.addToBlocks_none]
  simp only [h.find_direct]
  by_cases hk : k < 12
  · have hsupply : v.supply = [] := by
      by_contra hne
      exact hno ⟨hk, hne⟩
    rw [if_pos hk, Ext2Volume.allocBlock, hsupply]
    rfl
  · rw [if_neg hk]

/-- With both, the entry gets a block of its own. -/
theorem DirOk.add_succeeds (h : DirOk v dir k recs) (hfresh : FreshForDir v dir k) (hk : k < 12)
    (hsupply : v.supply ≠ []) (hname : DirName name) (hchild : child < 2 ^ 32) (type : UInt8) :
    (ext2AddDirEntry v dir child name type).2.2 = 1 ∧
      DirOk (ext2AddDirEntry v dir child name type).1 (ext2AddDirEntry v dir child name type).2.1
        (k + 1) (addRec recs k ⟨child, v.blockSize, name⟩) := by
  obtain ⟨b, supply, hsup⟩ := List.exists_cons_of_ne_nil hsupply
  obtain ⟨hb, hother⟩ := hfresh b (by rw [hsup]; rfl)
  have hblock := h.blockSize
  have hadd : ext2AddDirEntry v dir child name type =
      (({ v with marked := Function.update v.marked b true, supply }.writeBlock b fun _ => 0).writeBlock b
        (putDirent (fun _ => 0) 0 child v.blockSize type name),
        { dir with
          iBlock := Function.update dir.iBlock k b
          iSize := (dir.iSize + v.blockSize) % 2 ^ 32
          iBlocks := (dir.iBlocks + v.blockSize / 512) % 2 ^ 32 }, 1) := by
    rw [ext2AddDirEntry, h.addToBlocks_none]
    simp only [h.find_direct, if_pos hk, Ext2Volume.allocBlock, hsup, if_neg hb]
    rfl
  rw [hadd]
  refine ⟨rfl, ?_⟩
  generalize hv' : ({ v with marked := Function.update v.marked b true, supply }.writeBlock b
    fun _ => 0).writeBlock b (putDirent (fun _ => 0) 0 child v.blockSize type name) = v'
  generalize hdir' : ({ dir with
    iBlock := Function.update dir.iBlock k b
    iSize := (dir.iSize + v.blockSize) % 2 ^ 32
    iBlocks := (dir.iBlocks + v.blockSize / 512) % 2 ^ 32 } : Ext2Inode) = dir'
  have hsize : v'.blockSize = v.blockSize := by rw [← hv']; rfl
  have hold : ∀ l < k, ext2GetInodeBlock v' dir' l = ext2GetInodeBlock v dir l := by
    intro l hl
    rw [ext2GetInodeBlock, if_pos (by omega), ext2GetInodeBlock, if_pos (by omega), ← hdir']
    exact Function.update_of_ne (by omega) ..
  have hnew : ext2GetInodeBlock v' dir' k = b := by
    rw [ext2GetInodeBlock, if_pos hk, ← hdir']
    exact Function.update_self ..
  have hblocks : ∀ p, p ≠ b → v'.blocks p = v.blocks p := by
    intro p hp
    rw [← hv', blocks_writeBlock_ne hp, blocks_writeBlock_ne hp]
  have hplus : dir'.iSize = (k + 1) * v.blockSize := by
    rw [← hdir', h.size, Nat.succ_mul]
    refine Nat.mod_eq_of_lt ?_
    have : k * v.blockSize ≤ 11 * v.blockSize := Nat.mul_le_mul_right _ (by omega)
    omega
  refine ⟨by rw [hsize]; exact hblock, by rw [hsize]; exact hplus, ?_, fun l hl => ?_,
    fun l hl l' hl' heq => ?_, fun l hl l' hl' => ?_, fun i hi => ?_, fun l hl => ?_⟩
  · rw [hsize, ← hplus, ← hdir']
    exact Nat.mod_lt _ (by decide)
  · rcases Nat.lt_succ_iff_lt_or_eq.mp hl with hlk | rfl
    · rw [hold l hlk]
      exact h.mapped l hlk
    · rw [hnew]
      exact hb
  · rcases Nat.lt_succ_iff_lt_or_eq.mp hl with hlk | rfl <;>
      rcases Nat.lt_succ_iff_lt_or_eq.mp hl' with hlk' | rfl
    · rw [hold l hlk, hold l' hlk'] at heq
      exact h.distinct l hlk l' hlk' heq
    · rw [hold l hlk, hnew] at heq
      exact absurd heq (hother l hlk)
    · rw [hnew, hold l' hlk'] at heq
      exact absurd heq.symm (hother l' hlk')
    · rfl
  · -- the blocks in use are all direct
    rw [lookupBlocks, if_pos (by omega)]
    exact List.not_mem_nil
  · rw [← hdir']
    by_cases hik : i = k
    · subst hik
      exact iff_of_false (by simpa using hb) (by omega)
    · simp only [Function.update_of_ne hik]
      rw [h.direct i hi]
      omega
  · rcases Nat.lt_succ_iff_lt_or_eq.mp hl with hlk | rfl
    · rw [hold l hlk, hblocks _ (hother l hlk), hsize, addRec,
        Function.update_of_ne (Nat.ne_of_lt hlk)]
      exact h.fill l hlk
    · rw [hnew, hsize, addRec, Function.update_self, ← hv', blocks_writeBlock_self]
      exact ⟨recAt_putDirent hchild (by omega) hname.le,
        ⟨by dsimp only; omega, by have := hname.le; dsimp only; omega, fun _ => hname.chars⟩,
        Nat.zero_add _⟩

/-- The entries of the directory with one more block. -/
theorem dirEntries_addRec (hname : name ≠ []) (hchild : child ≠ 0) :
    dirEntries (addRec recs k ⟨child, s, name⟩) (k + 1) = dirEntries recs k ++ [(name, child)] := by
  have hsame : (List.range k).flatMap (addRec recs k ⟨child, s, name⟩) =
      (List.range k).flatMap recs := by
    rw [List.flatMap_def, List.flatMap_def]
    refine congrArg List.flatten (List.map_congr_left fun l hl => ?_)
    exact Function.update_of_ne (Nat.ne_of_lt (List.mem_range.mp hl)) ..
  rw [dirEntries, List.range_succ, List.flatMap_append, hsame, List.filterMap_append, dirEntries,
    List.flatMap_singleton, addRec, Function.update_self]
  simp [DirRec.entry, hchild, hname]

-- ---------------------------------------------------------------------------
-- Removing
-- ---------------------------------------------------------------------------

/-- The records behind `q` without the first that hits; the one before it takes its bytes. -/
def cutAfter (name : List UInt8) (q : DirRec) : List DirRec → List DirRec
  | [] => [q]
  | r :: rs =>
    if r.hits name then { q with recLen := q.recLen + r.recLen } :: rs
    else q :: cutAfter name r rs

/-- The records of a block without the first that hits. The first record of the block stays, and
is not in use any more. -/
def cutFirst (name : List UInt8) : List DirRec → List DirRec
  | [] => []
  | r :: rs => if r.hits name then { r with inode := 0 } :: rs else cutAfter name r rs

/-- Whether an entry has the name. -/
def named (name : List UInt8) (x : List UInt8 × Nat) : Bool := x.1 = name

theorem hits_of_entry (h : r.entry = some x) : r.hits name = named name x := by
  rw [DirRec.hits, h, Option.any_some, named]

theorem entry_cutAfter (q : DirRec) (rs : List DirRec) (name : List UInt8) :
    (cutAfter name q rs).filterMap DirRec.entry =
      q.entry.toList ++ (rs.filterMap DirRec.entry).eraseP (named name) := by
  induction rs generalizing q with
  | nil => cases hq : q.entry <;> simp [cutAfter, hq]
  | cons r rs ih =>
    rw [cutAfter, List.filterMap_cons (l := rs)]
    cases hr : r.entry with
    | none =>
      have hmiss : r.hits name = false := by rw [DirRec.hits, hr, Option.any_none]
      rw [hmiss, if_neg Bool.false_ne_true, List.filterMap_cons, ih r, hr]
      cases q.entry <;> rfl
    | some x =>
      rw [hits_of_entry hr]
      cases hx : named name x with
      | true =>
        rw [if_pos rfl, List.filterMap_cons, List.eraseP_cons_of_pos hx]
        cases hq : q.entry <;> simp only [DirRec.entry] at hq ⊢ <;> rw [hq] <;> rfl
      | false =>
        rw [if_neg Bool.false_ne_true, List.filterMap_cons, ih r, hr,
          List.eraseP_cons_of_neg (by rw [hx]; exact Bool.false_ne_true)]
        cases q.entry <;> rfl

theorem entry_cutFirst (rs : List DirRec) (name : List UInt8) :
    (cutFirst name rs).filterMap DirRec.entry =
      (rs.filterMap DirRec.entry).eraseP (named name) := by
  cases rs with
  | nil => rfl
  | cons r rs =>
    rw [cutFirst, List.filterMap_cons (l := rs)]
    cases hr : r.entry with
    | none =>
      have hmiss : r.hits name = false := by rw [DirRec.hits, hr, Option.any_none]
      rw [hmiss, if_neg Bool.false_ne_true, entry_cutAfter, hr]
      rfl
    | some x =>
      rw [hits_of_entry hr]
      cases hx : named name x with
      | true =>
        rw [if_pos rfl, List.filterMap_cons, List.eraseP_cons_of_pos hx]
        simp [DirRec.entry]
      | false =>
        rw [if_neg Bool.false_ne_true, entry_cutAfter, hr,
          List.eraseP_cons_of_neg (by rw [hx]; exact Bool.false_ne_true)]
        rfl

/-- The walk that has seen `q` cuts the next record that hits. -/
theorem removeInBlock_after (h : RecsFill buf blockSize s (q :: rs)) (hfuel : rs.length ≤ fuel)
    (hleft : blockSize ≤ left) (hsmall : blockSize < 2 ^ 16) (hname : 0 ∉ name)
    (hany : rs.any (DirRec.hits name) = true) :
    ∃ buf', removeInBlock buf blockSize left name fuel (s + q.recLen) (some s) = some buf' ∧
      RecsFill buf' blockSize s (cutAfter name q rs) ∧ ∀ x < s, buf' x = buf x := by
  induction rs generalizing s q fuel with
  | nil => exact absurd hany (by simp)
  | cons r rs ih =>
    obtain ⟨hq, hqgood, hr, hgood, hrest⟩ := h
    have hle := hrest.le
    have hqcovers := hqgood.covers
    have hcovers := hgood.covers
    cases fuel with
    | zero => exact absurd hfuel (by simp)
    | succ fuel =>
      rw [removeInBlock, if_pos (by omega), hr.recLen, if_neg (by omega), hr.found hgood hname,
        cutAfter]
      cases hhit : r.hits name with
      | true =>
        simp only [if_true]
        refine ⟨_, rfl, ⟨⟨?_, ?_, ?_⟩, ⟨?_, ?_, hqgood.name⟩, ?_⟩, fun x hx => ?_⟩
        · rw [deInode, getLE_putLE_of_apart (Or.inl (by omega))]
          exact hq.inode
        · have hsum : (deRecLen buf s + r.recLen) % 2 ^ 16 < 256 ^ 2 := Nat.mod_lt _ (by decide)
          rw [deRecLen, getLE_putLE hsum, hq.recLen, Nat.mod_eq_of_lt (by omega)]
        · have hlen : deNameLen (putLE buf (s + 4) 2 ((deRecLen buf s + r.recLen) % 2 ^ 16)) s =
              deNameLen buf s := by
            rw [deNameLen, putLE_out (Or.inr (by omega)), deNameLen]
          rw [deName, hlen, load_congr fun x h₁ _ => putLE_out (Or.inr (by omega))]
          exact hq.name
        · have h₁ := hqgood.aligned
          have h₂ := hgood.aligned
          dsimp only
          omega
        · dsimp only
          omega
        · rw [← Nat.add_assoc]
          exact hrest.congr fun x h₁ h₂ => putLE_out (Or.inr (by omega))
        · exact putLE_out (Or.inl (by omega))
      | false =>
        rw [List.any_cons, hhit, Bool.false_or] at hany
        obtain ⟨buf', heq, hfill, hbelow⟩ := ih (q := r) ⟨hr, hgood, hrest⟩
          (show rs.length ≤ fuel by rw [List.length_cons] at hfuel; omega) hany
        simp only [if_neg Bool.false_ne_true]
        refine ⟨buf', heq, ⟨?_, hqgood, hfill⟩, fun x hx => hbelow x (by omega)⟩
        exact hq.congr fun x h₁ h₂ => hbelow x (by omega)

/-- The loop of `ext2_remove_dir_entry` over a block that its records fill, when one hits. -/
theorem removeInBlock_some (h : RecsFill buf blockSize 0 rs) (hfuel : rs.length ≤ fuel)
    (hleft : blockSize ≤ left) (hsmall : blockSize < 2 ^ 16) (hname : 0 ∉ name)
    (hany : rs.any (DirRec.hits name) = true) :
    ∃ buf', removeInBlock buf blockSize left name fuel 0 none = some buf' ∧
      RecsFill buf' blockSize 0 (cutFirst name rs) := by
  cases rs with
  | nil => exact absurd hany (by simp)
  | cons r rs =>
    obtain ⟨hr, hgood, hrest⟩ := h
    have hle := hrest.le
    have hcovers := hgood.covers
    cases fuel with
    | zero => exact absurd hfuel (by simp)
    | succ fuel =>
      rw [removeInBlock, if_pos (by omega), hr.recLen, if_neg (by omega), hr.found hgood hname,
        cutFirst]
      cases hhit : r.hits name with
      | true =>
        simp only [if_true]
        refine ⟨_, rfl, ⟨?_, ?_, ?_⟩, ⟨hgood.aligned, hgood.covers, fun h => absurd rfl h⟩, ?_⟩
        · rw [deInode, getLE_putLE (by decide)]
        · rw [deRecLen, getLE_putLE_of_apart (Or.inr (by omega))]
          exact hr.recLen
        · have hlen : deNameLen (putLE buf 0 4 0) 0 = deNameLen buf 0 := by
            rw [deNameLen, putLE_out (Or.inr (by omega)), deNameLen]
          rw [deName, hlen, load_congr fun x h₁ _ => putLE_out (Or.inr (by omega))]
          exact hr.name
        · exact hrest.congr fun x h₁ h₂ => putLE_out (Or.inr (by omega))
      | false =>
        rw [List.any_cons, hhit, Bool.false_or] at hany
        obtain ⟨buf', heq, hfill, -⟩ := removeInBlock_after ⟨hr, hgood, hrest⟩
          (show rs.length ≤ fuel by rw [List.length_cons] at hfuel; omega) hleft hsmall hname hany
        simp only [if_neg Bool.false_ne_true]
        exact ⟨buf', heq, hfill⟩

theorem removeInBlock_none (h : RecsFill buf blockSize s rs) (hfuel : rs.length ≤ fuel)
    (hleft : blockSize ≤ left) (hname : 0 ∉ name) (hany : rs.any (DirRec.hits name) = false)
    (prev : Option Nat) : removeInBlock buf blockSize left name fuel s prev = none := by
  induction rs generalizing s fuel prev with
  | nil =>
    have hend : s = blockSize := h
    cases fuel with
    | zero => rfl
    | succ fuel =>
      rw [removeInBlock.eq_def]
      exact if_neg (by omega)
  | cons r rs ih =>
    obtain ⟨hr, hgood, hrest⟩ := h
    have hle := hrest.le
    have hcovers := hgood.covers
    rw [List.any_cons, Bool.or_eq_false_iff] at hany
    cases fuel with
    | zero => exact absurd hfuel (by simp)
    | succ fuel =>
      rw [removeInBlock.eq_def]
      dsimp only
      rw [if_pos (by omega), hr.recLen, if_neg (by omega), hr.found hgood hname, hany.1,
        if_neg Bool.false_ne_true]
      exact ih hrest (by rw [List.length_cons] at hfuel; omega) hany.2 _

theorem any_hits (rs : List DirRec) (name : List UInt8) :
    rs.any (DirRec.hits name) = (rs.filterMap DirRec.entry).any (named name) := by
  rw [List.any_filterMap]
  rfl

/-- The loop over the blocks from `l` on cuts the first entry with the name, if there is one. -/
theorem removeFromBlock_eq (h : DirOk v dir k recs) (hname : 0 ∉ name) (n : Nat) :
    ∀ l, l + n = k →
      ((((List.range' l n).flatMap recs).filterMap DirRec.entry).any (named name) = false ∧
        (removeFromBlock v dir name (n + 1) l).1 = v) ∨
      ∃ l₀ buf, l ≤ l₀ ∧ l₀ < k ∧
        (removeFromBlock v dir name (n + 1) l).1 = v.writeBlock (ext2GetInodeBlock v dir l₀) buf ∧
        RecsFill buf v.blockSize 0 (cutFirst name (recs l₀)) ∧
        ((List.range' l n).flatMap
          (Function.update recs l₀ (cutFirst name (recs l₀)))).filterMap DirRec.entry =
          (((List.range' l n).flatMap recs).filterMap DirRec.entry).eraseP (named name) := by
  induction n with
  | zero =>
    intro l hl
    refine Or.inl ⟨rfl, ?_⟩
    rw [removeFromBlock, if_neg (by rw [h.walked_lt]; omega)]
  | succ n ih =>
    intro l hl
    have hlk : l < k := by omega
    have hsmall : v.blockSize < 2 ^ 16 := by have := h.blockSize; omega
    rw [removeFromBlock, List.range'_succ, List.flatMap_cons, List.filterMap_append, List.any_append,
      List.eraseP_append]
    simp only [if_pos (h.walked_lt.mpr hlk), if_neg (h.mapped l hlk), List.flatMap_cons,
      List.filterMap_append]
    cases hany : (recs l).any (DirRec.hits name) with
    | true =>
      obtain ⟨buf, heq, hfill⟩ := removeInBlock_some (h.fill l hlk) (h.length_le hlk)
        (h.block_left hlk) hsmall hname hany
      refine Or.inr ⟨l, buf, Nat.le_refl l, hlk, by rw [heq], hfill, ?_⟩
      have hrest : (List.range' (l + 1) n).flatMap
          (Function.update recs l (cutFirst name (recs l))) =
          (List.range' (l + 1) n).flatMap recs := by
        rw [List.flatMap_def, List.flatMap_def]
        refine congrArg List.flatten (List.map_congr_left fun l' hl' => ?_)
        have := (List.mem_range'_1.mp hl').1
        exact Function.update_of_ne (by omega) ..
      rw [hrest, Function.update_self, entry_cutFirst, ← any_hits, hany, if_pos rfl]
    | false =>
      rw [removeInBlock_none (h.fill l hlk) (h.length_le hlk) (h.block_left hlk) hname hany,
        ← any_hits, hany, Bool.false_or]
      rcases ih (l + 1) (by omega) with ⟨hmiss, heq⟩ | ⟨l₀, buf, hle, hlt, heq, hfill, hcut⟩
      · exact Or.inl ⟨hmiss, heq⟩
      · refine Or.inr ⟨l₀, buf, by omega, hlt, heq, hfill, ?_⟩
        rw [hcut, Function.update_of_ne (by omega), if_neg Bool.false_ne_true]

/-- The directory with the records of one block rewritten. -/
theorem DirOk.writeBlock (h : DirOk v dir k recs) (hl : l < k) {rs : List DirRec}
    (hfill : RecsFill buf v.blockSize 0 rs) :
    DirOk (v.writeBlock (ext2GetInodeBlock v dir l) buf) dir k (Function.update recs l rs) := by
  have hthrough : ∀ l' < k, ∀ b ∈ lookupBlocks v dir l',
      (v.writeBlock (ext2GetInodeBlock v dir l) buf).blocks b = v.blocks b := by
    intro l' hl' b hb
    exact blocks_writeBlock_ne fun heq => h.apart l hl l' hl' (heq ▸ hb)
  have hget : ∀ l' < k, ext2GetInodeBlock (v.writeBlock (ext2GetInodeBlock v dir l) buf) dir l' =
      ext2GetInodeBlock v dir l' := fun l' hl' => ext2GetInodeBlock_congr rfl (hthrough l' hl')
  have hlook : ∀ l' < k, lookupBlocks (v.writeBlock (ext2GetInodeBlock v dir l) buf) dir l' =
      lookupBlocks v dir l' := fun l' hl' => lookupBlocks_congr rfl (hthrough l' hl')
  refine ⟨h.blockSize, h.size, h.size_lt, fun l' hl' => ?_, fun l₁ h₁ l₂ h₂ heq => ?_,
    fun l₁ h₁ l₂ h₂ => ?_, h.direct, fun l' hl' => ?_⟩
  · rw [hget l' hl']
    exact h.mapped l' hl'
  · rw [hget l₁ h₁, hget l₂ h₂] at heq
    exact h.distinct l₁ h₁ l₂ h₂ heq
  · rw [hget l₁ h₁, hlook l₂ h₂]
    exact h.apart l₁ h₁ l₂ h₂
  · rw [hget l' hl', blockSize_writeBlock]
    by_cases heq : l' = l
    · rw [heq, blocks_writeBlock_self, Function.update_self]
      exact hfill
    · rw [blocks_writeBlock_ne fun hsame => heq (h.distinct l' hl' l hl hsame),
        Function.update_of_ne heq]
      exact h.fill l' hl'

/-- What removing does to the directory: its first entry with the name is gone. -/
theorem DirOk.remove (h : DirOk v dir k recs) (hname : 0 ∉ name) :
    ∃ recs', DirOk (ext2RemoveDirEntry v dir name).1 dir k recs' ∧
      dirEntries recs' k = (dirEntries recs k).eraseP (named name) := by
  rw [ext2RemoveDirEntry, h.blocks_eq]
  simp only [dirEntries, List.range_eq_range']
  rcases removeFromBlock_eq h hname k 0 (Nat.zero_add k) with
    ⟨hmiss, heq⟩ | ⟨l₀, buf, -, hlt, heq, hfill, hcut⟩
  · refine ⟨recs, by rw [heq]; exact h, (List.eraseP_of_forall_not fun x hx => ?_).symm⟩
    have := List.any_eq_false.mp hmiss x hx
    exact this
  · rw [heq]
    exact ⟨_, h.writeBlock hlt hfill, hcut⟩

-- ---------------------------------------------------------------------------
-- The law
-- ---------------------------------------------------------------------------

variable {E : List (List UInt8 × Nat)}

/-- The entries of a directory are in use. -/
theorem inode_of_mem_dirEntries (h : x ∈ dirEntries recs k) : x.2 ≠ 0 := by
  obtain ⟨r, -, hr⟩ := List.mem_filterMap.mp h
  rw [DirRec.entry] at hr
  split at hr
  · rename_i hused
    rw [← Option.some.inj hr]
    exact hused.1
  · exact absurd hr (by simp)

theorem dirLookup_eq_zero_iff (h : ∀ x ∈ E, x.2 ≠ 0) :
    dirLookup E name = 0 ↔ E.countP (named name) = 0 := by
  induction E with
  | nil => exact iff_of_true rfl rfl
  | cons x E ih =>
    have hrest := ih fun y hy => h y (List.mem_cons_of_mem _ hy)
    rw [dirLookup] at hrest ⊢
    by_cases hx : x.1 = name
    · rw [List.find?_cons_of_pos (by simpa using hx), List.countP_cons_of_pos (by simpa [named] using hx)]
      exact iff_of_false (h x List.mem_cons_self) (Nat.succ_ne_zero _)
    · rw [List.find?_cons_of_neg (by simpa using hx),
        List.countP_cons_of_neg (by simpa [named] using hx)]
      exact hrest

/-- Cutting an entry does not change what other names find. -/
theorem dirLookup_eraseP (hother : other ≠ name) :
    dirLookup (E.eraseP (named name)) other = dirLookup E other := by
  induction E with
  | nil => rfl
  | cons x E ih =>
    by_cases hx : named name x = true
    · have hne : x.1 ≠ other := fun heq => hother (heq ▸ of_decide_eq_true hx)
      rw [List.eraseP_cons_of_pos hx, dirLookup, dirLookup,
        List.find?_cons_of_neg (by simpa using hne)]
    · rw [List.eraseP_cons_of_neg hx]
      rw [dirLookup] at ih ⊢
      by_cases hsame : x.1 = other
      · rw [List.find?_cons_of_pos (by simpa using hsame), dirLookup,
          List.find?_cons_of_pos (by simpa using hsame)]
      · rw [List.find?_cons_of_neg (by simpa using hsame), ih, dirLookup, dirLookup,
          List.find?_cons_of_neg (by simpa using hsame)]

theorem countP_eraseP (E : List (List UInt8 × Nat)) (name : List UInt8) :
    (E.eraseP (named name)).countP (named name) = E.countP (named name) - 1 := by
  induction E with
  | nil => rfl
  | cons x E ih =>
    by_cases hx : named name x = true
    · rw [List.eraseP_cons_of_pos hx, List.countP_cons_of_pos hx, Nat.add_sub_cancel]
    · rw [List.eraseP_cons_of_neg hx, List.countP_cons_of_neg hx, List.countP_cons_of_neg hx, ih]

/-- Some record has the room for a name of `n` bytes behind what it uses. -/
def HasRoom (recs : Nat → List DirRec) (k n : Nat) : Prop :=
  ∃ l < k, ∃ r ∈ recs l,
    (if r.inode = 0 then 0 else dirRecSize r.name.length) + dirRecSize n ≤ r.recLen

/-- A direct pointer is free, and a block for it. -/
def CanGrow (v : Ext2Volume) (k : Nat) : Prop := k < 12 ∧ v.supply ≠ []

/-- What is asked of `ext2_add_dir_entry`. -/
structure AddLaw (v : Ext2Volume) (dir : Ext2Inode) (k : Nat) (recs : Nat → List DirRec)
    (child : Nat) (name : List UInt8) (type : UInt8) : Prop where
  added : ∀ v' dir', ext2AddDirEntry v dir child name type = (v', dir', 1) →
    ∃ k' recs', DirOk v' dir' k' recs' ∧ ext2FindDirent v' dir' name = child ∧
      ∀ other, 0 ∉ other → other ≠ name → ext2FindDirent v' dir' other = ext2FindDirent v dir other
  fails : (ext2AddDirEntry v dir child name type).2.2 ≠ 1 →
    ¬ HasRoom recs k name.length ∧ ¬ CanGrow v k

/-- What is asked of `ext2_remove_dir_entry`. -/
structure RemoveLaw (v : Ext2Volume) (dir : Ext2Inode) (k : Nat) (name : List UInt8) : Prop where
  wellFormed : ∃ recs', DirOk (ext2RemoveDirEntry v dir name).1 dir k recs'
  gone : ext2FindDirent (ext2RemoveDirEntry v dir name).1 dir name = 0
  others : ∀ other, 0 ∉ other → other ≠ name →
    ext2FindDirent (ext2RemoveDirEntry v dir name).1 dir other = ext2FindDirent v dir other

theorem addLaw_iff (h : DirOk v dir k recs) (hfresh : FreshForDir v dir k) (hname : DirName name)
    (hchild : child ≠ 0) (hchild32 : child < 2 ^ 32) (hunused : ext2FindDirent v dir name = 0) :
    AddLaw v dir k recs child name type ↔ CanGrow v k ∨ ¬ HasRoom recs k name.length := by
  have hne := hname.pos
  constructor
  · intro hlaw
    by_cases hgrow : CanGrow v k
    · exact Or.inl hgrow
    · have hfails := h.add_fails child name type hgrow
      exact Or.inr (hlaw.fails (by rw [hfails]; exact Nat.zero_ne_one)).1
  · intro hcond
    by_cases hgrow : CanGrow v k
    · obtain ⟨hone, hok⟩ := h.add_succeeds hfresh hgrow.1 hgrow.2 hname hchild32 type
      refine ⟨fun v' dir' heq => ?_, fun hnot => absurd hone hnot⟩
      rw [heq] at hok
      refine ⟨_, _, hok, ?_, fun other hother hdiff => ?_⟩
      · rw [ext2FindDirent_eq h hname.chars, dirLookup] at hunused
        rw [ext2FindDirent_eq hok hname.chars, dirEntries_addRec hne hchild, dirLookup_append]
        cases hfind : (dirEntries recs k).find? fun e => e.1 = name with
        | none => simp [dirLookup]
        | some x =>
          rw [hfind] at hunused
          exact absurd hunused (inode_of_mem_dirEntries (List.mem_of_find?_eq_some hfind))
      · rw [ext2FindDirent_eq hok hother, ext2FindDirent_eq h hother, dirEntries_addRec hne hchild,
          dirLookup_append]
        have hnot : dirLookup [(name, child)] other = 0 := by
          simp [dirLookup, Ne.symm hdiff]
        rw [hnot, dirLookup]
    · have hfails := h.add_fails child name type hgrow
      refine ⟨fun v' dir' heq => ?_, fun _ => ⟨hcond.resolve_left hgrow, hgrow⟩⟩
      rw [hfails] at heq
      exact absurd (congrArg (·.2.2) heq) Nat.zero_ne_one

theorem removeLaw_iff (h : DirOk v dir k recs) (hname : DirName name) :
    RemoveLaw v dir k name ↔ (dirEntries recs k).countP (named name) ≤ 1 := by
  obtain ⟨recs', hok, hentries⟩ := h.remove hname.chars
  have hgone : ext2FindDirent (ext2RemoveDirEntry v dir name).1 dir name = 0 ↔
      (dirEntries recs k).countP (named name) ≤ 1 := by
    rw [ext2FindDirent_eq hok hname.chars,
      dirLookup_eq_zero_iff fun x hx => inode_of_mem_dirEntries hx, hentries, countP_eraseP]
    omega
  refine ⟨fun hlaw => hgone.mp hlaw.gone, fun hcount => ⟨⟨recs', hok⟩, hgone.mpr hcount,
    fun other hother hdiff => ?_⟩⟩
  rw [ext2FindDirent_eq hok hother, ext2FindDirent_eq h hother, hentries, dirLookup_eraseP hdiff]

end

/-- A directory of one block with a single record that takes all of it. -/
def oneBlockDir : Ext2Inode := ⟨1024, 0, 2, fun i => if i = 0 then 5 else 0⟩

def oneBlockVolume (supply : List Nat) : Ext2Volume :=
  ⟨1024, fun _ => putDirent (fun _ => 0) 0 2 1024 2 [46], fun b => b = 5, supply⟩

theorem oneBlock_ok (supply : List Nat) :
    DirOk (oneBlockVolume supply) oneBlockDir 1 fun _ => [⟨2, 1024, [46]⟩] := by
  have hzero : ∀ l < 1, l = 0 := fun l hl => Nat.lt_one_iff.mp hl
  have hsize : 1 * 1024 < 2 ^ 32 := by decide
  refine ⟨Or.inl rfl, rfl, hsize, fun l hl => ?_, fun l hl l' hl' _ => ?_, fun l hl l' hl' => ?_,
    fun i hi => ?_, fun l hl => ⟨recAt_putDirent (by decide) (by decide) (by decide),
      ⟨rfl, by decide, fun _ => by decide⟩, rfl⟩⟩
  · rw [hzero l hl]
    exact Nat.succ_ne_zero 4
  · rw [hzero l hl, hzero l' hl']
  · rw [hzero l' hl', lookupBlocks, if_pos (by decide)]
    exact List.not_mem_nil
  · by_cases hi0 : i = 0
    · rw [hi0]
      decide
    · simp only [oneBlockDir, if_neg hi0, true_iff]
      omega

theorem oneBlock_unused (supply : List Nat) :
    ext2FindDirent (oneBlockVolume supply) oneBlockDir [97] = 0 := by
  rw [ext2FindDirent_eq (oneBlock_ok supply) (by decide)]
  decide

end Lestra
