import Mathlib.Data.List.TakeWhile
import Lestra.Fs.Memfs

/-!
# FAT32: directory entries

`build_raw_entry` and `parse_dirent`, with `format_83_name` between the name of
an entry and its 11 bytes on disk. A name is the list of its characters before the
terminator.

The name is cut at its first dot, so that `.` has neither a base nor an extension:
it is written as eleven spaces.
-/

namespace Lestra

/-- `' '` -/
def space : UInt8 := 32

/-- `struct fat32_dirent` -/
structure Fat32Dirent where
  name : List UInt8
  attr : UInt8
  firstCluster : BitVec 32
  fileSize : BitVec 32
  isDir : Bool
deriving DecidableEq

/-- At most `n` characters, with spaces behind them. -/
def padded (n : Nat) (s : List UInt8) : List UInt8 :=
  s.take n ++ List.replicate (n - s.length) space

/-- `format_83_name` -/
def format83Name (name83 : List UInt8) : List UInt8 :=
  match name83.dropWhile (· ≠ dot) with
  | [] => padded 8 name83 ++ padded 3 []
  | _ :: ext => padded 8 (name83.takeWhile (· ≠ dot)) ++ padded 3 ext

/-- `(x >> (8 * k)) & 0xFF` -/
def fieldByte (x : BitVec 32) (k : Nat) : UInt8 := ⟨(x >>> (8 * k)).setWidth 8⟩

/-- The number in four bytes of an entry. -/
def fieldWord (b₀ b₁ b₂ b₃ : UInt8) : BitVec 32 :=
  b₀.toBitVec.setWidth 32 ||| b₁.toBitVec.setWidth 32 <<< 8 |||
    b₂.toBitVec.setWidth 32 <<< 16 ||| b₃.toBitVec.setWidth 32 <<< 24

/-- The bytes of `build_raw_entry` behind the name. -/
def rawFields (de : Fat32Dirent) : List UInt8 :=
  -- the attribute, then the reserved byte and a fixed time and date of creation
  [de.attr, 0, 0, 0x00, 0x60, 0x21, 0x46,
  -- the date of the last access
    0x21, 0x46,
    fieldByte de.firstCluster 2, fieldByte de.firstCluster 3,
  -- the time and date of the last write
    0x00, 0x60, 0x21, 0x46,
    fieldByte de.firstCluster 0, fieldByte de.firstCluster 1,
    fieldByte de.fileSize 0, fieldByte de.fileSize 1, fieldByte de.fileSize 2, fieldByte de.fileSize 3]

/-- `build_raw_entry` -/
def buildRawEntry (de : Fat32Dirent) : List UInt8 := format83Name de.name ++ rawFields de

/-- The name that `parse_dirent` puts together. -/
def parsedName (raw : List UInt8) : List UInt8 :=
  let base := (raw.take 8).takeWhile (· ≠ space)
  if raw.getD 8 0 ≠ space then base ++ dot :: ((raw.drop 8).take 3).takeWhile (· ≠ space) else base

/-- `parse_dirent` -/
def parseDirent (raw : List UInt8) : Except Int Fat32Dirent :=
  if raw.getD 0 0 = 0x00 then .error (-1)
  else if raw.getD 0 0 = 0xE5 then .error (-2)
  else if raw.getD 11 0 = 0x0F then .error (-3)
  else .ok {
    name := parsedName raw
    attr := raw.getD 11 0
    firstCluster := fieldWord (raw.getD 26 0) (raw.getD 27 0) (raw.getD 20 0) (raw.getD 21 0)
    fileSize := fieldWord (raw.getD 28 0) (raw.getD 29 0) (raw.getD 30 0) (raw.getD 31 0)
    isDir := raw.getD 11 0 &&& 0x10 ≠ 0 }

/-- The entries that `fat32_mkdir` writes into a new directory. -/
def dotEntry (newCluster : BitVec 32) : Fat32Dirent := ⟨[dot], 0x10, newCluster, 0#32, true⟩

def dotdotEntry (rootCluster : BitVec 32) : Fat32Dirent := ⟨[dot, dot], 0x10, rootCluster, 0#32, true⟩

-- ---------------------------------------------------------------------------
-- The names
-- ---------------------------------------------------------------------------

/-- A character of the base or the extension of a name. -/
def NameChar (ch : UInt8) : Prop := ch ≠ 0 ∧ ch ≠ space ∧ ch ≠ dot

/-- The base of a name does not begin with the mark of a deleted entry. -/
structure IsBase (base : List UInt8) : Prop where
  pos : base ≠ []
  le : base.length ≤ 8
  chars : ∀ ch ∈ base, NameChar ch
  head : base.head? ≠ some 0xE5

structure IsExtension (ext : List UInt8) : Prop where
  le : ext.length ≤ 3
  chars : ∀ ch ∈ ext, NameChar ch

/-- The names of the entries that the driver builds. -/
inductive DriverName : List UInt8 → Prop
  | plain {base} : IsBase base → DriverName base
  | dotted {base ext} : IsBase base → IsExtension ext → DriverName (base ++ dot :: ext)
  | self : DriverName [dot]
  | parent : DriverName [dot, dot]

/-- The last dot of the name is followed by no extension. -/
def EndsInDot (name : List UInt8) : Prop := name.getLast? = some dot ∧ name ≠ [dot, dot]

instance (name : List UInt8) : Decidable (EndsInDot name) := instDecidableAnd

-- ---------------------------------------------------------------------------
-- The eleven bytes
-- ---------------------------------------------------------------------------

section

variable {s base ext name raw : List UInt8} {n : Nat}

theorem length_padded : (padded n s).length = n := by
  rw [padded, List.length_append, List.length_take, List.length_replicate]
  omega

/-- Up to the first space lies what was padded. -/
theorem takeWhile_padded (hlen : s.length ≤ n) (hs : ∀ ch ∈ s, ch ≠ space) :
    (padded n s).takeWhile (· ≠ space) = s := by
  rw [padded, List.take_of_length_le hlen, List.takeWhile_append_of_pos (by simpa using hs)]
  cases n - s.length <;> simp

theorem head_padded (hn : 0 < n) : (padded n s).head? = some (s.head?.getD space) := by
  cases s with
  | nil =>
    rw [padded, List.take_nil, List.nil_append, List.length_nil, Nat.sub_zero]
    cases n with
    | zero => omega
    | succ n => rfl
  | cons ch s =>
    cases n with
    | zero => omega
    | succ n => rfl

/-- The bytes of a base and an extension. -/
def rawName (base ext : List UInt8) : List UInt8 := padded 8 base ++ padded 3 ext

/-- A base and an extension as `parse_dirent` joins them. -/
def joinName (base ext : List UInt8) : List UInt8 := if ext = [] then base else base ++ dot :: ext

theorem length_rawName : (rawName base ext).length = 11 := by
  rw [rawName, List.length_append, length_padded, length_padded]

theorem parsedName_rawName (hbase : base.length ≤ 8) (hext : ext.length ≤ 3)
    (hbs : ∀ ch ∈ base, ch ≠ space) (hes : ∀ ch ∈ ext, ch ≠ space) (fields : List UInt8) :
    parsedName (rawName base ext ++ fields) = joinName base ext := by
  have htake : (rawName base ext ++ fields).take 8 = padded 8 base := by
    rw [rawName, List.append_assoc, List.take_left' length_padded]
  have hdrop : (rawName base ext ++ fields).drop 8 = padded 3 ext ++ fields := by
    rw [rawName, List.append_assoc, List.drop_left' length_padded]
  have hbyte : (rawName base ext ++ fields).getD 8 0 = ext.head?.getD space := by
    rw [List.getD_eq_getElem?_getD, ← List.head?_drop, hdrop, List.head?_append,
      head_padded (by decide)]
    rfl
  rw [parsedName, htake, hdrop, hbyte, List.take_left' length_padded, takeWhile_padded hbase hbs,
    takeWhile_padded hext hes, joinName]
  cases ext with
  | nil => rfl
  | cons ch ext =>
    have hch : (ch :: ext).head?.getD space ≠ space := hes ch (List.mem_cons_self ..)
    rw [if_pos hch, if_neg (List.cons_ne_nil ch ext)]

theorem getD_fields (fields : List UInt8) (k : Nat) :
    (rawName base ext ++ fields).getD (11 + k) 0 = fields.getD k 0 := by
  rw [List.getD_eq_getElem?_getD, List.getElem?_append_right (by rw [length_rawName]; omega),
    length_rawName, Nat.add_sub_cancel_left, List.getD_eq_getElem?_getD]

-- ---------------------------------------------------------------------------
-- Cutting a name
-- ---------------------------------------------------------------------------

theorem format83Name_plain (hs : ∀ ch ∈ s, ch ≠ dot) : format83Name s = rawName s [] := by
  have hdrop : s.dropWhile (· ≠ dot) = [] := by
    rw [List.dropWhile_eq_nil_iff]
    simpa using hs
  rw [format83Name, hdrop]
  rfl

theorem format83Name_dotted (hbase : ∀ ch ∈ base, ch ≠ dot) :
    format83Name (base ++ dot :: ext) = rawName base ext := by
  have hdrop : (base ++ dot :: ext).dropWhile (· ≠ dot) = dot :: ext := by
    rw [List.dropWhile_append_of_pos (by simpa using hbase)]
    rfl
  have htake : (base ++ dot :: ext).takeWhile (· ≠ dot) = base := by
    rw [List.takeWhile_append_of_pos (by simpa using hbase)]
    simp
  rw [format83Name, hdrop, htake]
  rfl

-- ---------------------------------------------------------------------------
-- The fields
-- ---------------------------------------------------------------------------

theorem fieldWord_fieldByte (x : BitVec 32) :
    fieldWord (fieldByte x 0) (fieldByte x 1) (fieldByte x 2) (fieldByte x 3) = x := by
  refine BitVec.eq_of_getLsbD_eq fun i hi => ?_
  simp only [fieldWord, fieldByte, BitVec.getLsbD_or, BitVec.getLsbD_shiftLeft,
    BitVec.getLsbD_setWidth, BitVec.getLsbD_ushiftRight]
  -- the byte that holds bit `i`
  rcases Nat.lt_or_ge i 8 with h | h
  · grind
  rcases Nat.lt_or_ge i 16 with h' | h'
  · grind
  rcases Nat.lt_or_ge i 24 with h'' | h''
  · grind
  · grind

/-- The base and the extension that a name is written with. -/
structure Written (name base ext : List UInt8) : Prop where
  format : format83Name name = rawName base ext
  base_le : base.length ≤ 8
  ext_le : ext.length ≤ 3
  base_chars : ∀ ch ∈ base, ch ≠ space
  ext_chars : ∀ ch ∈ ext, ch ≠ space
  head_zero : base.head? ≠ some 0
  head_deleted : base.head? ≠ some 0xE5

theorem Written.parsedName (h : Written name base ext) (fields : List UInt8) :
    parsedName (format83Name name ++ fields) = joinName base ext := by
  rw [h.format]
  exact parsedName_rawName h.base_le h.ext_le h.base_chars h.ext_chars fields

theorem Written.first (h : Written name base ext) (fields : List UInt8) :
    (format83Name name ++ fields).getD 0 0 = base.head?.getD space := by
  rw [h.format, rawName, List.append_assoc, List.getD_eq_getElem?_getD, ← List.head?_eq_getElem?,
    List.head?_append, head_padded (by decide)]
  rfl

/-- An entry that is written comes back with its name put together from the two parts. -/
theorem Written.parse {de : Fat32Dirent} (h : Written de.name base ext) (hattr : de.attr ≠ 0x0F)
    (hdir : de.isDir = decide (de.attr &&& 0x10 ≠ 0)) :
    parseDirent (buildRawEntry de) = .ok { de with name := joinName base ext } := by
  have hfield : ∀ k, (buildRawEntry de).getD (11 + k) 0 = (rawFields de).getD k 0 := by
    intro k
    rw [buildRawEntry, h.format]
    exact getD_fields _ k
  have hzero : (buildRawEntry de).getD 0 0 ≠ 0 := by
    rw [buildRawEntry, h.first]
    cases hhead : base.head? with
    | none => decide
    | some ch => exact fun hch => h.head_zero (hhead.trans (congrArg some hch))
  have hdeleted : (buildRawEntry de).getD 0 0 ≠ 0xE5 := by
    rw [buildRawEntry, h.first]
    cases hhead : base.head? with
    | none => decide
    | some ch => exact fun hch => h.head_deleted (hhead.trans (congrArg some hch))
  have hname : Lestra.parsedName (buildRawEntry de) = joinName base ext := h.parsedName _
  rw [parseDirent, if_neg hzero, if_neg hdeleted, if_neg (by rw [hfield 0]; exact hattr), hname]
  simp only [hfield 0, hfield 9, hfield 10, hfield 15, hfield 16, hfield 17, hfield 18, hfield 19,
    hfield 20, rawFields, List.getD_cons_zero, List.getD_cons_succ]
  rw [fieldWord_fieldByte, fieldWord_fieldByte, ← hdir]

-- ---------------------------------------------------------------------------
-- The round trip
-- ---------------------------------------------------------------------------

theorem IsBase.written (h : IsBase base) {ext : List UInt8} (hext : IsExtension ext)
    (hname : format83Name name = rawName base ext) : Written name base ext where
  format := hname
  base_le := h.le
  ext_le := hext.le
  base_chars ch hch := (h.chars ch hch).2.1
  ext_chars ch hch := (hext.chars ch hch).2.1
  head_zero hhead := (h.chars 0 (List.mem_of_mem_head? hhead)).1 rfl
  head_deleted := h.head

theorem isExtension_nil : IsExtension [] := ⟨by decide, nofun⟩

/-- Every name is written with a base and an extension that join to it, unless it ends in a dot. -/
theorem DriverName.written (h : DriverName name) :
    ∃ base ext, Written name base ext ∧ (joinName base ext = name ↔ ¬ EndsInDot name) := by
  cases h with
  | @plain base hbase =>
    refine ⟨name, [], hbase.written isExtension_nil
      (format83Name_plain fun ch hch => (hbase.chars ch hch).2.2), iff_of_true rfl ?_⟩
    rintro ⟨hlast, -⟩
    exact (hbase.chars dot (List.mem_of_getLast? hlast)).2.2 rfl
  | @dotted base ext hbase hext =>
    refine ⟨base, ext, hbase.written hext
      (format83Name_dotted fun ch hch => (hbase.chars ch hch).2.2), ?_⟩
    cases ext with
    | nil =>
      refine iff_of_false (fun hjoin => ?_) (not_not_intro ⟨by simp, fun hname => ?_⟩)
      · rw [joinName, if_pos rfl] at hjoin
        exact absurd (congrArg List.length hjoin) (by simp)
      · obtain ⟨ch, rest, rfl⟩ := List.exists_cons_of_ne_nil hbase.pos
        exact (hbase.chars dot (by simp_all)).2.2 rfl
    | cons ch ext =>
      refine iff_of_true (by rw [joinName, if_neg (List.cons_ne_nil ch ext)]) ?_
      rintro ⟨hlast, -⟩
      rw [List.getLast?_append, List.getLast?_cons_cons] at hlast
      have hmem : dot ∈ ch :: ext := List.mem_of_getLast? (by simpa using hlast)
      exact (hext.chars dot hmem).2.2 rfl
  | self => exact ⟨[], [], ⟨rfl, by decide, by decide, nofun, nofun, by decide, by decide⟩, by decide⟩
  | parent =>
    have hspace : ∀ ch ∈ [dot], ch ≠ space := List.forall_mem_singleton.mpr (by decide)
    exact ⟨[], [dot], ⟨rfl, by decide, by decide, nofun, hspace, by decide, by decide⟩, by decide⟩

theorem DriverName.ne_nil (h : DriverName name) : name ≠ [] := by
  cases h with
  | plain hbase => exact hbase.pos
  | dotted hbase hext => exact List.append_ne_nil_of_right_ne_nil _ (List.cons_ne_nil _ _)
  | self => exact List.cons_ne_nil _ _
  | parent => exact List.cons_ne_nil _ _

/-- The name that is read back: nothing for `.`, the name itself for one that does not end in
a dot. -/
theorem DriverName.readBack (h : DriverName name) (hdot : EndsInDot name → name = [dot]) :
    parsedName (format83Name name) = if name = [dot] then [] else name := by
  by_cases hself : name = [dot]
  · subst hself
    decide
  · obtain ⟨base, ext, hwritten, hjoin⟩ := h.written
    have hread := hwritten.parsedName []
    rw [List.append_nil] at hread
    rw [if_neg hself, hread, hjoin]
    exact fun hends => hself (hdot hends)

theorem format83Name_injective {name' : List UInt8} (h : DriverName name) (h' : DriverName name')
    (hdot : EndsInDot name → name = [dot]) (hdot' : EndsInDot name' → name' = [dot])
    (hsame : format83Name name = format83Name name') : name = name' := by
  have hread := h.readBack hdot
  rw [hsame, h'.readBack hdot'] at hread
  split at hread <;> split at hread
  · simp_all
  · exact absurd hread.symm h.ne_nil
  · exact absurd hread h'.ne_nil
  · exact hread.symm

end

/--
**Directory entries.** An entry that the driver builds is read back as it was exactly
when its name does not end in a dot, `..` apart: the dot of `.` is lost, and so is one
that no extension follows. The names that have no such dot, and `.`, are written
differently from one another.
-/
theorem fat32_dirent_read_back (de : Fat32Dirent) (hname : DriverName de.name)
    (hattr : de.attr ≠ 0x0F) (hdir : de.isDir = decide (de.attr &&& 0x10 ≠ 0)) :
    (parseDirent (buildRawEntry de) = .ok de ↔ ¬ EndsInDot de.name) ∧
    ∀ name name', DriverName name → DriverName name' → (EndsInDot name → name = [dot]) →
      (EndsInDot name' → name' = [dot]) → format83Name name = format83Name name' →
        name = name' := by
  refine ⟨?_, fun name name' => format83Name_injective⟩
  obtain ⟨base, ext, hwritten, hjoin⟩ := hname.written
  rw [hwritten.parse hattr hdir, ← hjoin]
  constructor
  · intro hde
    exact congrArg Fat32Dirent.name (Except.ok.inj hde)
  · intro hde
    rw [hde]

/-- `A.B`, a file of three bytes at cluster 5. -/
def fileAB : Fat32Dirent := ⟨[65, dot, 66], 0x20, 5#32, 3#32, false⟩

theorem fat32_dirent_read_back_file :
    (parseDirent (buildRawEntry fileAB) = .ok fileAB ↔ ¬ EndsInDot fileAB.name) ∧
    (format83Name [dot] = format83Name [dot, dot] → ([dot] : List UInt8) = [dot, dot]) := by
  have hbase : IsBase [65] := ⟨by decide, by decide, by simp [NameChar]; decide, by decide⟩
  have hext : IsExtension [66] := ⟨by decide, by simp [NameChar]; decide⟩
  have hread := fat32_dirent_read_back fileAB (.dotted hbase hext) (by decide) (by decide)
  exact ⟨hread.1, hread.2 [dot] [dot, dot] .self .parent (fun _ => rfl) (by decide)⟩

/-- The entry `.` of a new directory is read back without a name. -/
theorem fat32_dot_entry_loses_name :
    parseDirent (buildRawEntry (dotEntry 5#32)) = .ok { dotEntry 5#32 with name := [] } ∧
      parseDirent (buildRawEntry (dotEntry 5#32)) ≠ .ok (dotEntry 5#32) := by
  decide

end Lestra
