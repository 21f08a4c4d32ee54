import Lestra.Fs.Tarfs
import Mathlib.Data.List.TakeWhile

/-!
# tarfs and the archive

A ustar archive is a list of members, each a header block and the content in whole blocks,
with two empty blocks at the end.

* `TarArchive.Wf` — the headers say what the members are
* `TarServes` — every regular file is opened by its path and read back, and no path opens
  that does not lead to a regular file
* `tarfs_serves_archive` — when it holds
-/

namespace Lestra

-- ---------------------------------------------------------------------------
-- Archives
-- ---------------------------------------------------------------------------

/-- A member: its path name, its type, the name it links to, and its content. -/
structure TarMember where
  header : List UInt8
  name : List UInt8
  typeflag : UInt8
  linkname : List UInt8
  content : List UInt8
deriving DecidableEq

/-- The member is a regular file. -/
def TarMember.Regular (m : TarMember) : Prop := isRegularType m.typeflag = true

/-- The member is a symlink. -/
def TarMember.Symlink (m : TarMember) : Prop := isSymlinkType m.typeflag = true

instance (m : TarMember) : Decidable m.Regular := inferInstanceAs (Decidable (_ = true))

instance (m : TarMember) : Decidable m.Symlink := inferInstanceAs (Decidable (_ = true))

/-- `len` bytes of the header at `off`. -/
def field (header : List UInt8) (off len : Nat) : List UInt8 := (header.drop off).take len

/-- A name in a field of 100 bytes, with a NUL behind it only when there is room. -/
structure NameField (bytes name : List UInt8) : Prop where
  fits : name.length ≤ 100
  bytes : bytes = name ++ List.replicate (100 - name.length) 0
  noNul : 0 ∉ name

/-- A number in octal digits, ended by spaces or NULs. -/
def OctalField (bytes : List UInt8) (n : Nat) : Prop :=
  ∃ digits fill, bytes = digits ++ fill ∧ (∀ b ∈ digits, isOctal b) ∧ 6 ≤ digits.length ∧
    fill ≠ [] ∧ (∀ b ∈ fill, b = 0 ∨ b = 0x20) ∧ octalValue digits = n

/-- The header block of ustar: the name, the mode, the size, the type, the linked name, the
magic number. A symlink has no content. -/
structure TarMember.Wf (m : TarMember) : Prop where
  block : m.header.length = tarBlockSize
  name : NameField (field m.header 0 100) m.name
  named : m.name ≠ []
  mode : ∃ mode, OctalField (field m.header 100 8) mode
  size : OctalField (field m.header 124 12) m.content.length
  typeflag : m.header.getD 156 0 = m.typeflag
  linkname : NameField (field m.header 157 100) m.linkname
  magic : field m.header 257 6 = [0x75, 0x73, 0x74, 0x61, 0x72, 0]
  symlink : m.Symlink → m.content = []

/-- The header and the content in whole blocks. -/
def TarMember.bytes (m : TarMember) : List UInt8 :=
  m.header ++ m.content ++ List.replicate (tarPadded m.content.length - m.content.length) 0

/-- The members, and what follows the two empty blocks after them. -/
structure TarArchive where
  members : List TarMember
  trailer : List UInt8

def TarArchive.bytes (a : TarArchive) : List UInt8 :=
  a.members.flatMap TarMember.bytes ++ List.replicate (2 * tarBlockSize) 0 ++ a.trailer

structure TarArchive.Wf (a : TarArchive) : Prop where
  members : ∀ m ∈ a.members, m.Wf
  distinct : (a.members.map TarMember.name).Nodup
  count : a.members.length ≤ maxTarfsEntries

-- ---------------------------------------------------------------------------
-- What the archive says
-- ---------------------------------------------------------------------------

/-- The members with the offsets of their contents. -/
def placed : Nat → List TarMember → List (Nat × TarMember)
  | _, [] => []
  | off, m :: ms => (off + tarBlockSize, m) :: placed (off + m.bytes.length) ms

/-- The path without the `./` at its start and without the slashes after it. -/
def pathName (path : List UInt8) : List UInt8 :=
  (if path.take 2 = [dot, slash] then path.drop 2 else path).dropWhile (· = slash)

/-- At most `n` symlinks lead from the path to the regular file. -/
inductive LeadsTo (members : List TarMember) : Nat → List UInt8 → TarMember → Prop where
  | file {n : Nat} {path : List UInt8} {m : TarMember} (hm : m ∈ members) (hreg : m.Regular)
      (hname : pathName path = pathName m.name) : LeadsTo members n path m
  | link {n : Nat} {path next : List UInt8} {s m : TarMember} (hs : s ∈ members)
      (hsym : s.Symlink) (hname : pathName path = pathName s.name)
      (hnext : joinTarget path s.linkname = some next) (hrest : LeadsTo members n next m) :
      LeadsTo members (n + 1) path m

/-- The content in pieces of the sizes that the reads ask for. -/
def pieces (content : List UInt8) : List Nat → List (List UInt8)
  | [] => []
  | count :: counts => content.take count :: pieces (content.drop count) counts

/-- The member whose content is at `off` is opened by its path name, and reads of any sizes
return its content. -/
def TarServed (t : Tarfs) (off : Nat) (m : TarMember) : Prop :=
  ∃ i e, (tarfsOpen t m.name).2 = some i ∧
    t.entries[((tarfsOpen t m.name).1.opens i).entryIdx]? = some e ∧ e.offset = off ∧
    ∀ counts, tarfsReads (tarfsOpen t m.name).1 i counts = (pieces m.content counts).map some

/-- tarfs serves the archive: its regular files, and no other path. -/
structure TarServes (a : TarArchive) : Prop where
  files : ∀ p ∈ placed 0 a.members, p.2.Regular → TarServed (tarfsInit a.bytes) p.1 p.2
  others : ∀ path, (tarfsOpen (tarfsInit a.bytes) path).2 ≠ none →
    ∃ m, LeadsTo a.members 9 (normalizeName path) m

-- ---------------------------------------------------------------------------
-- The condition
-- ---------------------------------------------------------------------------

/-- The member gets an entry. -/
def TarMember.Indexed (m : TarMember) : Prop := m.Regular ∨ m.Symlink

instance (m : TarMember) : Decidable m.Indexed := inferInstanceAs (Decidable (_ ∨ _))

/-- No name starts with three slashes, with or without `./` before them, and the names of
symlinks and their targets end in their fields. -/
structure LinksFit (a : TarArchive) : Prop where
  plain : ∀ m ∈ a.members, m.Indexed → normalizeName (normalizeName m.name) = normalizeName m.name
  name : ∀ m ∈ a.members, m.Symlink → m.name.length < 100
  target : ∀ m ∈ a.members, m.Symlink → m.linkname.length < 100

/-- The name of a regular file ends in its field, is more than the root, and no member
before it has a name that is the same path. -/
def RegularsFit (a : TarArchive) : Prop :=
  ∀ before m after, a.members = before ++ m :: after → m.Regular →
    m.name.length < 100 ∧ normalizeName m.name ≠ [slash] ∧
      ∀ m' ∈ before, m'.Indexed → normalizeName m'.name ≠ normalizeName m.name

-- ---------------------------------------------------------------------------
-- Names
-- ---------------------------------------------------------------------------

section Names

variable {s d : List UInt8}

theorem stripRoot_slash (d : List UInt8) : stripRoot (slash :: d) = d := by
  unfold stripRoot
  have hne : (slash :: d).take 2 ≠ [dot, slash] := by
    intro h
    rw [List.take_succ_cons] at h
    exact absurd (List.cons.inj h).1 (by decide)
  dsimp only
  rw [if_neg hne]
  rfl

theorem length_stripRoot : (stripRoot s).length ≤ s.length := by
  unfold stripRoot
  dsimp only
  split
  · split
    · rw [List.length_tail, List.length_drop]
      omega
    · rw [List.length_drop]
      omega
  · split
    · rw [List.length_tail]
      omega
    · exact Nat.le_refl _

theorem normalizeName_slash_cons (s : List UInt8) :
    ∃ d, normalizeName s = slash :: d ∧ d.length ≤ 255 := by
  have hlen : ((stripRoot s).take 255).length ≤ 255 := List.length_take_le ..
  unfold normalizeName
  dsimp only
  split
  · rename_i h
    obtain ⟨d, hd⟩ := List.head?_eq_some_iff.mp h
    rw [hd] at hlen ⊢
    exact ⟨d, rfl, Nat.le_of_succ_le hlen⟩
  · exact ⟨_, rfl, hlen⟩

/-- The name of a path that starts with a slash. -/
theorem normalizeName_rooted (hlen : d.length ≤ 255) :
    normalizeName (slash :: d) = if d.head? = some slash then d else slash :: d := by
  unfold normalizeName
  rw [stripRoot_slash, List.take_of_length_le hlen]

theorem length_normalizeName : (normalizeName s).length ≤ s.length + 1 := by
  have hlen := (List.length_take_le' 255 (stripRoot s)).trans (length_stripRoot (s := s))
  unfold normalizeName
  dsimp only
  split
  · omega
  · rw [List.length_cons]
    omega

theorem pathName_rooted (d : List UInt8) : pathName (slash :: d) = d.dropWhile (· = slash) := by
  unfold pathName
  have hne : (slash :: d).take 2 ≠ [dot, slash] := by
    intro h
    rw [List.take_succ_cons] at h
    exact absurd (List.cons.inj h).1 (by decide)
  rw [if_neg hne, List.dropWhile_cons_of_pos (by decide)]

/-- Normalising changes no path, when nothing is cut. -/
theorem pathName_normalizeName (hlen : s.length ≤ 255) :
    pathName (normalizeName s) = pathName s := by
  have hdrop : ∀ d : List UInt8, d.length ≤ 255 →
      pathName (if (d.take 255).head? = some slash then d.take 255 else slash :: d.take 255) =
        d.dropWhile (· = slash) := by
    intro d hd
    rw [List.take_of_length_le hd]
    split
    · rename_i h
      obtain ⟨d', rfl⟩ := List.head?_eq_some_iff.mp h
      rw [pathName_rooted, List.dropWhile_cons_of_pos (by decide)]
    · exact pathName_rooted d
  have hstrip := (length_stripRoot (s := s)).trans hlen
  have htail : ∀ src : List UInt8, (if src.head? = some slash then src.tail else src).dropWhile
      (· = slash) = src.dropWhile (· = slash) := by
    intro src
    split
    · rename_i h
      obtain ⟨d', rfl⟩ := List.head?_eq_some_iff.mp h
      rw [List.tail_cons, List.dropWhile_cons_of_pos (by decide)]
    · rfl
  rw [normalizeName, hdrop _ hstrip, stripRoot, pathName]
  exact htail _

/-- A path that `tarfs_resolve_symlink` follows. -/
def RootedPath (path : List UInt8) : Prop := ∃ d, path = slash :: d ∧ d.length ≤ 255

theorem normalizeName_isRooted (s : List UInt8) : RootedPath (normalizeName s) :=
  normalizeName_slash_cons s

theorem RootedPath.pathName {path : List UInt8} (h : RootedPath path) :
    pathName (normalizeName path) = Lestra.pathName path := by
  obtain ⟨d, rfl, hlen⟩ := h
  rw [normalizeName_rooted hlen]
  split
  · rename_i hd
    obtain ⟨d', rfl⟩ := List.head?_eq_some_iff.mp hd
    rw [pathName_rooted, pathName_rooted, List.dropWhile_cons_of_pos (p := (· = slash)) (by decide)]
  · rfl

theorem dirPart_prefix (path : List UInt8) : dirPart path <+: path := by
  unfold dirPart
  have hsuffix := List.dropWhile_suffix (l := path.reverse) (· ≠ slash)
  rw [← List.reverse_suffix, List.reverse_reverse]
  exact hsuffix

theorem dirPart_ne_nil {path : List UInt8} (h : slash ∈ path) : dirPart path ≠ [] := by
  unfold dirPart
  rw [Ne, List.reverse_eq_nil_iff, List.dropWhile_eq_nil_iff]
  intro hall
  exact absurd rfl (of_decide_eq_true (hall slash (List.mem_reverse.mpr h)))

theorem dirPart_rooted {path : List UInt8} (h : RootedPath path) :
    ∃ d, dirPart (path.take 255) = slash :: d := by
  obtain ⟨d, rfl, -⟩ := h
  rw [List.take_succ_cons]
  have hne : dirPart (slash :: d.take 254) ≠ [] := dirPart_ne_nil List.mem_cons_self
  obtain ⟨rest, hrest⟩ := dirPart_prefix (slash :: d.take 254)
  cases hdir : dirPart (slash :: d.take 254) with
  | nil => exact absurd hdir hne
  | cons b bs =>
    rw [hdir] at hrest
    exact ⟨bs, by rw [(List.cons.inj hrest).1]⟩

theorem joinTarget_rooted {current target next : List UInt8} (hrooted : RootedPath current)
    (h : joinTarget current target = some next) : RootedPath next := by
  unfold joinTarget at h
  split at h
  · rename_i habs
    obtain ⟨d, rfl⟩ := List.head?_eq_some_iff.mp habs
    rw [List.take_succ_cons] at h
    exact ⟨d.take 254, (Option.some.inj h).symm, (List.length_take_le ..).trans (by omega)⟩
  · obtain ⟨d, hd⟩ := dirPart_rooted hrooted
    have hmem : slash ∈ current.take 255 := by
      obtain ⟨c, rfl, -⟩ := hrooted
      exact List.mem_cons_self
    rw [if_pos hmem, hd] at h
    dsimp only at h
    split at h
    · exact absurd h (Option.some_ne_none _).symm
    · rename_i hlen
      rw [List.length_cons] at hlen
      refine ⟨d ++ target, (Option.some.inj h).symm, ?_⟩
      rw [List.length_append]
      omega

theorem le_length_stripRoot : s.length - 3 ≤ (stripRoot s).length := by
  unfold stripRoot
  dsimp only
  split
  · split
    · rw [List.length_tail, List.length_drop]
      omega
    · rw [List.length_drop]
      omega
  · split
    · rw [List.length_tail]
      omega
    · omega

theorem le_length_normalizeName : min 255 (s.length - 3) ≤ (normalizeName s).length := by
  have hle := le_length_stripRoot (s := s)
  have htake : ((stripRoot s).take 255).length = min 255 (stripRoot s).length := List.length_take ..
  unfold normalizeName
  dsimp only
  split
  · omega
  · rw [List.length_cons]
    omega

theorem stripRoot_append (ext : List UInt8) (hlen : 3 ≤ s.length) :
    stripRoot (s ++ ext) = stripRoot s ++ ext := by
  obtain ⟨a, b, c, d, rfl⟩ : ∃ a b c d, s = a :: b :: c :: d := by
    match s, hlen with
    | a :: b :: c :: d, _ => exact ⟨a, b, c, d, rfl⟩
  have htake : ∀ rest : List UInt8, (a :: b :: c :: rest).take 2 = [a, b] := fun _ => rfl
  unfold stripRoot
  rw [List.cons_append, List.cons_append, List.cons_append, htake, htake]
  by_cases hdot : [a, b] = [dot, slash]
  · rw [if_pos hdot, if_pos hdot]
    show (if (c :: (d ++ ext)).head? = some slash then (c :: (d ++ ext)).tail else c :: (d ++ ext)) =
      (if (c :: d).head? = some slash then (c :: d).tail else c :: d) ++ ext
    rw [List.head?_cons, List.head?_cons]
    split <;> rfl
  · rw [if_neg hdot, if_neg hdot]
    dsimp only
    rw [List.head?_cons, List.head?_cons]
    split <;> rfl

/-- A longer name is normalised to a longer path. -/
theorem normalizeName_append (ext : List UInt8) (hlen : 4 ≤ s.length) (hshort : s.length ≤ 255) :
    ∃ k, normalizeName (s ++ ext) = normalizeName s ++ ext.take k := by
  have hle := (length_stripRoot (s := s)).trans hshort
  refine ⟨255 - (stripRoot s).length, ?_⟩
  unfold normalizeName
  rw [stripRoot_append ext (by omega), List.take_append, List.take_of_length_le hle]
  have hhead : (stripRoot s ++ ext.take (255 - (stripRoot s).length)).head? =
      (stripRoot s).head? := by
    have hpos := le_length_stripRoot (s := s)
    cases hstrip : stripRoot s with
    | nil =>
      rw [hstrip, List.length_nil] at hpos
      omega
    | cons b bs => rfl
  dsimp only
  rw [hhead]
  split <;> rfl

/-- Normalising a path twice does nothing more, when it does not start with two slashes. -/
theorem normalizeName_plain_iff (hlen : d.length ≤ 255) :
    normalizeName (slash :: d) = slash :: d ↔ d.head? ≠ some slash := by
  rw [normalizeName_rooted hlen]
  split
  · rename_i h
    refine ⟨fun heq => ?_, fun hne => absurd h hne⟩
    have hsame := congrArg List.length heq
    rw [List.length_cons] at hsame
    omega
  · rename_i h
    exact ⟨fun _ => h, fun _ => rfl⟩

theorem length_pathName : (pathName s).length ≤ s.length := by
  unfold pathName
  refine (List.dropWhile_suffix _).length_le.trans ?_
  split
  · rw [List.length_drop]
    omega
  · exact Nat.le_refl _

theorem dropWhile_head (h : d.head? ≠ some slash) : d.dropWhile (· = slash) = d := by
  cases d with
  | nil => rfl
  | cons b bs =>
    refine List.dropWhile_cons_of_neg fun hb => h ?_
    rw [of_decide_eq_true hb]
    rfl

/-- The path under which a name is indexed that fills its field. -/
theorem full_key {name ext : List UInt8} (hlen : name.length = 100) (hext : 6 ≤ ext.length)
    (hplain : normalizeName (normalizeName name) = normalizeName name) :
    ∃ key, (normalizeName (name ++ ext)).take 255 = slash :: key ∧ key.length ≤ 254 ∧
      key.head? ≠ some slash ∧ 102 ≤ key.length := by
  obtain ⟨k, hk⟩ := normalizeName_append ext (s := name) (by omega) (by omega)
  obtain ⟨d, hd, hdlen⟩ := normalizeName_slash_cons name
  have hlong := le_length_normalizeName (s := name ++ ext)
  have hself := le_length_normalizeName (s := name)
  rw [hd, normalizeName_plain_iff hdlen] at hplain
  rw [hk, hd, List.cons_append, List.length_cons, List.length_append] at hlong
  rw [hd, List.length_cons] at hself
  refine ⟨(d ++ ext.take k).take 254, ?_, List.length_take_le .., ?_, ?_⟩
  · rw [hk, hd]
    rfl
  · cases d with
    | nil =>
      rw [List.length_nil] at hself
      omega
    | cons b bs => exact hplain
  · rw [List.length_take]
    omega

end Names

-- ---------------------------------------------------------------------------
-- Headers
-- ---------------------------------------------------------------------------

section Header

variable {m : TarMember}

theorem ne_zero_of_octal {b : UInt8} (h : isOctal b) : b ≠ 0 := by
  rintro rfl
  exact absurd h (by decide)

theorem all_ne_zero {name : List UInt8} (h : 0 ∉ name) :
    ∀ b ∈ name, decide (b ≠ 0) = true := fun b hb => by
  refine decide_eq_true fun hzero => h ?_
  rw [← hzero]
  exact hb

/-- A name that ends in its field. -/
theorem cString_field {header rest name : List UInt8} (h : NameField (header.take 100) name)
    (hlen : name.length < 100) : cString (header.take 100 ++ rest) = name := by
  obtain ⟨k, hk⟩ : ∃ k, 100 - name.length = k + 1 := ⟨99 - name.length, by omega⟩
  rw [cString, h.bytes, hk, List.replicate_succ, List.append_assoc, List.cons_append,
    List.takeWhile_append_of_pos (all_ne_zero h.noNul),
    List.takeWhile_cons_of_neg (by decide), List.append_nil]

/-- A name that fills its field goes on with what follows. -/
theorem cString_full {header rest name : List UInt8} (h : NameField (header.take 100) name)
    (hlen : name.length = 100) : cString (header.take 100 ++ rest) = name ++ cString rest := by
  rw [cString, h.bytes, hlen, Nat.sub_self, List.replicate_zero, List.append_nil,
    List.takeWhile_append_of_pos (all_ne_zero h.noNul)]
  rfl

theorem TarMember.Wf.cString_name (h : m.Wf) (hlen : m.name.length < 100) :
    cString m.header = m.name := by
  have hfield : NameField (m.header.take 100) m.name := h.name
  rw [← List.take_append_drop 100 m.header]
  exact cString_field hfield hlen

/-- A name that fills its field runs into the mode. -/
theorem TarMember.Wf.cString_full_name (h : m.Wf) (hlen : m.name.length = 100) :
    106 ≤ (cString m.header).length := by
  have hfield : NameField (m.header.take 100) m.name := h.name
  obtain ⟨mode, digits, fill, hbytes, hdigits, hsix, -, -, -⟩ := h.mode
  have hmode : m.header.drop 100 = digits ++ (fill ++ (m.header.drop 100).drop 8) := by
    rw [← List.append_assoc, ← hbytes, field, List.take_append_drop]
  rw [← List.take_append_drop 100 m.header, cString_full hfield hlen, List.length_append, hlen,
    hmode, cString, List.takeWhile_append_of_pos fun b hb =>
      decide_eq_true (ne_zero_of_octal (hdigits b hb)), List.length_append]
  omega

theorem TarMember.Wf.cString_target (h : m.Wf) (hlen : m.linkname.length < 100) :
    cString (m.header.drop 157) = m.linkname := by
  have hfield : NameField ((m.header.drop 157).take 100) m.linkname := h.linkname
  rw [← List.take_append_drop 100 (m.header.drop 157)]
  exact cString_field hfield hlen

theorem TarMember.Wf.header_ne_zero (h : m.Wf) : m.header.getD 0 0 ≠ 0 := by
  have hfield : m.header.take 100 = _ := h.name.bytes
  rw [← List.take_append_drop 100 m.header, hfield]
  cases hname : m.name with
  | nil => exact absurd hname h.named
  | cons b bs =>
    intro hzero
    replace hzero : b = 0 := hzero
    refine h.name.noNul ?_
    rw [hname, hzero]
    exact List.mem_cons_self

theorem TarMember.Wf.headerSize (h : m.Wf) : headerSize m.header = m.content.length := by
  obtain ⟨digits, fill, hbytes, hdigits, -, hne, hfill, hvalue⟩ := h.size
  have hlen : digits.length ≤ 11 := by
    have htotal := congrArg List.length hbytes
    have hpos := List.length_pos_iff.mpr hne
    rw [field, List.length_append] at htotal
    have htake := List.length_take_le 12 (m.header.drop 124)
    omega
  have htake : (m.header.drop 124).take 11 = digits ++ fill.take (11 - digits.length) := by
    have hshort : (m.header.drop 124).take 11 = (field m.header 124 12).take 11 := by
      rw [field, List.take_take]
      rfl
    rw [hshort, hbytes, List.take_append, List.take_of_length_le hlen]
  have hstop : (fill.take (11 - digits.length)).takeWhile isOctal = [] := by
    cases hfill' : fill.take (11 - digits.length) with
    | nil => rfl
    | cons b bs =>
      have hb : b ∈ fill := List.mem_of_mem_take (hfill' ▸ List.mem_cons_self)
      refine List.takeWhile_cons_of_neg ?_
      rcases hfill b hb with rfl | rfl
      · decide
      · decide
  rw [Lestra.headerSize, htake, List.takeWhile_append_of_pos hdigits, hstop, List.append_nil,
    hvalue]

theorem le_tarPadded (n : Nat) : n ≤ tarPadded n := by
  unfold tarPadded tarBlockSize
  omega

theorem TarMember.Wf.length_bytes (h : m.Wf) :
    m.bytes.length = tarBlockSize + tarPadded m.content.length := by
  have hle := le_tarPadded m.content.length
  rw [TarMember.bytes, List.length_append, List.length_append, List.length_replicate, h.block]
  omega

end Header

-- ---------------------------------------------------------------------------
-- The index of an archive
-- ---------------------------------------------------------------------------

/-- The entry of a placed member, if it gets one. -/
def entryOf (p : Nat × TarMember) : Option TarfsEntry :=
  if p.2.Indexed ∧ normalizeName (cString p.2.header) ≠ [slash] then
    some (headerEntry p.2.header (p.1 - tarBlockSize))
  else none

/-- No entry is the root. -/
theorem tarfsScan_no_root {e : TarfsEntry} (fuel : Nat) :
    ∀ (offset : Nat) (rest : List UInt8) (entries : List TarfsEntry),
      (∀ e ∈ entries, e.name ≠ [slash]) → e ∈ tarfsScan fuel offset rest entries →
      e.name ≠ [slash] := by
  induction fuel with
  | zero => exact fun _ _ entries h he => h e he
  | succ fuel ih =>
    intro offset rest entries h he
    rw [tarfsScan] at he
    split at he
    · exact h e he
    · dsimp only at he
      split at he
      · exact h e he
      · split at he
        · exact ih _ _ _ h he
        · split at he
          · exact ih _ _ _ h he
          · split at he
            · exact ih _ _ _ h he
            · rename_i hroot
              refine ih _ _ _ (fun e' he' => ?_) he
              split at he'
              · rcases List.mem_append.mp he' with hold | hnew
                · exact h e' hold
                · rw [List.mem_singleton.mp hnew]
                  intro hname
                  refine hroot ?_
                  have htake : (normalizeName (cString (rest.take tarBlockSize))).take 255 = [slash] := by
                    rw [← hname, headerEntry]
                    split <;> rfl
                  cases hnorm : normalizeName (cString (rest.take tarBlockSize)) with
                  | nil =>
                    rw [hnorm] at htake
                    exact absurd htake (by simp)
                  | cons b bs =>
                    rw [hnorm, List.take_succ_cons] at htake
                    obtain ⟨hb, hbs⟩ := List.cons.inj htake
                    rcases List.take_eq_nil_iff.mp hbs with h0 | hnil
                    · exact absurd h0 (by decide)
                    · rw [hb, hnil]
              · exact h e' he'

/-- The scan comes to every member and indexes it. -/
theorem tarfsScan_members (trailer : List UInt8) : ∀ (ms : List TarMember) (fuel offset : Nat)
    (entries : List TarfsEntry), (∀ m ∈ ms, m.Wf) →
    (∀ m ∈ ms, m.Indexed → normalizeName (cString m.header) = [slash] → m.content = []) →
    entries.length + ms.length ≤ maxTarfsEntries →
    (ms.flatMap TarMember.bytes).length < fuel →
    tarfsScan fuel offset
        (ms.flatMap TarMember.bytes ++ (List.replicate (2 * tarBlockSize) 0 ++ trailer)) entries =
      entries ++ (placed offset ms).filterMap entryOf
  | [], fuel, offset, entries, _, _, _, hfuel => by
    obtain ⟨fuel, rfl⟩ : ∃ k, fuel = k + 1 := ⟨fuel - 1, by omega⟩
    have hlong : ¬ (List.replicate (2 * tarBlockSize) (0 : UInt8) ++ trailer).length < tarBlockSize := by
      rw [List.length_append, List.length_replicate]
      unfold tarBlockSize
      omega
    have hzero : ((List.replicate (2 * tarBlockSize) (0 : UInt8) ++ trailer).take
        tarBlockSize).getD 0 0 = 0 := by
      rw [List.take_append_of_le_length (by rw [List.length_replicate]; unfold tarBlockSize; omega)]
      rfl
    rw [List.flatMap_nil, List.nil_append, tarfsScan, if_neg hlong]
    dsimp only
    rw [if_pos hzero, placed, List.filterMap_nil, List.append_nil]
  | m :: ms, fuel, offset, entries, hwf, hroot, hcount, hfuel => by
    have hm := hwf m List.mem_cons_self
    have hlen := hm.length_bytes
    have hpad := le_tarPadded m.content.length
    rw [List.flatMap_cons, List.length_append] at hfuel
    rw [List.length_cons] at hcount
    obtain ⟨fuel, rfl⟩ : ∃ k, fuel = k + 1 := ⟨fuel - 1, by omega⟩
    have ih : ∀ entries', entries'.length ≤ entries.length + 1 →
        tarfsScan fuel (offset + m.bytes.length)
          (ms.flatMap TarMember.bytes ++ (List.replicate (2 * tarBlockSize) 0 ++ trailer)) entries' =
        entries' ++ (placed (offset + m.bytes.length) ms).filterMap entryOf := fun entries' hle =>
      tarfsScan_members trailer ms fuel _ entries' (fun m' hm' => hwf m' (List.mem_cons_of_mem m hm'))
        (fun m' hm' => hroot m' (List.mem_cons_of_mem m hm')) (by omega) (by
          unfold tarBlockSize at hlen
          omega)
    have hrest : ∀ rest : List UInt8, ((m :: ms).flatMap TarMember.bytes ++ rest) =
        m.bytes ++ (ms.flatMap TarMember.bytes ++ rest) := fun rest => by
      rw [List.flatMap_cons, List.append_assoc]
    have hheader : ∀ rest : List UInt8, (m.bytes ++ rest).take tarBlockSize = m.header := fun rest => by
      rw [TarMember.bytes, List.append_assoc, List.append_assoc]
      exact List.take_left' hm.block
    have hlong : ∀ rest : List UInt8, ¬ (m.bytes ++ rest).length < tarBlockSize := fun rest => by
      rw [List.length_append]
      omega
    have hnext : ∀ rest : List UInt8,
        (m.bytes ++ rest).drop (tarBlockSize + tarPadded m.content.length) = rest := fun rest =>
      List.drop_left' hlen
    rw [hrest, tarfsScan, if_neg (hlong _), hheader]
    dsimp only
    rw [if_neg hm.header_ne_zero, hm.headerSize, hm.typeflag, hnext, ← hlen, placed,
      List.filterMap_cons]
    by_cases hindexed : m.Indexed
    · have hpax : isPaxType m.typeflag = false := by
        unfold TarMember.Indexed TarMember.Regular TarMember.Symlink isRegularType isSymlinkType
          at hindexed
        unfold isPaxType
        simp only [Bool.or_eq_true, beq_iff_eq] at hindexed
        rcases hindexed with ((h | h) | h) | h
        · rw [h]; decide
        · rw [h]; decide
        · rw [h]; decide
        · rw [h]; decide
      have hkind : (!isRegularType m.typeflag && !isSymlinkType m.typeflag) = false := by
        rcases hindexed with h | h
        · rw [show isRegularType m.typeflag = true from h]; rfl
        · rw [show isSymlinkType m.typeflag = true from h, Bool.not_true, Bool.and_false]
      rw [if_neg (by rw [hpax]; exact Bool.false_ne_true),
        if_neg (by rw [hkind]; exact Bool.false_ne_true)]
      by_cases hname : normalizeName (cString m.header) = [slash]
      · have hempty := hroot m List.mem_cons_self hindexed hname
        have hblock : m.bytes.length = tarBlockSize := by
          rw [hlen, hempty]
          rfl
        have hstep : (m.bytes ++ (ms.flatMap TarMember.bytes ++
            (List.replicate (2 * tarBlockSize) 0 ++ trailer))).drop tarBlockSize =
            ms.flatMap TarMember.bytes ++ (List.replicate (2 * tarBlockSize) 0 ++ trailer) :=
          List.drop_left' hblock
        have hskip : entryOf (offset + tarBlockSize, m) = none := if_neg fun h => h.2 hname
        have hadvance : offset + tarBlockSize = offset + m.bytes.length := by rw [hblock]
        rw [if_pos hname, hskip, hstep, hadvance]
        exact ih entries (by omega)
      · have hentry : entryOf (offset + tarBlockSize, m) = some (headerEntry m.header offset) := by
          rw [entryOf, if_pos ⟨hindexed, hname⟩, Nat.add_sub_cancel]
        rw [if_neg hname, hentry, if_pos (by omega)]
        rw [ih _ (by rw [List.length_append]; exact Nat.le_refl _), List.append_assoc]
        rfl
    · have hskip : entryOf (offset + tarBlockSize, m) = none := if_neg fun h => hindexed h.1
      have hkind : (!isRegularType m.typeflag && !isSymlinkType m.typeflag) = true := by
        rw [Bool.and_eq_true, Bool.not_eq_true', Bool.not_eq_true']
        exact ⟨Bool.eq_false_iff.mpr fun h => hindexed (.inl h),
          Bool.eq_false_iff.mpr fun h => hindexed (.inr h)⟩
      rw [hskip]
      split
      · exact ih entries (by omega)
      · exact ih entries (by omega)

-- ---------------------------------------------------------------------------
-- Lookups
-- ---------------------------------------------------------------------------

section Lookup

variable {entries : List TarfsEntry} {path : List UInt8} {idx : Nat} {e : TarfsEntry}

/-- The entry that is found is the first one with the name. -/
theorem findEntry_some (h : findEntry entries path = some idx) :
    ∃ e, entries[idx]? = some e ∧ e.name = normalizeName path ∧
      ∀ j e', j < idx → entries[j]? = some e' → e'.name ≠ normalizeName path := by
  obtain ⟨hlt, hname, hbefore⟩ := List.findIdx?_eq_some_iff_getElem.mp h
  refine ⟨entries[idx], List.getElem?_eq_getElem hlt, beq_iff_eq.mp hname, fun j e' hj he' => ?_⟩
  obtain ⟨hjlt, rfl⟩ := List.getElem?_eq_some_iff.mp he'
  intro hcon
  exact hbefore j hj (beq_iff_eq.mpr hcon)

theorem findEntry_eq_none (h : ∀ e ∈ entries, e.name ≠ normalizeName path) :
    findEntry entries path = none := by
  unfold findEntry
  rw [List.findIdx?_eq_none_iff]
  exact fun e he => beq_eq_false_iff_ne.mpr (h e he)

theorem findEntry_of_mem (he : e ∈ entries) (hname : e.name = normalizeName path) :
    ∃ idx e', findEntry entries path = some idx ∧ entries[idx]? = some e' ∧
      e'.name = normalizeName path := by
  cases hfind : findEntry entries path with
  | none =>
    unfold findEntry at hfind
    rw [List.findIdx?_eq_none_iff] at hfind
    exact absurd hname (beq_eq_false_iff_ne.mp (hfind e he))
  | some idx =>
    obtain ⟨e', he', hname', -⟩ := findEntry_some hfind
    exact ⟨idx, e', rfl, he', hname'⟩

theorem findEntry_first {pre post : List TarfsEntry} (hname : e.name = normalizeName path)
    (hpre : ∀ e' ∈ pre, e'.name ≠ normalizeName path) :
    findEntry (pre ++ e :: post) path = some pre.length := by
  have hmem : e ∈ pre ++ e :: post := List.mem_append_right _ List.mem_cons_self
  obtain ⟨idx, e', hfind, he', hname'⟩ := findEntry_of_mem hmem hname
  obtain ⟨-, -, -, hbefore⟩ := findEntry_some hfind
  have hat : (pre ++ e :: post)[pre.length]? = some e := by
    rw [List.getElem?_append_right (Nat.le_refl _), Nat.sub_self]
    rfl
  rw [hfind]
  rcases lt_trichotomy idx pre.length with hlt | heq | hlt
  · rw [List.getElem?_append_left hlt] at he'
    exact absurd hname' (hpre e' (List.mem_of_getElem? he'))
  · rw [heq]
  · exact absurd hname (hbefore pre.length e hlt hat)

/-- A path that names a file resolves to itself. -/
theorem tarfsResolveLoop_file (n : Nat) (hfind : findEntry entries path = some idx)
    (he : entries[idx]? = some e) (hfile : e.isSymlink = false) :
    tarfsResolveLoop entries (n + 1) path = some (path.take 255) := by
  rw [tarfsResolveLoop, hfind, Option.bind_some, he]
  dsimp only
  rw [hfile, if_neg Bool.false_ne_true]

/-- What an open of a path does when every slot is free. -/
theorem tarfsOpen_free {t : Tarfs} (hfree : ∀ i, (t.opens i).used = false) (path : List UInt8) :
    (∃ i idx e, findEntry t.entries ((tarfsResolveSymlink t.entries path).getD path) = some idx ∧
      t.entries[idx]? = some e ∧ e.isSymlink = false ∧
      tarfsOpen t path = (t.setOpen i ⟨true, idx, 0⟩, some i)) ∨
    ((tarfsOpen t path).2 = none ∧ ∀ idx e,
      findEntry t.entries ((tarfsResolveSymlink t.entries path).getD path) = some idx →
      t.entries[idx]? = some e → e.isSymlink = true) := by
  unfold tarfsOpen
  dsimp only
  cases hfind : findEntry t.entries ((tarfsResolveSymlink t.entries path).getD path) with
  | none => exact .inr ⟨rfl, fun _ _ hcon _ => absurd hcon (Option.some_ne_none _).symm⟩
  | some idx =>
    obtain ⟨e, he, -, -⟩ := findEntry_some hfind
    dsimp only
    rw [he, Option.any_some]
    cases hlink : e.isSymlink with
    | true =>
      refine .inr ⟨by rw [if_pos rfl], fun idx' e' hidx he' => ?_⟩
      rw [← Option.some.inj hidx, he] at he'
      rw [← Option.some.inj he']
      exact hlink
    | false =>
      rw [if_neg Bool.false_ne_true]
      have hslot : ((List.finRange maxTarfsOpen).find? fun i => !(t.opens i).used) =
          some ⟨0, by decide⟩ := by
        refine FirstFit.eq_some_iff.mpr ⟨by rw [hfree]; rfl, fun j hj => ?_⟩
        exact absurd hj (Nat.not_lt_zero _)
      rw [hslot]
      exact .inl ⟨_, idx, e, rfl, he, hlink, rfl⟩

end Lookup

section Reads

variable {i : Fin maxTarfsOpen} {idx : Nat} {e : TarfsEntry} {content rest : List UInt8}

/-- Reads of an open file return its content in pieces. -/
theorem tarfsReads_pieces (hsize : e.size = content.length) (counts : List Nat) :
    ∀ (t : Tarfs) (pos : Nat), t.entries[idx]? = some e → t.blob.drop e.offset = content ++ rest →
      t.opens i = ⟨true, idx, pos⟩ →
      tarfsReads t i counts = (pieces (content.drop pos) counts).map some := by
  induction counts with
  | nil => exact fun _ _ _ _ _ => rfl
  | cons count counts ih =>
    intro t pos he hblob hopen
    rw [tarfsReads, pieces, List.map_cons, tarfsRead, hopen]
    dsimp only
    rw [if_neg (by decide), he]
    dsimp only
    by_cases hend : e.size ≤ pos
    · have hnil : content.drop pos = [] := List.drop_eq_nil_of_le (hsize ▸ hend)
      rw [if_pos hend, ih t pos he hblob hopen, hnil, List.take_nil, List.drop_nil]
    · rw [if_neg hend]
      have hpiece : (t.blob.drop (e.offset + pos)).take (min count (e.size - pos)) =
          (content.drop pos).take count := by
        rw [← List.drop_drop, hblob, List.drop_append_of_le_length (by omega),
          List.take_append_of_le_length (by rw [List.length_drop]; omega)]
        have hshort : (content.drop pos).length = e.size - pos := by rw [List.length_drop, hsize]
        rw [← hshort]
        exact List.take_eq_take_min.symm
      have hmore : content.drop (pos + min count (e.size - pos)) = (content.drop pos).drop count := by
        rw [List.drop_drop]
        rcases Nat.le_total count (e.size - pos) with hle | hle
        · rw [Nat.min_eq_left hle]
        · rw [Nat.min_eq_right hle, List.drop_eq_nil_of_le (by omega),
            List.drop_eq_nil_of_le (by omega)]
      have hagain := ih (t.setOpen i ⟨true, idx, pos + min count (e.size - pos)⟩)
        (pos + min count (e.size - pos)) he hblob (Function.update_self ..)
      rw [hpiece, hagain, hmore]

end Reads

-- ---------------------------------------------------------------------------
-- Members and entries
-- ---------------------------------------------------------------------------

section Entries

variable {m : TarMember} {e : TarfsEntry} {off : Nat}

theorem TarMember.Regular.not_symlink (h : m.Regular) : isSymlinkType m.typeflag = false := by
  unfold TarMember.Regular isRegularType at h
  simp only [Bool.or_eq_true, beq_iff_eq] at h
  unfold isSymlinkType
  rcases h with (h | h) | h
  · rw [h]; decide
  · rw [h]; decide
  · rw [h]; decide

/-- The entry of a regular file. -/
theorem TarMember.Wf.regular_entry (h : m.Wf) (hreg : m.Regular) :
    headerEntry m.header off = ⟨(normalizeName (cString m.header)).take 255, off + tarBlockSize,
      m.content.length, false, []⟩ := by
  rw [headerEntry, h.typeflag, hreg.not_symlink, h.headerSize]
  rfl

theorem take_normalizeName {s : List UInt8} (h : s.length ≤ 254) :
    (normalizeName s).take 255 = normalizeName s :=
  List.take_of_length_le ((length_normalizeName (s := s)).trans (by omega))

/-- What the entry of a member says, when its name and its target end in their fields. -/
structure EntryFor (e : TarfsEntry) (m : TarMember) : Prop where
  indexed : m.Indexed
  name : e.name = normalizeName m.name
  link : e.isSymlink = true → m.Symlink ∧ e.linkTarget = m.linkname
  file : e.isSymlink = false → m.Regular

theorem entryFor_of_entryOf {p : Nat × TarMember} (hwf : p.2.Wf) (hname : p.2.name.length < 100)
    (htarget : p.2.Symlink → p.2.linkname.length < 100) (h : entryOf p = some e) :
    EntryFor e p.2 := by
  unfold entryOf at h
  split at h
  · rename_i hkind
    have htake := take_normalizeName (s := p.2.name) (by omega)
    have he := Option.some.inj h
    rw [headerEntry, hwf.typeflag, hwf.cString_name hname, htake] at he
    cases hlink : isSymlinkType p.2.typeflag with
    | true =>
      rw [hlink, if_pos rfl, hwf.cString_target (htarget hlink),
        List.take_of_length_le (by have := htarget hlink; omega)] at he
      rw [← he]
      exact ⟨hkind.1, rfl, fun _ => ⟨hlink, rfl⟩,
        fun hcon => absurd (show true = false from hcon) (by decide)⟩
    | false =>
      rw [hlink, if_neg Bool.false_ne_true] at he
      rw [← he]
      refine ⟨hkind.1, rfl, fun hcon => absurd (show false = true from hcon) (by decide),
        fun _ => ?_⟩
      rcases hkind.1 with hreg | hsym
      · exact hreg
      · exact absurd hsym (by unfold TarMember.Symlink; rw [hlink]; decide)
  · exact absurd h (Option.some_ne_none _).symm

theorem placed_append (ys : List TarMember) : ∀ (xs : List TarMember) (base : Nat),
    placed base (xs ++ ys) =
      placed base xs ++ placed (base + (xs.flatMap TarMember.bytes).length) ys
  | [], _ => rfl
  | x :: xs, base => by
    rw [List.cons_append, placed, placed, placed_append ys xs, List.cons_append, List.flatMap_cons,
      List.length_append, Nat.add_assoc]

/-- A placed member, with what is before and after it. -/
theorem placed_split {p : Nat × TarMember} : ∀ {ms : List TarMember} {base : Nat},
    p ∈ placed base ms → ∃ before after, ms = before ++ p.2 :: after ∧
      p.1 = base + (before.flatMap TarMember.bytes).length + tarBlockSize
  | [], _, h => absurd h List.not_mem_nil
  | m :: ms, base, h => by
    rw [placed] at h
    rcases List.mem_cons.mp h with rfl | h
    · exact ⟨[], ms, rfl, rfl⟩
    · obtain ⟨before, after, rfl, hoff⟩ := placed_split h
      refine ⟨m :: before, after, rfl, ?_⟩
      rw [hoff, List.flatMap_cons, List.length_append]
      omega

theorem mem_placed {ms before after : List TarMember} {m : TarMember}
    (h : ms = before ++ m :: after) :
    ((before.flatMap TarMember.bytes).length + tarBlockSize, m) ∈ placed 0 ms := by
  rw [h, placed_append, placed, Nat.zero_add]
  exact List.mem_append_right _ List.mem_cons_self

theorem mem_of_placed {p : Nat × TarMember} {ms : List TarMember} {base : Nat}
    (h : p ∈ placed base ms) : p.2 ∈ ms := by
  obtain ⟨before, after, rfl, -⟩ := placed_split h
  exact List.mem_append_right _ List.mem_cons_self

/-- Contents are placed between the start and the end of the members. -/
theorem placed_bounds {p : Nat × TarMember} {ms : List TarMember} {base : Nat}
    (hwf : ∀ m ∈ ms, m.Wf) (h : p ∈ placed base ms) :
    base + tarBlockSize ≤ p.1 ∧ p.1 ≤ base + (ms.flatMap TarMember.bytes).length := by
  obtain ⟨before, after, rfl, hoff⟩ := placed_split h
  have hlen := (hwf p.2 (List.mem_append_right _ List.mem_cons_self)).length_bytes
  rw [List.flatMap_append, List.flatMap_cons, List.length_append, List.length_append]
  omega

theorem entryOf_offset {p : Nat × TarMember} (h : entryOf p = some e) (hp : tarBlockSize ≤ p.1) :
    e.offset = 0 ∨ e.offset = p.1 := by
  unfold entryOf at h
  split at h
  · rw [← Option.some.inj h, headerEntry]
    split
    · exact .inl rfl
    · exact .inr (Nat.sub_add_cancel hp)
  · exact absurd h (Option.some_ne_none _).symm

end Entries

-- ---------------------------------------------------------------------------
-- Paths that open
-- ---------------------------------------------------------------------------

section Paths

variable {entries : List TarfsEntry} {ms : List TarMember}

theorem EntryFor.pathName {e : TarfsEntry} {m : TarMember} {path : List UInt8} (h : EntryFor e m)
    (hshort : m.name.length ≤ 100) (hrooted : RootedPath path) (hname : e.name = normalizeName path) :
    Lestra.pathName path = Lestra.pathName m.name := by
  rw [← hrooted.pathName, ← hname, h.name, pathName_normalizeName (by omega)]

/-- What `tarfs_resolve_symlink` resolves leads to a regular file. -/
theorem leadsTo_of_resolve (hentries : ∀ e ∈ entries, ∃ m ∈ ms, EntryFor e m)
    (hshort : ∀ m ∈ ms, m.name.length ≤ 100) (n : Nat) : ∀ {current r : List UInt8},
    RootedPath current → tarfsResolveLoop entries (n + 1) current = some r →
    ∃ m, LeadsTo ms n current m := by
  induction n with
  | zero =>
    intro current r hrooted h
    rw [tarfsResolveLoop] at h
    cases hfind : findEntry entries current with
    | none => rw [hfind] at h; exact absurd h (Option.some_ne_none _).symm
    | some idx =>
      obtain ⟨e, he, hname, -⟩ := findEntry_some hfind
      obtain ⟨m, hm, hfor⟩ := hentries e (List.mem_of_getElem? he)
      rw [hfind, Option.bind_some, he] at h
      dsimp only at h
      cases hlink : e.isSymlink with
      | true =>
        rw [hlink, if_pos rfl] at h
        obtain ⟨next, -, hnext⟩ := Option.bind_eq_some_iff.mp h
        exact absurd hnext (Option.some_ne_none _).symm
      | false => exact ⟨m, .file hm (hfor.file hlink) (hfor.pathName (hshort m hm) hrooted hname)⟩
  | succ n ih =>
    intro current r hrooted h
    rw [tarfsResolveLoop] at h
    cases hfind : findEntry entries current with
    | none => rw [hfind] at h; exact absurd h (Option.some_ne_none _).symm
    | some idx =>
      obtain ⟨e, he, hname, -⟩ := findEntry_some hfind
      obtain ⟨m, hm, hfor⟩ := hentries e (List.mem_of_getElem? he)
      have hpath := hfor.pathName (hshort m hm) hrooted hname
      rw [hfind, Option.bind_some, he] at h
      dsimp only at h
      cases hlink : e.isSymlink with
      | true =>
        rw [hlink, if_pos rfl] at h
        obtain ⟨next, hjoin, hnext⟩ := Option.bind_eq_some_iff.mp h
        obtain ⟨hsym, htarget⟩ := hfor.link hlink
        obtain ⟨m', hleads⟩ := ih (joinTarget_rooted hrooted hjoin) hnext
        rw [htarget] at hjoin
        exact ⟨m', .link hm hsym hpath hjoin hleads⟩
      | false => exact ⟨m, .file hm (hfor.file hlink) hpath⟩

/-- A path that opens leads to a regular file. -/
theorem leadsTo_of_open {t : Tarfs} {path : List UInt8}
    (hentries : ∀ e ∈ t.entries, ∃ m ∈ ms, EntryFor e m)
    (hshort : ∀ m ∈ ms, m.name.length ≤ 100) (hfree : ∀ i, (t.opens i).used = false)
    (hopen : (tarfsOpen t path).2 ≠ none) : ∃ m, LeadsTo ms 9 (normalizeName path) m := by
  cases hres : tarfsResolveSymlink t.entries path with
  | some r => exact leadsTo_of_resolve hentries hshort 9 (normalizeName_isRooted path) hres
  | none =>
    rcases tarfsOpen_free hfree path with ⟨i, idx, e, hfind, he, hfile, -⟩ | ⟨hnone, -⟩
    · rw [hres] at hfind
      obtain ⟨e', he', hname, -⟩ := findEntry_some hfind
      rw [he] at he'
      obtain rfl := Option.some.inj he'
      obtain ⟨m, hm, hfor⟩ := hentries e (List.mem_of_getElem? he)
      refine ⟨m, .file hm (hfor.file hfile) ?_⟩
      rw [← pathName_normalizeName (s := m.name) (by have := hshort m hm; omega), ← hfor.name, hname]
      rfl
    · exact absurd hnone hopen

/-- A path under which a file is indexed opens its first entry. -/
theorem tarfsOpen_indexed {t : Tarfs} {path : List UInt8} {idx : Nat} {e : TarfsEntry}
    (hfree : ∀ i, (t.opens i).used = false) (hlen : (normalizeName path).length ≤ 255)
    (hfind : findEntry t.entries (normalizeName path) = some idx) (he : t.entries[idx]? = some e)
    (hfile : e.isSymlink = false) :
    ∃ i, tarfsOpen t path = (t.setOpen i ⟨true, idx, 0⟩, some i) := by
  have hres : tarfsResolveSymlink t.entries path = some (normalizeName path) := by
    rw [tarfsResolveSymlink, maxSymlinkDepth, tarfsResolveLoop_file 9 hfind he hfile,
      List.take_of_length_le hlen]
  rcases tarfsOpen_free hfree path with ⟨i, idx', e', hfind', -, -, hopen⟩ | ⟨-, hlink⟩
  · rw [hres, Option.getD_some, hfind] at hfind'
    rw [Option.some.inj hfind']
    exact ⟨i, hopen⟩
  · rw [hres, Option.getD_some] at hlink
    exact absurd (hlink idx e hfind he) (by rw [hfile]; decide)

end Paths

-- ---------------------------------------------------------------------------
-- Serving an archive
-- ---------------------------------------------------------------------------

section Serve

variable {a : TarArchive}

theorem tarfsInit_entries (hwf : a.Wf)
    (hroot : ∀ m ∈ a.members, m.Indexed → normalizeName (cString m.header) = [slash] →
      m.content = []) :
    (tarfsInit a.bytes).entries = (placed 0 a.members).filterMap entryOf := by
  have hscan := tarfsScan_members a.trailer a.members a.bytes.length 0 [] hwf.members hroot
    (by rw [List.length_nil, Nat.zero_add]; exact hwf.count) (by
      rw [TarArchive.bytes, List.length_append, List.length_append, List.length_replicate]
      unfold tarBlockSize
      omega)
  rw [List.nil_append] at hscan
  show tarfsScan a.bytes.length 0 a.bytes [] = _
  rw [← hscan, TarArchive.bytes, List.append_assoc]

/-- The members that get an entry have names that end in their fields, and no regular file is
the root. -/
structure Readable (a : TarArchive) : Prop where
  short : ∀ m ∈ a.members, m.Indexed → m.name.length < 100
  root : ∀ m ∈ a.members, m.Regular → normalizeName m.name ≠ [slash]

theorem Readable.entries (h : Readable a) (hwf : a.Wf) :
    (tarfsInit a.bytes).entries = (placed 0 a.members).filterMap entryOf := by
  refine tarfsInit_entries hwf fun m hm hindexed hroot => ?_
  rw [(hwf.members m hm).cString_name (h.short m hm hindexed)] at hroot
  rcases hindexed with hreg | hsym
  · exact absurd hroot (h.root m hm hreg)
  · exact (hwf.members m hm).symlink hsym

theorem Readable.entryFor (h : Readable a) (hwf : a.Wf) (hlinks : LinksFit a) {e : TarfsEntry}
    {p : Nat × TarMember} (hp : p ∈ placed 0 a.members) (he : entryOf p = some e) :
    EntryFor e p.2 := by
  have hm := mem_of_placed hp
  have hindexed : p.2.Indexed := by
    unfold entryOf at he
    split at he
    · rename_i hkind
      exact hkind.1
    · exact absurd he (Option.some_ne_none _).symm
  exact entryFor_of_entryOf (hwf.members _ hm) (h.short _ hm hindexed) (hlinks.target _ hm) he

theorem Readable.entriesFor (h : Readable a) (hwf : a.Wf) (hlinks : LinksFit a) :
    ∀ e ∈ (tarfsInit a.bytes).entries, ∃ m ∈ a.members, EntryFor e m := by
  intro e he
  rw [h.entries hwf] at he
  obtain ⟨p, hp, hep⟩ := List.mem_filterMap.mp he
  exact ⟨p.2, mem_of_placed hp, h.entryFor hwf hlinks hp hep⟩

/-- The entries around the one of a regular file. -/
theorem Readable.entries_split (h : Readable a) (hwf : a.Wf) {before after : List TarMember}
    {m : TarMember} (hsplit : a.members = before ++ m :: after) (hreg : m.Regular) :
    ∃ e, EntryFor e m ∧ e.isSymlink = false ∧ e.size = m.content.length ∧
      e.offset = (before.flatMap TarMember.bytes).length + tarBlockSize ∧
      (tarfsInit a.bytes).entries = (placed 0 before).filterMap entryOf ++ e ::
        (placed ((before.flatMap TarMember.bytes).length + m.bytes.length) after).filterMap
          entryOf := by
  have hm : m ∈ a.members := hsplit ▸ List.mem_append_right _ List.mem_cons_self
  have hshort := h.short m hm (.inl hreg)
  have hmem := hwf.members m hm
  have hname := hmem.cString_name hshort
  have hentry : entryOf ((before.flatMap TarMember.bytes).length + tarBlockSize, m) = some
      ⟨normalizeName m.name, (before.flatMap TarMember.bytes).length + tarBlockSize,
        m.content.length, false, []⟩ := by
    unfold entryOf
    rw [if_pos ⟨.inl hreg, by rw [hname]; exact h.root m hm hreg⟩, Nat.add_sub_cancel,
      hmem.regular_entry hreg, hname, take_normalizeName (by omega)]
  refine ⟨⟨normalizeName m.name, (before.flatMap TarMember.bytes).length + tarBlockSize,
    m.content.length, false, []⟩, ⟨.inl hreg, rfl,
      fun hcon => absurd (show false = true from hcon) (by decide), fun _ => hreg⟩, rfl, rfl, rfl, ?_⟩
  rw [h.entries hwf, hsplit, placed_append, placed, Nat.zero_add, List.filterMap_append,
    List.filterMap_cons, hentry]

/-- The content of a member at its place. -/
theorem bytes_drop (hwf : a.Wf) {before after : List TarMember} {m : TarMember}
    (hsplit : a.members = before ++ m :: after) :
    ∃ rest, a.bytes.drop ((before.flatMap TarMember.bytes).length + tarBlockSize) =
      m.content ++ rest := by
  have hm : m ∈ a.members := hsplit ▸ List.mem_append_right _ List.mem_cons_self
  have hblock := (hwf.members m hm).block
  refine ⟨List.replicate (tarPadded m.content.length - m.content.length) 0 ++
    (after.flatMap TarMember.bytes ++ (List.replicate (2 * tarBlockSize) 0 ++ a.trailer)), ?_⟩
  have hbytes : a.bytes = (before.flatMap TarMember.bytes ++ m.header) ++ (m.content ++
      (List.replicate (tarPadded m.content.length - m.content.length) 0 ++
        (after.flatMap TarMember.bytes ++ (List.replicate (2 * tarBlockSize) 0 ++ a.trailer)))) := by
    rw [TarArchive.bytes, hsplit, List.flatMap_append, List.flatMap_cons, TarMember.bytes]
    simp only [List.append_assoc]
  rw [hbytes]
  exact List.drop_left' (by rw [List.length_append, hblock])

/-- Under the condition, the archive is served. -/
theorem tarServes_of_fit (hwf : a.Wf) (hlinks : LinksFit a) (hfit : RegularsFit a) :
    TarServes a := by
  have hread : Readable a := by
    refine ⟨fun m hm hindexed => ?_, fun m hm hreg => ?_⟩
    · rcases hindexed with hreg | hsym
      · obtain ⟨before, after, hsplit⟩ := List.append_of_mem hm
        exact (hfit before m after hsplit hreg).1
      · exact hlinks.name m hm hsym
    · obtain ⟨before, after, hsplit⟩ := List.append_of_mem hm
      exact (hfit before m after hsplit hreg).2.1
  have hfree : ∀ i, ((tarfsInit a.bytes).opens i).used = false := fun _ => rfl
  refine ⟨fun p hp hreg => ?_, fun path hopen => ?_⟩
  · obtain ⟨before, after, hsplit, hoff⟩ := placed_split hp
    rw [Nat.zero_add] at hoff
    obtain ⟨-, -, hfirst⟩ := hfit before p.2 after hsplit hreg
    obtain ⟨e, hfor, hfile, hsize, hoffset, hentries⟩ := hread.entries_split hwf hsplit hreg
    have hm := mem_of_placed hp
    have hshort := hread.short p.2 hm (.inl hreg)
    have hplain := hlinks.plain p.2 hm (.inl hreg)
    have hfind : findEntry (tarfsInit a.bytes).entries (normalizeName p.2.name) =
        some ((placed 0 before).filterMap entryOf).length := by
      rw [hentries]
      refine findEntry_first (hfor.name.trans hplain.symm) fun e' he' => ?_
      obtain ⟨q, hq, heq⟩ := List.mem_filterMap.mp he'
      have hq' : q ∈ placed 0 a.members := by
        rw [hsplit, placed_append]
        exact List.mem_append_left _ hq
      have hfor' := hread.entryFor hwf hlinks hq' heq
      rw [hfor'.name, hplain]
      exact hfirst q.2 (mem_of_placed hq) hfor'.indexed
    have he : (tarfsInit a.bytes).entries[((placed 0 before).filterMap entryOf).length]? =
        some e := by
      rw [hentries, List.getElem?_append_right (Nat.le_refl _), Nat.sub_self]
      rfl
    have hlen : (normalizeName p.2.name).length ≤ 255 :=
      (length_normalizeName (s := p.2.name)).trans (by omega)
    obtain ⟨i, hopen⟩ := tarfsOpen_indexed hfree hlen hfind he hfile
    obtain ⟨rest, hrest⟩ := bytes_drop hwf hsplit
    have hslot : ((tarfsOpen (tarfsInit a.bytes) p.2.name).1.opens i) =
        ⟨true, ((placed 0 before).filterMap entryOf).length, 0⟩ := by
      rw [hopen]
      exact Function.update_self ..
    refine ⟨i, e, by rw [hopen], ?_, by rw [hoffset, hoff], fun counts => ?_⟩
    · rw [hslot]
      exact he
    · refine tarfsReads_pieces hsize counts _ 0 ?_ (?_ : _ = _ ++ rest) hslot
      · rw [hopen]
        exact he
      · rw [hopen, hoffset]
        exact hrest
  · exact leadsTo_of_open (hread.entriesFor hwf hlinks)
      (fun m hm => (hwf.members m hm).name.fits) hfree hopen

/-- What an archive that is served opens for a regular file: the first entry with a name. -/
theorem TarServes.opened (h : TarServes a) {before after : List TarMember} {m : TarMember}
    (hsplit : a.members = before ++ m :: after) (hreg : m.Regular) :
    ∃ path idx e, findEntry (tarfsInit a.bytes).entries path = some idx ∧
      (tarfsInit a.bytes).entries[idx]? = some e ∧
      (path = m.name ∨ tarfsResolveSymlink (tarfsInit a.bytes).entries m.name = some path) ∧
      e.offset = (before.flatMap TarMember.bytes).length + tarBlockSize := by
  obtain ⟨i, e, hsome, he, hoff, -⟩ := h.files _ (mem_placed hsplit) hreg
  rcases tarfsOpen_free (t := tarfsInit a.bytes) (fun _ => rfl) m.name with
    ⟨i', idx, e', hfind, he', -, hopen⟩ | ⟨hnone, -⟩
  · rw [hopen] at hsome he
    rw [← Option.some.inj hsome] at he
    have hidx : (((tarfsInit a.bytes).setOpen i' ⟨true, idx, 0⟩).opens i').entryIdx = idx := by
      rw [setOpen_self]
    dsimp only at he
    rw [hidx] at he
    replace he : (tarfsInit a.bytes).entries[idx]? = some e := he
    refine ⟨_, idx, e, hfind, he, ?_, hoff⟩
    cases hres : tarfsResolveSymlink (tarfsInit a.bytes).entries m.name with
    | none => exact .inl rfl
    | some r => exact .inr rfl
  · exact absurd (hsome.symm.trans hnone) (Option.some_ne_none i)

/-- No regular file of an archive that is served is the root. -/
theorem TarServes.not_root (h : TarServes a) {m : TarMember} (hm : m ∈ a.members)
    (hreg : m.Regular) : normalizeName m.name ≠ [slash] := by
  intro hroot
  have hnone : ∀ path, normalizeName path = [slash] →
      findEntry (tarfsInit a.bytes).entries path = none := fun path hpath =>
    findEntry_eq_none fun e he => by
      rw [hpath]
      exact tarfsScan_no_root _ _ _ _ (fun _ hnil => absurd hnil List.not_mem_nil) he
  obtain ⟨before, after, hsplit⟩ := List.append_of_mem hm
  obtain ⟨path, idx, e, hfind, -, hpath, -⟩ := h.opened hsplit hreg
  have hstart : findEntry (tarfsInit a.bytes).entries [slash] = none := hnone _ (by decide)
  rcases hpath with rfl | hres
  · rw [hnone _ hroot] at hfind
    exact absurd hfind (Option.some_ne_none _).symm
  · rw [tarfsResolveSymlink, hroot, maxSymlinkDepth, tarfsResolveLoop, hstart] at hres
    exact absurd hres (Option.some_ne_none _).symm

/-- The index of an archive that is served is in step with its members. -/
theorem TarServes.entries (h : TarServes a) (hwf : a.Wf) :
    (tarfsInit a.bytes).entries = (placed 0 a.members).filterMap entryOf := by
  refine tarfsInit_entries hwf fun m hm hindexed hroot => ?_
  have hmem := hwf.members m hm
  rcases hindexed with hreg | hsym
  · refine absurd hroot ?_
    rcases Nat.lt_or_ge m.name.length 100 with hlt | hge
    · rw [hmem.cString_name hlt]
      exact h.not_root hm hreg
    · intro hcon
      have hfull := hmem.cString_full_name (Nat.le_antisymm hmem.name.fits hge)
      have hlong := le_length_normalizeName (s := cString m.header)
      rw [hcon, List.length_singleton] at hlong
      omega
  · exact hmem.symlink hsym

/-- A path to a regular file is no longer than the names of the members. -/
theorem LeadsTo.length_le {ms : List TarMember} {n : Nat} {path : List UInt8} {m : TarMember}
    (hshort : ∀ m ∈ ms, m.name.length ≤ 100) (h : LeadsTo ms n path m) :
    (pathName path).length ≤ 100 := by
  cases h with
  | file hm _ hname =>
    rw [hname]
    exact length_pathName.trans (hshort m hm)
  | link hs _ hname _ _ =>
    rw [hname]
    exact length_pathName.trans (hshort _ hs)

/-- A full name is indexed under a longer path, which then opens. -/
theorem TarServes.short (h : TarServes a) (hwf : a.Wf) (hlinks : LinksFit a) {m : TarMember}
    (hm : m ∈ a.members) (hreg : m.Regular) : m.name.length < 100 := by
  by_contra hge
  have hmem := hwf.members m hm
  have hfull : m.name.length = 100 := Nat.le_antisymm hmem.name.fits (Nat.not_lt.mp hge)
  -- the name of the entry goes on with the mode
  obtain ⟨key, hkey, hshort, hplain, hlong⟩ : ∃ key,
      (normalizeName (cString m.header)).take 255 = slash :: key ∧ key.length ≤ 254 ∧
        key.head? ≠ some slash ∧ 102 ≤ key.length := by
    have hfield : NameField (m.header.take 100) m.name := hmem.name
    have hlen := hmem.cString_full_name hfull
    rw [← List.take_append_drop 100 m.header, cString_full hfield hfull] at hlen ⊢
    rw [List.length_append] at hlen
    exact full_key hfull (by omega) (hlinks.plain m hm (.inl hreg))
  have hself : normalizeName (slash :: key) = slash :: key :=
    (normalizeName_plain_iff (by omega)).mpr hplain
  have hentries := h.entries hwf
  -- the entry of the member, and the first one with the same name
  obtain ⟨off, hp⟩ : ∃ off, (off, m) ∈ placed 0 a.members := by
    obtain ⟨before, after, hsplit⟩ := List.append_of_mem hm
    exact ⟨_, mem_placed hsplit⟩
  have hindexed : entryOf (off, m) = some (headerEntry m.header (off - tarBlockSize)) := by
    refine if_pos ⟨.inl hreg, fun hcon => ?_⟩
    rw [show normalizeName (cString m.header) = [slash] from hcon] at hkey
    rw [(List.cons.inj hkey).2.symm, List.take_nil, List.length_nil] at hlong
    omega
  have hname : (headerEntry m.header (off - tarBlockSize)).name = slash :: key := by
    rw [hmem.regular_entry hreg, hkey]
  have hfound : ∃ idx e', findEntry (tarfsInit a.bytes).entries (slash :: key) = some idx ∧
      (tarfsInit a.bytes).entries[idx]? = some e' ∧ e'.name = normalizeName (slash :: key) :=
    findEntry_of_mem (by rw [hentries]; exact List.mem_filterMap.mpr ⟨_, hp, hindexed⟩)
      (hname.trans hself.symm)
  obtain ⟨idx, e, hfind, he, hename⟩ := hfound
  have hfile : e.isSymlink = false := by
    -- the names of symlinks are shorter
    by_contra hlink
    rw [Bool.not_eq_false] at hlink
    rw [hentries] at he
    obtain ⟨q, hq, heq⟩ := List.mem_filterMap.mp (List.mem_of_getElem? he)
    have hqm := mem_of_placed hq
    have hqwf := hwf.members _ hqm
    have hsym : q.2.Symlink := by
      unfold entryOf at heq
      split at heq
      · rename_i hkind
        rcases hkind.1 with hqreg | hqsym
        · rw [hqwf.regular_entry hqreg] at heq
          rw [← Option.some.inj heq] at hlink
          exact absurd (show false = true from hlink) (by decide)
        · exact hqsym
      · exact absurd heq (Option.some_ne_none _).symm
    have hqname := hlinks.name _ hqm hsym
    have hfor := entryFor_of_entryOf hqwf hqname (hlinks.target _ hqm) heq
    have hlen := length_normalizeName (s := q.2.name)
    rw [← hfor.name, hename, hself, List.length_cons] at hlen
    omega
  have hopen : ∃ i, tarfsOpen (tarfsInit a.bytes) (slash :: key) =
      ((tarfsInit a.bytes).setOpen i ⟨true, idx, 0⟩, some i) := tarfsOpen_indexed (fun _ => rfl)
    (by rw [hself, List.length_cons]; omega) (by rw [hself]; exact hfind) he hfile
  obtain ⟨i, hopen⟩ := hopen
  obtain ⟨m', hleads⟩ := h.others (slash :: key) (by rw [hopen]; exact Option.some_ne_none i)
  have hle := hleads.length_le fun m hm => (hwf.members m hm).name.fits
  rw [hself, pathName_rooted, dropWhile_head hplain] at hle
  omega

theorem TarServes.readable (h : TarServes a) (hwf : a.Wf) (hlinks : LinksFit a) : Readable a where
  short _ hm := fun
    | .inl hreg => h.short hwf hlinks hm hreg
    | .inr hsym => hlinks.name _ hm hsym
  root _ hm hreg := h.not_root hm hreg

/-- The entry that opens for a regular file is its own, so none before it has its name. -/
theorem TarServes.first (h : TarServes a) (hwf : a.Wf) (hlinks : LinksFit a)
    {before after : List TarMember} {m : TarMember} (hsplit : a.members = before ++ m :: after)
    (hreg : m.Regular) {m' : TarMember} (hm' : m' ∈ before) (hindexed : m'.Indexed) :
    normalizeName m'.name ≠ normalizeName m.name := by
  intro hsame
  have hread := h.readable hwf hlinks
  have hm : m ∈ a.members := hsplit ▸ List.mem_append_right _ List.mem_cons_self
  obtain ⟨path, idx, e, hfind, he, -, hoff⟩ := h.opened hsplit hreg
  obtain ⟨own, hfor, -, -, -, hentries⟩ := hread.entries_split hwf hsplit hreg
  obtain ⟨e', he', hname, hbefore⟩ := findEntry_some hfind
  rw [he] at he'
  obtain rfl := Option.some.inj he'
  -- an entry of the members before or after has another offset
  have hoffset : ∀ {base : Nat} {ms : List TarMember}, (∀ m ∈ ms, m.Wf) →
      e ∈ (placed base ms).filterMap entryOf →
      base + tarBlockSize ≤ e.offset ∧ e.offset ≤ base + (ms.flatMap TarMember.bytes).length := by
    intro base ms hms hmem
    obtain ⟨q, hq, heq⟩ := List.mem_filterMap.mp hmem
    have hbounds := placed_bounds hms hq
    rcases entryOf_offset heq (by omega) with h0 | hq1
    · rw [hoff] at h0
      exact absurd h0 (by unfold tarBlockSize; omega)
    · rw [hq1]
      exact hbounds
  have hwfb : ∀ m ∈ before, m.Wf := fun m hm => hwf.members m (hsplit ▸ List.mem_append_left _ hm)
  have hwfa : ∀ m ∈ after, m.Wf := fun m hm =>
    hwf.members m (hsplit ▸ List.mem_append_right _ (List.mem_cons_of_mem _ hm))
  have hsize : 0 < tarBlockSize := by decide
  have hblock := (hwf.members m hm).length_bytes
  have hidx : idx = ((placed 0 before).filterMap entryOf).length ∧ e = own := by
    rw [hentries] at he
    rcases lt_trichotomy idx ((placed 0 before).filterMap entryOf).length with hlt | heq | hgt
    · rw [List.getElem?_append_left hlt] at he
      have hb := hoffset hwfb (List.mem_of_getElem? he)
      omega
    · rw [heq, List.getElem?_append_right (Nat.le_refl _), Nat.sub_self] at he
      exact ⟨heq, (Option.some.inj he).symm⟩
    · obtain ⟨k, hk⟩ : ∃ k, idx - ((placed 0 before).filterMap entryOf).length = k + 1 :=
        ⟨idx - ((placed 0 before).filterMap entryOf).length - 1, by omega⟩
      rw [List.getElem?_append_right hgt.le, hk, List.getElem?_cons_succ] at he
      have ha := hoffset hwfa (List.mem_of_getElem? he)
      omega
  -- the member before has an entry there, with the same name
  have hentry : ∃ e₁, e₁ ∈ (placed 0 before).filterMap entryOf ∧
      e₁.name = normalizeName m'.name := by
    obtain ⟨b, c, hbc⟩ := List.append_of_mem hm'
    have hp := mem_placed hbc
    have hp' : ((b.flatMap TarMember.bytes).length + tarBlockSize, m') ∈ placed 0 a.members := by
      rw [hsplit, placed_append]
      exact List.mem_append_left _ hp
    have hsome : entryOf ((b.flatMap TarMember.bytes).length + tarBlockSize, m') =
        some (headerEntry m'.header ((b.flatMap TarMember.bytes).length + tarBlockSize -
          tarBlockSize)) := by
      refine if_pos ⟨hindexed, ?_⟩
      rw [(hwfb m' hm').cString_name (hread.short m' (mem_of_placed hp') hindexed), hsame]
      exact hread.root m hm hreg
    exact ⟨_, List.mem_filterMap.mpr ⟨_, hp, hsome⟩, (hread.entryFor hwf hlinks hp' hsome).name⟩
  obtain ⟨e₁, hmem₁, hname₁⟩ := hentry
  obtain ⟨j, hj, hje⟩ := List.mem_iff_getElem.mp hmem₁
  refine hbefore j e₁ (by rw [hidx.1]; exact hj) ?_ ?_
  · rw [hentries, List.getElem?_append_left hj, List.getElem?_eq_getElem hj, hje]
  · rw [hname₁, hsame, ← hname, hidx.2, hfor.name]

end Serve

/-- A ustar header with the mode 644; `size` is the digits of the size. -/
def ustarHeader (name size : List UInt8) (typeflag : UInt8) (linkname : List UInt8) : List UInt8 :=
  name ++ List.replicate (100 - name.length) 0 ++ [0x30, 0x30, 0x30, 0x30, 0x36, 0x34, 0x34, 0] ++
    List.replicate 16 0 ++ List.replicate (11 - size.length) 0x30 ++ size ++ [0] ++
    List.replicate 20 0 ++ [typeflag] ++ linkname ++ List.replicate (100 - linkname.length) 0 ++
    [0x75, 0x73, 0x74, 0x61, 0x72, 0] ++ List.replicate 249 0

theorem length_ustarHeader {name size linkname : List UInt8} (hname : name.length ≤ 100)
    (hsize : size.length ≤ 11) (hlink : linkname.length ≤ 100) (typeflag : UInt8) :
    (ustarHeader name size typeflag linkname).length = tarBlockSize := by
  simp only [ustarHeader, List.length_append, List.length_replicate, List.length_cons,
    List.length_nil, tarBlockSize]
  omega

theorem nameField_ustarHeader {name : List UInt8} (hname : name.length ≤ 100) (hnul : 0 ∉ name)
    (size : List UInt8) (typeflag : UInt8) (linkname : List UInt8) :
    NameField (field (ustarHeader name size typeflag linkname) 0 100) name := by
  refine ⟨hname, ?_, hnul⟩
  have hlen : (name ++ List.replicate (100 - name.length) (0 : UInt8)).length = 100 := by
    rw [List.length_append, List.length_replicate]
    omega
  simp only [field, ustarHeader, List.drop_zero, List.append_assoc]
  rw [← List.append_assoc name]
  exact List.take_left' hlen

theorem octalField_of_digits (digits : List UInt8) {n : Nat} (hoctal : ∀ b ∈ digits, isOctal b)
    (hlen : 6 ≤ digits.length) (hvalue : octalValue digits = n) : OctalField (digits ++ [0]) n :=
  ⟨digits, [0], rfl, hoctal, hlen, List.cons_ne_nil 0 [],
    fun _ hb => .inl (List.mem_singleton.mp hb), hvalue⟩

/-- A file of one byte, and a symlink. -/
def oneByteFile (name : List UInt8) : TarMember :=
  ⟨ustarHeader name [0x31] 0x30 [], name, 0x30, [], [7]⟩

def linkTo (name target : List UInt8) : TarMember :=
  ⟨ustarHeader name [0x30] 0x32 target, name, 0x32, target, []⟩

/-- The file `a` and the symlink `b` to it. -/
def smallTar : TarArchive := ⟨[oneByteFile [97], linkTo [98] [97]], []⟩

theorem mode644 : OctalField [0x30, 0x30, 0x30, 0x30, 0x36, 0x34, 0x34, 0] 420 :=
  octalField_of_digits [0x30, 0x30, 0x30, 0x30, 0x36, 0x34, 0x34] (by simp [isOctal]) (by decide) rfl

theorem size1 : OctalField (List.replicate 10 0x30 ++ [0x31] ++ [0]) 1 :=
  octalField_of_digits _ (by simp [isOctal]) (by decide) rfl

theorem size0 : OctalField (List.replicate 11 0x30 ++ [0]) 0 :=
  octalField_of_digits _ (by simp [isOctal]) (by decide) rfl

theorem smallTar_wf : smallTar.Wf where
  members m hm := by
    rcases List.mem_cons.mp hm with rfl | hm
    · exact ⟨length_ustarHeader (by decide) (by decide) (by decide) _,
        nameField_ustarHeader (by decide) (by decide) _ _ _, by decide, ⟨420, mode644⟩, size1, rfl,
        ⟨by decide, by decide, by decide⟩, rfl, fun h => absurd h (by decide)⟩
    · rw [List.mem_singleton.mp hm]
      exact ⟨length_ustarHeader (by decide) (by decide) (by decide) _,
        nameField_ustarHeader (by decide) (by decide) _ _ _, by decide, ⟨420, mode644⟩, size0, rfl,
        ⟨by decide, by decide, by decide⟩, rfl, fun _ => rfl⟩
  distinct := by decide
  count := by decide

/-- A file whose name fills the name field. -/
def fullNameTar : TarArchive := ⟨[oneByteFile (List.replicate 100 97)], []⟩

end Lestra
