import Lestra.Fs.Tarfs

/-!
# The bytes that tarfs reads

Which bytes of the blob `tarfs_init` looks at while it builds the index, and which ones
`tarfs_read` copies (`kernel/fs/tar_extract.c`). The loop asks whether a header fits; whether
the data behind it does is asked nowhere.

* `tarfsWalk` — the loop of `tarfs_init` with the bytes that it reads
* `tarfsRun` — the bytes that a sequence of calls copies
* `DataFits` — no file is cut off by the end of the blob
* `tarfs_inside_iff` — exactly then tarfs stays inside the blob
-/

namespace Lestra

-- ---------------------------------------------------------------------------
-- The loop with its reads
-- ---------------------------------------------------------------------------

/-- The bytes that `strncpy(dst, header + start, n)` reads. -/
def strncpyReads (header : List UInt8) (start n : ℕ) : List ℕ :=
  List.range' start (min n ((cString (header.drop start)).length + 1))

/-- Where `normalize_name` starts to copy. -/
def nameStart (header : List UInt8) : ℕ :=
  let src := if header.take 2 = [dot, slash] then 2 else 0
  if header.getD src 0 = slash then src + 1 else src

/-- The bytes that `normalize_name` reads. -/
def nameReads (header : List UInt8) : List ℕ :=
  [0, if header.getD 0 0 = dot then 1 else 0, if header.take 2 = [dot, slash] then 2 else 0] ++
    strncpyReads header (nameStart header) 255

/-- `memcpy(size_str, header + 124, 11)` -/
def sizeReads : List ℕ := List.range' 124 11

/-- The header is that of a file or a link. -/
def isMember (header : List UInt8) : Bool :=
  (isRegularType (header.getD 156 0) || isSymlinkType (header.getD 156 0)) &&
    normalizeName (cString header) != [slash]

/-- The bytes of the header that a turn of the loop reads. -/
def headerReads (header : List UInt8) (room : Bool) : List ℕ :=
  let typeflag := header.getD 156 0
  if header.getD 0 0 = 0 then [0]
  else if isPaxType typeflag then [0, 156] ++ sizeReads
  else if !isRegularType typeflag && !isSymlinkType typeflag then [0, 156] ++ sizeReads
  else if normalizeName (cString header) = [slash] then [0, 156] ++ nameReads header
  else
    [0, 156] ++ nameReads header ++ sizeReads ++
      if room && isSymlinkType typeflag then strncpyReads header 157 255 else []

/-- A turn of the loop: how far `ptr` goes on, and the table. -/
def tarfsTurn (offset : ℕ) (header : List UInt8) (entries : List TarfsEntry) :
    Option (ℕ × List TarfsEntry) :=
  let typeflag := header.getD 156 0
  let next := tarBlockSize + tarPadded (headerSize header)
  if header.getD 0 0 = 0 then none
  else if isPaxType typeflag then some (next, entries)
  else if !isRegularType typeflag && !isSymlinkType typeflag then some (next, entries)
  else if normalizeName (cString header) = [slash] then some (tarBlockSize, entries)
  else
    some (next,
      if entries.length < maxTarfsEntries then entries ++ [headerEntry header offset] else entries)

/-- The loop of `tarfs_init`, with the bytes of the blob that it has read; `none` while it
has not returned. -/
def tarfsWalk : ℕ → ℕ → List UInt8 → List TarfsEntry → List ℕ → Option (List TarfsEntry × List ℕ)
  | 0, _, _, _, _ => none
  | fuel + 1, offset, rest, entries, reads =>
    if rest.length < tarBlockSize then some (entries, reads)
    else
      let header := rest.take tarBlockSize
      let room := decide (entries.length < maxTarfsEntries)
      let reads := reads ++ (headerReads header room).map (offset + ·)
      match tarfsTurn offset header entries with
      | none => some (entries, reads)
      | some (next, entries) => tarfsWalk fuel (offset + next) (rest.drop next) entries reads

-- ---------------------------------------------------------------------------
-- Calls
-- ---------------------------------------------------------------------------

/-- `fd -= TARFS_FD_BASE`, when it is a slot of the table. -/
def tarfsSlot (fd : ℤ) : Option (Fin maxTarfsOpen) :=
  if h : 0 ≤ fd - tarfsFdBase ∧ (fd - tarfsFdBase).toNat < maxTarfsOpen then some ⟨_, h.2⟩ else none

def tarfsClose (t : Tarfs) (i : Fin maxTarfsOpen) : Tarfs :=
  t.setOpen i { t.opens i with used := false }

/-- The place in the blob and the number of the bytes that `tarfs_read` copies. -/
def tarfsCopied (t : Tarfs) (i : Fin maxTarfsOpen) (count : ℕ) : Option (ℕ × ℕ) :=
  let o := t.opens i
  if o.used = false then none
  else
    match t.entries[o.entryIdx]? with
    | none => none
    | some e =>
      if e.size ≤ o.pos then none else some (e.offset + o.pos, min count (e.size - o.pos))

inductive TarfsCall where
  | openPath (path : List UInt8)
  | readFd (fd : ℤ) (count : ℕ)
  | closeFd (fd : ℤ)

/-- A call, with what it copies from the blob. A descriptor outside the table is refused. -/
def tarfsStep (t : Tarfs) : TarfsCall → Tarfs × Option (ℕ × ℕ)
  | .openPath path => ((tarfsOpen t path).1, none)
  | .readFd fd count =>
    match tarfsSlot fd with
    | none => (t, none)
    | some i => ((tarfsRead t i count).1, tarfsCopied t i count)
  | .closeFd fd => (((tarfsSlot fd).map (tarfsClose t)).getD t, none)

/-- What a sequence of calls copies from the blob. -/
def tarfsRun (t : Tarfs) : List TarfsCall → List (ℕ × ℕ)
  | [] => []
  | call :: calls => (tarfsStep t call).2.toList ++ tarfsRun (tarfsStep t call).1 calls

/-- Indexing the blob returns and reads no byte outside of it, every indexed file lies inside
of it, and so does all that calls copy. -/
structure TarfsInside (blob : List UInt8) : Prop where
  index : ∃ fuel reads, tarfsWalk fuel 0 blob [] [] = some ((tarfsInit blob).entries, reads) ∧
    ∀ i ∈ reads, i < blob.length
  fits : ∀ e ∈ (tarfsInit blob).entries, e.isSymlink = false → e.offset + e.size ≤ blob.length
  run : ∀ calls, ∀ r ∈ tarfsRun (tarfsInit blob) calls, r.1 + r.2 ≤ blob.length

-- ---------------------------------------------------------------------------
-- The archive
-- ---------------------------------------------------------------------------

/-- The block at `o`. -/
def blockFrom (blob : List UInt8) (o : ℕ) : List UInt8 := (blob.drop o).take tarBlockSize

/-- A block that can be a header. -/
def Opens (blob : List UInt8) (o : ℕ) : Prop :=
  o + tarBlockSize ≤ blob.length ∧ (blockFrom blob o).getD 0 0 ≠ 0

/-- From a header to the next one. A header without a name has no data. -/
def headerStride (header : List UInt8) : ℕ :=
  if (isRegularType (header.getD 156 0) || isSymlinkType (header.getD 156 0)) &&
      normalizeName (cString header) == [slash] then tarBlockSize
  else tarBlockSize + tarPadded (headerSize header)

/-- The headers of the archive lead to the place, with so many files and links before it. -/
inductive Leads (blob : List UInt8) : ℕ → ℕ → Prop where
  | start : Leads blob 0 0
  | next {o n : ℕ} (hbefore : Leads blob o n) (hopens : Opens blob o) :
    Leads blob (o + headerStride (blockFrom blob o)) (n + (isMember (blockFrom blob o)).toNat)

/-- A header of the archive that the index has room for. -/
structure Indexed (blob : List UInt8) (o : ℕ) : Prop where
  leads : ∃ n < maxTarfsEntries, Leads blob o n
  opens : Opens blob o
  member : isMember (blockFrom blob o)

/-- The data of each file is there. -/
def DataFits (blob : List UInt8) : Prop :=
  ∀ o, Indexed blob o → isSymlinkType ((blockFrom blob o).getD 156 0) = false →
    o + tarBlockSize + headerSize (blockFrom blob o) ≤ blob.length

-- ---------------------------------------------------------------------------
-- One turn
-- ---------------------------------------------------------------------------

variable {blob header rest : List UInt8} {entries : List TarfsEntry} {o n : ℕ}

theorem mem_strncpyReads {start k i : ℕ} (h : i ∈ strncpyReads header start k) : i < start + k := by
  rw [strncpyReads, List.mem_range'_1] at h
  omega

theorem nameStart_le (header : List UInt8) : nameStart header ≤ 3 := by
  rw [nameStart]
  split_ifs <;> omega

theorem nameReads_lt : ∀ i ∈ nameReads header, i < tarBlockSize := by
  intro i hi
  rw [nameReads, List.mem_append] at hi
  rcases hi with hi | hi
  · have hsmall : i ≤ 2 := by
      simp only [List.mem_cons, List.not_mem_nil, or_false] at hi
      rcases hi with rfl | rfl | rfl
      · omega
      · split <;> omega
      · split <;> omega
    exact lt_of_le_of_lt hsmall (by decide)
  · have hlt := mem_strncpyReads hi
    have hstart := nameStart_le header
    rw [tarBlockSize]
    omega

theorem sizeReads_lt : ∀ i ∈ sizeReads, i < tarBlockSize := by decide

/-- A turn looks at its header only. -/
theorem headerReads_lt (header : List UInt8) (room : Bool) :
    ∀ i ∈ headerReads header room, i < tarBlockSize := by
  have hfirst : ∀ i ∈ [0, 156], i < tarBlockSize := by decide
  have hlink : ∀ i ∈ strncpyReads header 157 255, i < tarBlockSize := fun i hi =>
    (mem_strncpyReads hi).trans (by decide)
  have hname : ∀ i ∈ [0, 156] ++ nameReads header, i < tarBlockSize :=
    List.forall_mem_append.mpr ⟨hfirst, nameReads_lt⟩
  have hsize : ∀ i ∈ [0, 156] ++ nameReads header ++ sizeReads, i < tarBlockSize :=
    List.forall_mem_append.mpr ⟨hname, sizeReads_lt⟩
  rw [headerReads]
  split_ifs
  · exact fun i hi => hfirst i (List.mem_cons.mpr (.inl (List.mem_singleton.mp hi)))
  · exact List.forall_mem_append.mpr ⟨hfirst, sizeReads_lt⟩
  · exact List.forall_mem_append.mpr ⟨hfirst, sizeReads_lt⟩
  · exact hname
  · exact List.forall_mem_append.mpr ⟨hsize, hlink⟩
  · exact List.forall_mem_append.mpr ⟨hsize, nofun⟩

theorem stride_ge (header : List UInt8) : tarBlockSize ≤ headerStride header := by
  rw [headerStride]
  split <;> omega

theorem isPax_not_member (h : isPaxType (header.getD 156 0)) :
    (isRegularType (header.getD 156 0) || isSymlinkType (header.getD 156 0)) = false := by
  revert h
  generalize header.getD 156 0 = typeflag
  simp only [isPaxType, isRegularType, isSymlinkType, Bool.or_eq_true, beq_iff_eq]
  rintro (rfl | rfl) <;> decide

/-- The table behind a header. -/
def withEntry (entries : List TarfsEntry) (header : List UInt8) (o : ℕ) : List TarfsEntry :=
  if isMember header ∧ entries.length < maxTarfsEntries then entries ++ [headerEntry header o]
  else entries

/-- A turn goes on by the stride of its header. -/
theorem tarfsTurn_eq (h : header.getD 0 0 ≠ 0) :
    tarfsTurn o header entries = some (headerStride header, withEntry entries header o) := by
  rw [tarfsTurn, if_neg h, headerStride, withEntry, isMember]
  by_cases hpax : isPaxType (header.getD 156 0)
  · rw [if_pos hpax, isPax_not_member hpax]
    rfl
  rw [if_neg hpax, ← Bool.not_or]
  cases htype : isRegularType (header.getD 156 0) || isSymlinkType (header.getD 156 0) with
  | false => rfl
  | true =>
    by_cases hroot : normalizeName (cString header) = [slash]
    · simp [hroot]
    · simp [hroot]

theorem tarfsScan_turn (fuel : ℕ) (h : ¬ rest.length < tarBlockSize) :
    tarfsScan (fuel + 1) o rest entries =
      match tarfsTurn o (rest.take tarBlockSize) entries with
      | none => entries
      | some (next, entries) => tarfsScan fuel (o + next) (rest.drop next) entries := by
  rw [tarfsScan, if_neg h, tarfsTurn]
  dsimp only
  split_ifs <;> rfl

-- ---------------------------------------------------------------------------
-- The loop over the blob
-- ---------------------------------------------------------------------------

theorem tarfsScan_opens (fuel : ℕ) (h : Opens blob o) :
    tarfsScan (fuel + 1) o (blob.drop o) entries =
      tarfsScan fuel (o + headerStride (blockFrom blob o))
        (blob.drop (o + headerStride (blockFrom blob o))) (withEntry entries (blockFrom blob o) o) := by
  have hlong : ¬ (blob.drop o).length < tarBlockSize := by
    have := h.1
    rw [List.length_drop]
    omega
  have hturn : tarfsTurn o ((blob.drop o).take tarBlockSize) entries = _ := tarfsTurn_eq h.2
  rw [tarfsScan_turn fuel hlong, hturn]
  dsimp only
  rw [List.drop_drop]
  rfl

theorem tarfsScan_closed (fuel : ℕ) (h : ¬ Opens blob o) :
    tarfsScan fuel o (blob.drop o) entries = entries := by
  cases fuel with
  | zero => rfl
  | succ fuel =>
    by_cases hshort : (blob.drop o).length < tarBlockSize
    · rw [tarfsScan, if_pos hshort]
    · have hzero : ((blob.drop o).take tarBlockSize).getD 0 0 = 0 := by
        by_contra hne
        rw [List.length_drop] at hshort
        exact h ⟨by rw [tarBlockSize] at *; omega, hne⟩
      rw [tarfsScan, if_neg hshort]
      dsimp only
      rw [if_pos hzero]

/-- The loop returns, with the table of the index, and has read the blob only. -/
theorem tarfsWalk_scan (fuel : ℕ) {reads : List ℕ} (hfuel : blob.length ≤ o + fuel)
    (hreads : ∀ i ∈ reads, i < blob.length) :
    ∃ reads', tarfsWalk (fuel + 1) o (blob.drop o) entries reads =
        some (tarfsScan fuel o (blob.drop o) entries, reads') ∧ ∀ i ∈ reads', i < blob.length := by
  induction fuel generalizing o entries reads with
  | zero =>
    have hshort : (blob.drop o).length < tarBlockSize := by
      rw [List.length_drop, tarBlockSize]
      omega
    exact ⟨reads, by rw [tarfsWalk, if_pos hshort, tarfsScan], hreads⟩
  | succ fuel ih =>
    by_cases hshort : (blob.drop o).length < tarBlockSize
    · exact ⟨reads, by rw [tarfsWalk, if_pos hshort, tarfsScan, if_pos hshort], hreads⟩
    have hroom : ∀ room : Bool, ∀ i ∈ reads ++ (headerReads (blockFrom blob o) room).map (o + ·),
        i < blob.length := by
      intro room i hi
      rcases List.mem_append.mp hi with hi | hi
      · exact hreads i hi
      · obtain ⟨j, hj, rfl⟩ := List.mem_map.mp hi
        have hlt := headerReads_lt _ room j hj
        rw [List.length_drop] at hshort
        omega
    by_cases hopens : Opens blob o
    · have hstride := stride_ge (blockFrom blob o)
      have hless : blob.length ≤ o + headerStride (blockFrom blob o) + fuel := by
        rw [tarBlockSize] at hstride
        omega
      have hnext := hroom (decide (entries.length < maxTarfsEntries))
      obtain ⟨reads', hwalk, hinside⟩ := @ih (withEntry entries (blockFrom blob o) o) _ _ hless hnext
      refine ⟨reads', ?_, hinside⟩
      have hturn : tarfsTurn o ((blob.drop o).take tarBlockSize) entries = _ := tarfsTurn_eq hopens.2
      rw [tarfsWalk, if_neg hshort, tarfsScan_opens fuel hopens]
      dsimp only
      rw [hturn, ← hwalk]
      dsimp only
      rw [List.drop_drop]
      rfl
    · have hzero : ((blob.drop o).take tarBlockSize).getD 0 0 = 0 := by
        by_contra hne
        rw [List.length_drop] at hshort
        exact hopens ⟨by rw [tarBlockSize] at *; omega, hne⟩
      refine ⟨_, ?_, hroom (decide (entries.length < maxTarfsEntries))⟩
      rw [tarfsWalk, if_neg hshort, tarfsScan_closed (fuel + 1) hopens]
      dsimp only
      rw [tarfsTurn, if_pos hzero]
      rfl

/-- The table at a place with `n` files and links before it. -/
structure Filled (blob : List UInt8) (n : ℕ) (entries : List TarfsEntry) : Prop where
  length : entries.length = min n maxTarfsEntries
  mem : ∀ e ∈ entries, ∃ o, Indexed blob o ∧ e = headerEntry (blockFrom blob o) o

theorem filled_nil : Filled blob 0 [] := ⟨by rw [Nat.zero_min]; rfl, nofun⟩

theorem Filled.next (h : Filled blob n entries) (hleads : Leads blob o n) (hopens : Opens blob o) :
    Filled blob (n + (isMember (blockFrom blob o)).toNat)
      (withEntry entries (blockFrom blob o) o) := by
  have hlen := h.length
  cases hmember : isMember (blockFrom blob o) with
  | false =>
    rw [withEntry, hmember, if_neg (by simp)]
    exact h
  | true =>
    rw [withEntry, hmember]
    by_cases hroom : entries.length < maxTarfsEntries
    · rw [if_pos ⟨rfl, hroom⟩]
      have hn : n < maxTarfsEntries := by omega
      refine ⟨?_, fun e he => ?_⟩
      · rw [List.length_append, List.length_singleton, Bool.toNat_true]
        omega
      · rcases List.mem_append.mp he with he | he
        · exact h.mem e he
        · exact ⟨o, ⟨⟨n, hn, hleads⟩, hopens, hmember⟩, List.mem_singleton.mp he⟩
    · rw [if_neg (fun hc => hroom hc.2)]
      exact ⟨by rw [Bool.toNat_true]; omega, h.mem⟩

/-- Each entry of the index is that of an indexed header. -/
theorem tarfsScan_mem (fuel : ℕ) (hleads : Leads blob o n) (hfilled : Filled blob n entries) :
    ∀ e ∈ tarfsScan fuel o (blob.drop o) entries,
      ∃ o, Indexed blob o ∧ e = headerEntry (blockFrom blob o) o := by
  induction fuel generalizing o n entries with
  | zero => exact hfilled.mem
  | succ fuel ih =>
    by_cases hopens : Opens blob o
    · rw [tarfsScan_opens fuel hopens]
      exact ih (hleads.next hopens) (hfilled.next hleads hopens)
    · rw [tarfsScan_closed (fuel + 1) hopens]
      exact hfilled.mem

theorem tarfsScan_subset (fuel : ℕ) {e : TarfsEntry} (h : e ∈ entries) :
    e ∈ tarfsScan fuel o (blob.drop o) entries := by
  induction fuel generalizing o entries with
  | zero => exact h
  | succ fuel ih =>
    by_cases hopens : Opens blob o
    · rw [tarfsScan_opens fuel hopens]
      refine ih ?_
      rw [withEntry]
      split
      · exact List.mem_append_left _ h
      · exact h
    · rw [tarfsScan_closed (fuel + 1) hopens]
      exact h

/-- The loop comes to each place that the headers lead to. -/
theorem Leads.reached (h : Leads blob o n) : ∃ fuel entries, blob.length ≤ o + fuel ∧
    Filled blob n entries ∧ (tarfsInit blob).entries = tarfsScan fuel o (blob.drop o) entries := by
  induction h with
  | start => exact ⟨blob.length, [], by omega, filled_nil, rfl⟩
  | @next o n hbefore hopens ih =>
    obtain ⟨fuel, entries, hfuel, hfilled, hscan⟩ := ih
    have hstride := stride_ge (blockFrom blob o)
    have hfits := hopens.1
    rw [tarBlockSize] at hstride hfits
    cases fuel with
    | zero => omega
    | succ fuel =>
      exact ⟨fuel, _, by omega, hfilled.next hbefore hopens, hscan.trans (tarfsScan_opens fuel hopens)⟩

theorem Indexed.mem (h : Indexed blob o) :
    headerEntry (blockFrom blob o) o ∈ (tarfsInit blob).entries := by
  obtain ⟨n, hn, hleads⟩ := h.leads
  obtain ⟨fuel, entries, hfuel, hfilled, hscan⟩ := hleads.reached
  have hfits := h.opens.1
  have hlen := hfilled.length
  rw [hscan]
  cases fuel with
  | zero => rw [tarBlockSize] at hfits; omega
  | succ fuel =>
    rw [tarfsScan_opens fuel h.opens]
    refine tarfsScan_subset fuel ?_
    rw [withEntry, if_pos ⟨h.member, by omega⟩]
    exact List.mem_append_right _ (List.mem_singleton.mpr rfl)

-- ---------------------------------------------------------------------------
-- What calls copy
-- ---------------------------------------------------------------------------

variable {t : Tarfs} {bound : ℕ}

theorem tarfsCopied_le (h : ∀ e ∈ t.entries, e.size = 0 ∨ e.offset + e.size ≤ bound)
    {i : Fin maxTarfsOpen} {count : ℕ} {r : ℕ × ℕ} (hr : tarfsCopied t i count = some r) :
    r.1 + r.2 ≤ bound := by
  rw [tarfsCopied] at hr
  split at hr
  · cases hr
  split at hr
  · cases hr
  · rename_i e hentry
    split at hr
    · cases hr
    · rename_i hpos
      cases hr
      rcases h e (List.mem_of_getElem? hentry) with hzero | hle
      · omega
      · dsimp only
        omega

/-- No call changes the index. -/
theorem tarfsStep_entries (call : TarfsCall) : (tarfsStep t call).1.entries = t.entries := by
  cases call with
  | openPath path =>
    rw [tarfsStep, tarfsOpen]
    dsimp only
    split
    · rfl
    · split
      · rfl
      · split <;> rfl
  | readFd fd count =>
    rw [tarfsStep]
    split
    · rfl
    · rw [tarfsRead]
      dsimp only
      split
      · rfl
      · split
        · rfl
        · split <;> rfl
  | closeFd fd =>
    rw [tarfsStep]
    cases tarfsSlot fd with
    | none => rfl
    | some i => rfl

theorem tarfsRun_le (h : ∀ e ∈ t.entries, e.size = 0 ∨ e.offset + e.size ≤ bound)
    (calls : List TarfsCall) : ∀ r ∈ tarfsRun t calls, r.1 + r.2 ≤ bound := by
  induction calls generalizing t with
  | nil => exact nofun
  | cons call calls ih =>
    intro r hr
    rw [tarfsRun, List.mem_append] at hr
    rcases hr with hr | hr
    · cases call with
      | openPath path => cases hr
      | readFd fd count =>
        rw [tarfsStep] at hr
        split at hr
        · cases hr
        · exact tarfsCopied_le h (Option.mem_toList.mp hr)
      | closeFd fd => cases hr
    · exact ih (by rwa [tarfsStep_entries]) r hr

theorem headerEntry_symlink (h : isSymlinkType (header.getD 156 0)) :
    (headerEntry header o).size = 0 := by
  rw [headerEntry, if_pos h]

theorem headerEntry_file (h : isSymlinkType (header.getD 156 0) = false) :
    headerEntry header o = ⟨(normalizeName (cString header)).take 255, o + tarBlockSize,
      headerSize header, false, []⟩ := by
  rw [headerEntry, if_neg (by rw [h]; decide)]

/--
**tarfs stays inside the blob, provided that no file is cut off.** The loop that indexes the
blob always returns and reads no byte outside. The indexed files, and with them all that calls
copy, lie inside exactly if the data of each of them is there.
-/
theorem tarfs_inside_iff (blob : List UInt8) : TarfsInside blob ↔ DataFits blob := by
  constructor
  · intro h o hindexed hfile
    have hentry := h.fits _ hindexed.mem
    rw [headerEntry_file hfile] at hentry
    exact hentry rfl
  · intro h
    have hmem : ∀ e ∈ (tarfsInit blob).entries,
        ∃ o, Indexed blob o ∧ e = headerEntry (blockFrom blob o) o :=
      tarfsScan_mem blob.length .start filled_nil
    have hfits : ∀ e ∈ (tarfsInit blob).entries, e.size = 0 ∨ e.offset + e.size ≤ blob.length := by
      intro e he
      obtain ⟨o, hindexed, rfl⟩ := hmem e he
      cases htype : isSymlinkType ((blockFrom blob o).getD 156 0) with
      | true => exact .inl (headerEntry_symlink htype)
      | false =>
        rw [headerEntry_file htype]
        exact .inr (h o hindexed htype)
    refine ⟨?_, fun e he hfile => ?_, fun calls => tarfsRun_le hfits calls⟩
    · obtain ⟨reads, hwalk, hinside⟩ := @tarfsWalk_scan blob [] 0 blob.length []
        (Nat.le_add_left ..) nofun
      exact ⟨blob.length + 1, reads, hwalk, hinside⟩
    · obtain ⟨o, hindexed, rfl⟩ := hmem e he
      cases htype : isSymlinkType ((blockFrom blob o).getD 156 0) with
      | true =>
        rw [headerEntry, if_pos htype] at hfile
        cases hfile
      | false =>
        rw [headerEntry_file htype]
        exact h o hindexed htype

/-- The header of a file "a" of one byte, and nothing behind it. -/
def cutArchive : List UInt8 :=
  [0x61] ++ List.replicate 123 0 ++ [0x31] ++ List.replicate 387 0

/-- The byte behind the blob is read. -/
theorem cutArchive_outside : tarfsRun (tarfsInit cutArchive)
    [.openPath [slash, 0x61], .readFd tarfsFdBase 1] = [(512, 1)] ∧ cutArchive.length = 512 ∧
    ¬ TarfsInside cutArchive := by
  have hrun : tarfsRun (tarfsInit cutArchive)
      [.openPath [slash, 0x61], .readFd tarfsFdBase 1] = [(512, 1)] := by decide +kernel
  have hlen : cutArchive.length = 512 := by
    simp only [cutArchive, List.length_append, List.length_replicate, List.length_singleton]
  refine ⟨hrun, hlen, fun h => ?_⟩
  have hle := h.run _ (512, 1) (by rw [hrun]; exact List.mem_singleton.mpr rfl)
  rw [hlen] at hle
  exact absurd hle (by decide)

end Lestra
