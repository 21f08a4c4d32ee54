import Lestra.Fs.Contents

/-!
# The size of memfs files

`vfs_write` and `vfs_write_at` cut the count of bytes at the end of the data array, and
raise the size to the end that they computed before; from a position behind the array
on, the cut count wraps around.

* `memfs_size_bound` — as long as writes end inside the array, sizes stay in it, no call
  touches a byte outside it, and a write stores what it says it stored.
-/

namespace Lestra

/-- The size of every file is that of its data array at most. -/
def SizesFit (m : Memfs) : Prop :=
  ∀ i, (m.files i).isDir = false → (m.files i).size ≤ maxFileSize

/-- A write of `len` bytes at `off` ends inside the array, or finds it full. -/
def writeInside (off len : Nat) : Prop := off + min len maxFileSize ≤ maxFileSize ∨ off = maxFileSize

instance (off len : Nat) : Decidable (writeInside off len) := inferInstanceAs (Decidable (_ ∨ _))

/-- The writes of a step end inside the array. -/
def endsInside (m : Memfs) (st : VfsStep) : Prop :=
  match st.call with
  | .write fd buf => ∀ i, fileOf m fd i → writeInside (writeOffset m i) buf.length
  | .writeAt fd buf offset => ∀ i, fileOf m fd i → writeInside (sizeT offset) buf.length
  | _ => True

/-- The file `f'` is `f` with the first `ret` bytes of the buffer at `off`, and ends there
at most if it grew. -/
def Stored (f f' : MemFile) (off : Nat) (buf : List UInt8) (ret : Int) : Prop :=
  ∃ n ≤ buf.length, ret = n ∧ (n = 0 ∨ off + n ≤ maxFileSize) ∧
    (∀ k, ByteBuf.get f'.data k =
      if off ≤ k ∧ k < off + n then ByteBuf.get buf (k - off) else ByteBuf.get f.data k) ∧
    f'.size ≤ max f.size (off + n)

/-- What a write stores in a file. -/
def writeStored (m m' : Memfs) (r : Reply) : VfsCall → Prop
  | .write fd buf => ∀ i, fileOf m fd i →
      Stored (m.files i) (m'.files i) (writeOffset m i) buf r.ret
  | .writeAt fd buf offset => ∀ i, fileOf m fd i →
      Stored (m.files i) (m'.files i) (sizeT offset) buf r.ret
  | _ => True

/-- The sizes fit, the call returns without an access outside a data array, and a write
stores what it returns. -/
def SizeLaw (m : Memfs) (st : VfsStep) : Prop :=
  SizesFit m ∧ staysInside st.caller m st.call ∧
    ∃ m' r, vfsCall st.drivers st.caller m st.call = some (m', r) ∧ writeStored m m' r st.call

section

variable {d : Drivers} {c : Caller} {m : Memfs} {i : Fin maxFiles} {fd offset : Int} {off : Nat}
  {f : MemFile} {buf : List UInt8}

-- ---------------------------------------------------------------------------
-- One write
-- ---------------------------------------------------------------------------

theorem writeInside.le {len : Nat} (h : writeInside off len) : off ≤ maxFileSize := by
  rcases h with h | h <;> omega

/-- A write that finds room is not cut. -/
theorem writeInside.count {len : Nat} (h : writeInside off len) (hfull : ¬ writeFull off len) :
    writeCount off len = min len maxFileSize ∧ writeEnd off len = off + writeCount off len ∧
      off + writeCount off len ≤ maxFileSize := by
  have hend := writeEnd_eq len h.le
  have hcount := writeCount_eq len h.le
  unfold writeFull at hfull
  rcases h with h | h
  · omega
  · have hnone : ¬ maxFileSize < writeEnd off len := fun hlt => hfull ⟨hlt, by omega⟩
    omega

theorem writeNode_stored (h : writeInside off buf.length) (hfull : ¬ writeFull off buf.length) :
    Stored f (writeNode off buf f) off buf (writeCount off buf.length : Nat) := by
  obtain ⟨hcount, hend, hroom⟩ := h.count hfull
  refine ⟨writeCount off buf.length, by omega, rfl, Or.inr hroom, fun k => ?_, ?_⟩
  · have hlen : (buf.take (writeCount off buf.length)).length = writeCount off buf.length := by
      rw [List.length_take]
      omega
    rw [writeNode, ByteBuf.get_store, hlen]
    split
    · rename_i hk
      rw [ByteBuf.get, ByteBuf.get, List.getD_eq_getElem?_getD, List.getElem?_take_of_lt (by omega),
        ← List.getD_eq_getElem?_getD]
    · rfl
  · exact Nat.le_of_eq (by rw [writeNode, hend])

/-- A write that finds the array full stores nothing. -/
theorem stored_none (f : MemFile) (off : Nat) (buf : List UInt8) : Stored f f off buf 0 := by
  refine ⟨0, Nat.zero_le _, rfl, Or.inl rfl, fun k => ?_, Nat.le_max_left ..⟩
  rw [if_neg (by omega)]

theorem SizesFit.setNode (h : SizesFit m) {m' : Memfs} (hroom : writeInside off buf.length)
    (hfull : ¬ writeFull off buf.length)
    (hfiles : m'.files = Lestra.setNode m.files i (writeNode off buf)) : SizesFit m' := by
  obtain ⟨-, hend, hle⟩ := hroom.count hfull
  intro j hdir
  rw [hfiles] at hdir ⊢
  by_cases hj : j = i
  · subst hj
    rw [setNode_same] at hdir ⊢
    exact Nat.max_le.mpr ⟨h j hdir, by omega⟩
  · rw [setNode_ne _ _ hj] at hdir ⊢
    exact h j hdir

-- ---------------------------------------------------------------------------
-- One step
-- ---------------------------------------------------------------------------

/-- Any file that fits holds the bytes of its array. -/
theorem SizesFit.holds (h : SizesFit m) :
    MemHolds m fun i => ByteBuf.load (m.files i).data 0 (m.files i).size := by
  refine fun i hdir => ⟨h i hdir, by simp [ByteBuf.load], fun k hk => ?_⟩
  have hload : (ByteBuf.load (m.files i).data 0 (m.files i).size)[k]? =
      some (ByteBuf.get (m.files i).data (0 + k)) := ByteBuf.getElem?_load hk
  rw [Nat.zero_add] at hload
  exact (congrArg (fun x : Option UInt8 => x.getD 0) hload).symm

theorem MemHolds.sizesFit {contents : Fin maxFiles → List UInt8} (h : MemHolds m contents) :
    SizesFit m := fun i hdir => (h i hdir).1

theorem SizesFit.staysInside (h : SizesFit m) {st : VfsStep} (hok : endsInside m st) :
    staysInside st.caller m st.call := by
  obtain ⟨d, c, call⟩ := st
  have hread : ∀ i off count, (m.files i).isDir = false → readInside (m.files i) off count := by
    intro i off count hdir
    have hsize := h i hdir
    by_cases hoff : (m.files i).size ≤ off
    · exact Or.inl hoff
    · exact Or.inr (by omega)
  cases call with
  | truncate path length => exact fun i _ _ _ _ hdir => h i hdir
  | ftruncate fd length => exact fun i _ _ hfile => h i hfile.2.2
  | read fd count => exact fun i hfile => hread i _ _ hfile.2.2
  | readAt fd count offset => exact fun i hfile => hread i _ _ hfile.2.2
  | write fd buf => exact fun i hfile => (hok i hfile).le
  | writeAt fd buf offset => exact fun i hfile => (hok i hfile).le
  | _ => trivial

theorem vfsWrite_sizeLaw (d : Drivers) (h : SizesFit m)
    (hok : ∀ i, fileOf m fd i → writeInside (writeOffset m i) buf.length) :
    ∃ m' r, vfsWrite d m fd buf = some (m', r) ∧ writeStored m m' r (.write fd buf) ∧
      SizesFit m' := by
  by_cases hfile : ∃ i, fileOf m fd i
  · obtain ⟨i, hi⟩ := hfile
    by_cases hfull : writeFull (writeOffset m i) buf.length
    · have heq : vfsWrite d m fd buf = some (m, ⟨0, []⟩) := by
        simp only [vfsWrite, hi.1, hi.2.1, hi.2.2, Bool.false_eq_true, if_false, if_pos hfull]
      exact ⟨m, _, heq, fun j _ => stored_none _ _ _, h⟩
    · obtain ⟨-, -, hroom⟩ := (hok i hi).count hfull
      have heq : vfsWrite d m fd buf = some ({ m with
          files := setNode m.files i (writeNode (writeOffset m i) buf)
          offsets := Function.update m.offsets i
            (writeOffset m i + writeCount (writeOffset m i) buf.length) },
          ⟨writeCount (writeOffset m i) buf.length, []⟩) := by
        simp only [vfsWrite, hi.1, hi.2.1, hi.2.2, Bool.false_eq_true, if_false, if_neg hfull,
          if_pos hroom]
      refine ⟨_, _, heq, fun j hj => ?_, h.setNode (hok i hi) hfull rfl⟩
      obtain rfl := fileOf_unique hi hj
      dsimp only
      rw [setNode_same]
      exact writeNode_stored (hok i hi) hfull
  · simp only [not_exists] at hfile
    rcases vfsWrite_cases d buf fun i hi => absurd hi (hfile i) with ⟨r, heq, -⟩ | ⟨i, hi, -⟩
    · exact ⟨m, r, heq, fun i hi => absurd hi (hfile i), h⟩
    · exact absurd hi (hfile i)

theorem vfsWriteAt_sizeLaw (d : Drivers) (h : SizesFit m)
    (hok : ∀ i, fileOf m fd i → writeInside (sizeT offset) buf.length) :
    ∃ m' r, vfsWriteAt d m fd buf offset = some (m', r) ∧
      writeStored m m' r (.writeAt fd buf offset) ∧ SizesFit m' := by
  by_cases hfile : ∃ i, fileOf m fd i
  · obtain ⟨i, hi⟩ := hfile
    by_cases hfull : writeFull (sizeT offset) buf.length
    · have heq : vfsWriteAt d m fd buf offset = some (m, ⟨0, []⟩) := by
        simp only [vfsWriteAt, hi.1, hi.2.1, hi.2.2, Bool.false_eq_true, if_false, if_pos hfull]
      exact ⟨m, _, heq, fun j _ => stored_none _ _ _, h⟩
    · obtain ⟨-, -, hroom⟩ := (hok i hi).count hfull
      have heq : vfsWriteAt d m fd buf offset =
          some ({ m with files := setNode m.files i (writeNode (sizeT offset) buf) },
            ⟨writeCount (sizeT offset) buf.length, []⟩) := by
        simp only [vfsWriteAt, hi.1, hi.2.1, hi.2.2, Bool.false_eq_true, if_false, if_neg hfull,
          if_pos hroom]
      refine ⟨_, _, heq, fun j hj => ?_, h.setNode (hok i hi) hfull rfl⟩
      obtain rfl := fileOf_unique hi hj
      dsimp only
      rw [setNode_same]
      exact writeNode_stored (hok i hi) hfull
  · simp only [not_exists] at hfile
    rcases vfsWriteAt_cases d buf fun i hi => absurd hi (hfile i) with ⟨r, heq, -⟩ | ⟨i, hi, -⟩
    · exact ⟨m, r, heq, fun i hi => absurd hi (hfile i), h⟩
    · exact absurd hi (hfile i)

/-- One step whose writes end inside the array. -/
theorem vfsStep_sizeLaw (h : SizesFit m) {st : VfsStep} (hok : endsInside m st) :
    SizeLaw m st ∧ ∃ m', vfsStep m st = some m' ∧ SizesFit m' := by
  have hstays := h.staysInside hok
  obtain ⟨d, c, call⟩ := st
  -- a call that does not write keeps the byte lists of the files
  have hlists : memAllowed ⟨m, fun i => ByteBuf.load (m.files i).data 0 (m.files i).size⟩ ⟨d, c, call⟩ →
      (∀ m' r, writeStored m m' r call) →
      SizeLaw m ⟨d, c, call⟩ ∧ ∃ m', vfsStep m ⟨d, c, call⟩ = some m' ∧ SizesFit m' := by
    intro hallowed hnone
    obtain ⟨m', r, heq, -, hholds⟩ := vfsCall_holds h.holds hallowed
    exact ⟨⟨h, hstays, m', r, heq, hnone m' r⟩, m', vfsStep_of_call ⟨d, c, call⟩ heq, hholds.sizesFit⟩
  cases call with
  | write fd buf =>
    obtain ⟨m', r, heq, hstored, hfits⟩ := vfsWrite_sizeLaw d h hok
    exact ⟨⟨h, hstays, m', r, heq, hstored⟩, m', vfsStep_of_call ⟨d, c, .write fd buf⟩ heq, hfits⟩
  | writeAt fd buf offset =>
    obtain ⟨m', r, heq, hstored, hfits⟩ := vfsWriteAt_sizeLaw d h hok
    exact ⟨⟨h, hstays, m', r, heq, hstored⟩, m', vfsStep_of_call ⟨d, c, .writeAt fd buf offset⟩ heq,
      hfits⟩
  | _ => exact hlists ⟨trivial, trivial⟩ fun _ _ => trivial

end

/--
**The size of memfs files.** In every run of calls whose writes end inside the data
array, every size stays in it, every call returns without an access outside it, and
every write stores the bytes that it says it stored.
-/
theorem memfs_size_bound (m : Memfs) (hm : SizesFit m) (steps : List VfsStep)
    (hok : Run.AllowedOption vfsStep endsInside m steps) :
    (∃ m', Run.runOption vfsStep m steps = some m' ∧ SizesFit m') ∧
      Run.AllowedOption vfsStep SizeLaw m steps :=
  Run.runOption_good (fun _ _ h hst => vfsStep_sizeLaw h hst) steps m hm hok

/-- Two bytes are written at the end of the array of a new file. -/
def lastBytesRun : List VfsStep :=
  [bareStep (.open [slash, 97] oCreat), bareStep (.writeAt 4 [1, 2] 65534)]

theorem vfsInit_sizesFit : SizesFit vfsInit := by
  have hsize : ∀ i, (vfsInit.files i).size = 0 := by decide
  exact fun i _ => by rw [hsize]; exact Nat.zero_le _

theorem memfs_size_bound_last :
    (∃ m', Run.runOption vfsStep vfsInit lastBytesRun = some m' ∧ SizesFit m') ∧
      Run.AllowedOption vfsStep SizeLaw vfsInit lastBytesRun := by
  refine memfs_size_bound vfsInit vfsInit_sizesFit lastBytesRun
    ⟨trivial, fun s₁ h₁ => ⟨fun _ _ => ?_, fun _ _ => trivial⟩⟩
  decide

/-- Three bytes at the end of the array: two are stored, and the size passes the maximum. A byte
behind the array: the call writes outside it. -/
theorem memfs_size_passes_maximum :
    ((Run.runOption vfsStep vfsInit
      [bareStep (.open [slash, 97] oCreat), bareStep (.writeAt 4 [1, 2, 3] 65534)]).map fun m =>
        (m.files ⟨1, by decide⟩).size) = some 65537 ∧
      (Run.runOption vfsStep vfsInit
        [bareStep (.open [slash, 97] oCreat), bareStep (.writeAt 4 [1] 65537)]).isNone := by
  decide

end Lestra
