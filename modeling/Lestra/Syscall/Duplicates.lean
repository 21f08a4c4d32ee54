import Lestra.Lib.FirstFit
import Lestra.Syscall.Descriptors

/-!
# Duplicated descriptors

* `Duplicates` — one descriptor is a copy of another, and nothing else changed
* `dup_equivalent_iff` — when `dup`, `dup2` and `F_DUPFD` make such a copy, and
  what the flag commands of `fcntl` read back
-/

namespace Lestra

variable {fds fds' : FdTable} {o n : Fin maxFdPerProc} {lo : Int}

-- ---------------------------------------------------------------------------
-- Free descriptors
-- ---------------------------------------------------------------------------

/-- `n` is the lowest free descriptor from `lo` on. -/
structure LowestFree (fds : FdTable) (lo : Int) (n : Fin maxFdPerProc) : Prop where
  ge : lo ≤ n.val
  free : (fds n).type = .unused
  least : ∀ j : Fin maxFdPerProc, lo ≤ j.val → (fds j).type = .unused → n ≤ j

/-- No descriptor is free from `lo` on. -/
def NoFree (fds : FdTable) (lo : Int) : Prop :=
  ∀ j : Fin maxFdPerProc, lo ≤ j.val → (fds j).type ≠ .unused

theorem lowestFree_some (h : lowestFree fds lo = some n) : LowestFree fds lo n := by
  have hn := FirstFit.mem_of_some h
  rw [decide_eq_true_eq] at hn
  exact ⟨hn.1, hn.2, fun j hj hf => FirstFit.le_of_some h (by simp [hj, hf])⟩

theorem lowestFree_eq_none : lowestFree fds lo = none ↔ NoFree fds lo := by
  unfold lowestFree NoFree
  rw [FirstFit.eq_none_iff]
  refine forall_congr' fun j => ?_
  simp

theorem LowestFree.unique {m : Fin maxFdPerProc} (h : LowestFree fds lo n)
    (h' : LowestFree fds lo m) : n = m :=
  le_antisymm (h.least m h'.ge h'.free) (h'.least n h.ge h.free)

-- ---------------------------------------------------------------------------
-- Copies
-- ---------------------------------------------------------------------------

/-- In `fds'` descriptor `n` is a duplicate of what descriptor `o` was in `fds`, and
every other descriptor is as it was. -/
structure Duplicates (fds fds' : FdTable) (o n : Fin maxFdPerProc) : Prop where
  type : (fds' n).type = (fds o).type
  resource : (fds' n).resource = (fds o).resource
  getfl : (sysFcntl fds' n.val fGetfl 0#64).2 = (sysFcntl fds o.val fGetfl 0#64).2
  getfd : (sysFcntl fds' n.val fGetfd 0#64).2 = 0
  frame : ∀ j, j ≠ n → fds' j = fds j

/-- If a call returns a descriptor, it is one that it may return, and it is a
duplicate of `o`. -/
def DupCorrect (fds : FdTable) (o : Fin maxFdPerProc) (may : Fin maxFdPerProc → Prop)
    (r : FdTable × Int) : Prop :=
  0 ≤ r.2 → ∃ n : Fin maxFdPerProc, r.2 = n.val ∧ may n ∧ Duplicates fds r.1 o n

@[simp] theorem fdIndex_val (i : Fin maxFdPerProc) : fdIndex i.val = some i := by
  have := i.isLt
  unfold fdIndex
  rw [dif_pos (by omega)]
  simp

/-- `F_GETFL` of an open descriptor. -/
theorem sysFcntl_getfl (h : (fds n).type ≠ .unused) (arg : BitVec 64) :
    sysFcntl fds n.val fGetfl arg = (fds, ((fds n).flags &&& openFlags).toInt) := by
  unfold sysFcntl
  rw [fdIndex_val]
  simp [h, fGetfl, fDupfd, fGetfd, fSetfd]

/-- `F_GETFD` of an open descriptor. -/
theorem sysFcntl_getfd (h : (fds n).type ≠ .unused) (arg : BitVec 64) :
    sysFcntl fds n.val fGetfd arg =
      (fds, if (fds n).flags &&& cloexecBit ≠ 0#32 then 1 else 0) := by
  unfold sysFcntl
  rw [fdIndex_val]
  simp [h, fDupfd, fGetfd]

/-- Storing the entry `e` at `n` duplicates `o` if and only if `e` is the entry of
`o` up to its offset and the bits that `fcntl` does not report, without close-on-exec. -/
theorem duplicates_update_iff {e : FdEntry} (hopen : (fds o).type ≠ .unused)
    (htype : e.type = (fds o).type) (hres : e.resource = (fds o).resource) :
    Duplicates fds (Function.update fds n e) o n ↔
      e.flags &&& openFlags = (fds o).flags &&& openFlags ∧ e.flags &&& cloexecBit = 0#32 := by
  have hself : Function.update fds n e n = e := Function.update_self ..
  have hn : (Function.update fds n e n).type ≠ .unused := by
    rw [hself, htype]
    exact hopen
  have hgetfl := sysFcntl_getfl hn 0#64
  have hgetfd := sysFcntl_getfd hn 0#64
  have hgetfl' := sysFcntl_getfl hopen 0#64
  rw [hself] at hgetfl hgetfd
  constructor
  · rintro ⟨_, _, hfl, hfd, _⟩
    rw [hgetfl, hgetfl'] at hfl
    rw [hgetfd] at hfd
    refine ⟨BitVec.eq_of_toInt_eq hfl, ?_⟩
    by_contra hne
    simp [hne] at hfd
  · rintro ⟨hfl, hfd⟩
    refine ⟨by rw [hself, htype], by rw [hself, hres], ?_, ?_, fun j hj => ?_⟩
    · rw [hgetfl, hgetfl', hfl]
    · rw [hgetfd, hfd]
      simp
    · exact Function.update_of_ne hj _ _

-- ---------------------------------------------------------------------------
-- Flag bits
-- ---------------------------------------------------------------------------

/-- The bit that `dup` takes for close-on-exec is the open flag `O_RDONLY`. -/
theorem dupEntry_flags (e : FdEntry) :
    (dupEntry e).flags &&& openFlags = e.flags &&& openFlags ↔ e.flags &&& oRdonly = 0#32 := by
  have hdup : (dupEntry e).flags &&& openFlags = e.flags &&& 0x0FFFFFFE#32 := by
    show e.flags &&& ~~~cloexecBit &&& ~~~fdCloexec &&& openFlags = _
    rw [BitVec.and_assoc, BitVec.and_assoc]
    congr 1
  have hsplit : e.flags &&& openFlags = e.flags &&& 0x0FFFFFFE#32 ||| e.flags &&& oRdonly := by
    rw [← BitVec.and_or_distrib_left]
    congr 1
  rw [hdup, hsplit]
  constructor
  · intro h
    have hand := congrArg (· &&& oRdonly) h
    have hzero : e.flags &&& 0x0FFFFFFE#32 &&& oRdonly = 0#32 := by
      rw [BitVec.and_assoc, show 0x0FFFFFFE#32 &&& oRdonly = 0#32 by decide, BitVec.and_zero]
    have hself : e.flags &&& oRdonly &&& oRdonly = e.flags &&& oRdonly := by
      rw [BitVec.and_assoc, BitVec.and_self]
    simpa [BitVec.and_or_distrib_right, hzero, hself] using hand.symm
  · intro h
    rw [h, BitVec.or_zero]

theorem dupEntry_cloexec (e : FdEntry) : (dupEntry e).flags &&& cloexecBit = 0#32 := by
  show e.flags &&& ~~~cloexecBit &&& ~~~fdCloexec &&& cloexecBit = 0#32
  rw [BitVec.and_assoc, BitVec.and_assoc,
    show ~~~cloexecBit &&& (~~~fdCloexec &&& cloexecBit) = 0#32 by decide, BitVec.and_zero]

/-- The copy of `dup` and `F_DUPFD` is a duplicate if and only if `O_RDONLY` is clear. -/
theorem duplicates_dupEntry_iff (hopen : (fds o).type ≠ .unused) :
    Duplicates fds (Function.update fds n (dupEntry (fds o))) o n ↔
      (fds o).flags &&& oRdonly = 0#32 := by
  have h := duplicates_update_iff (n := n) (e := dupEntry (fds o)) hopen rfl rfl
  rw [h, dupEntry_flags]
  exact and_iff_left (dupEntry_cloexec _)

/-- The copy of `dup2` is a duplicate if and only if close-on-exec is clear. -/
theorem duplicates_copy_iff (hopen : (fds o).type ≠ .unused) :
    Duplicates fds (Function.update fds n (fds o)) o n ↔ (fds o).flags &&& cloexecBit = 0#32 := by
  have h := duplicates_update_iff (n := n) (e := fds o) hopen rfl rfl
  rw [h]
  exact and_iff_right rfl

-- ---------------------------------------------------------------------------
-- The three calls
-- ---------------------------------------------------------------------------

variable {may : Fin maxFdPerProc → Prop}

theorem dupCorrect_error {e : Int} (h : e < 0) : DupCorrect fds o may (fds', e) :=
  fun h0 => absurd h0 (by simpa using h)

theorem dupCorrect_ret : DupCorrect fds o may (fds', n.val) ↔ may n ∧ Duplicates fds fds' o n := by
  constructor
  · intro h
    obtain ⟨m, hm, hmay, hdup⟩ := h (by simp)
    obtain rfl : n = m := Fin.ext (Int.ofNat_inj.mp hm)
    exact ⟨hmay, hdup⟩
  · rintro ⟨hmay, hdup⟩ -
    exact ⟨n, rfl, hmay, hdup⟩

theorem sysDup_correct_iff (hopen : (fds o).type ≠ .unused) :
    DupCorrect fds o (LowestFree fds 3) (sysDup fds o.val) ↔
      NoFree fds 3 ∨ (fds o).flags &&& oRdonly = 0#32 := by
  unfold sysDup
  simp only [fdIndex_val, if_neg hopen]
  cases hfree : lowestFree fds 3 with
  | none => exact iff_of_true (dupCorrect_error (by decide)) (.inl (lowestFree_eq_none.mp hfree))
  | some n =>
    have hn := lowestFree_some hfree
    have hsome : ¬ NoFree fds 3 := fun h => h n hn.ge hn.free
    simp only [dupCorrect_ret, duplicates_dupEntry_iff hopen, hn, true_and, hsome, false_or]

theorem sysDup2_correct_iff (t : PipeTable) (hopen : (fds o).type ≠ .unused) (newfd : Int) :
    DupCorrect fds o (fun n => (n.val : Int) = newfd) (sysDup2 t fds o.val newfd).2 ↔
      ¬ (0 ≤ newfd ∧ newfd < maxFdPerProc) ∨ (fds o).flags &&& cloexecBit = 0#32 := by
  unfold sysDup2
  rw [fdIndex_val]
  by_cases hnew : 0 ≤ newfd ∧ newfd < maxFdPerProc
  · obtain ⟨n, rfl⟩ : ∃ n : Fin maxFdPerProc, newfd = n.val :=
      ⟨⟨newfd.toNat, by omega⟩, by simp [hnew.1]⟩
    simp only [fdIndex_val, if_neg hopen, hnew, and_self, not_true_eq_false, false_or]
    by_cases heq : o = n
    · subst heq
      have hcopy := duplicates_copy_iff (n := o) hopen
      rw [Function.update_eq_self] at hcopy
      simp only [if_true, dupCorrect_ret, true_and, hcopy]
    · simp only [if_neg heq, dupCorrect_ret, true_and, duplicates_copy_iff hopen]
  · have hnone : fdIndex newfd = none := dif_neg hnew
    simp only [hnone]
    exact iff_of_true (dupCorrect_error (by decide)) (.inl hnew)

/-- From a negative `arg`, or one that is a descriptor, `F_DUPFD` starts where it should. -/
theorem dupfdMin_le {arg : BitVec 64} (h : arg.toInt < maxFdPerProc) :
    dupfdMin arg = arg.toInt ∨ arg.toInt < 0 := by
  by_cases h0 : 0 ≤ arg.toInt
  · left
    have hnat : arg.toNat < maxFdPerProc := by
      rw [BitVec.toInt_eq_toNat_cond] at h h0
      split at h <;> omega
    have hint : arg.toInt = arg.toNat := by
      rw [BitVec.toInt_eq_toNat_of_lt]
      unfold maxFdPerProc at hnat
      omega
    have hmod : (arg.setWidth 32).toNat = arg.toNat := by
      rw [BitVec.toNat_setWidth]
      unfold maxFdPerProc at hnat
      omega
    have hint32 : (arg.setWidth 32).toInt = arg.toNat := by
      rw [BitVec.toInt_eq_toNat_of_lt, hmod]
      rw [hmod]
      unfold maxFdPerProc at hnat
      omega
    rw [dupfdMin, hint32, hint]
    omega
  · right
    omega

theorem sysFcntl_dupfd_correct_iff (hopen : (fds o).type ≠ .unused) (arg : BitVec 64) :
    DupCorrect fds o (LowestFree fds arg.toInt) (sysFcntl fds o.val fDupfd arg) ↔
      NoFree fds (dupfdMin arg) ∨
        (fds o).flags &&& oRdonly = 0#32 ∧ arg.toInt < maxFdPerProc ∧
          ∀ j : Fin maxFdPerProc, arg.toInt ≤ j.val → j.val < dupfdMin arg →
            (fds j).type ≠ .unused := by
  unfold sysFcntl
  simp only [fdIndex_val, if_neg hopen, if_true]
  by_cases hmin : (maxFdPerProc : Int) ≤ dupfdMin arg
  · rw [if_pos hmin]
    refine iff_of_true (dupCorrect_error (by decide)) (.inl fun j hj => ?_)
    have := j.isLt
    omega
  rw [if_neg hmin]
  cases hfree : lowestFree fds (dupfdMin arg) with
  | none => exact iff_of_true (dupCorrect_error (by decide)) (.inl (lowestFree_eq_none.mp hfree))
  | some n =>
    have hn := lowestFree_some hfree
    have hsome : ¬ NoFree fds (dupfdMin arg) := fun h => h n hn.ge hn.free
    simp only [dupCorrect_ret, duplicates_dupEntry_iff hopen, hsome, false_or]
    have hlowest : LowestFree fds arg.toInt n ↔ arg.toInt < maxFdPerProc ∧
        ∀ j : Fin maxFdPerProc, arg.toInt ≤ j.val → j.val < dupfdMin arg →
          (fds j).type ≠ .unused := by
      constructor
      · intro h
        have := n.isLt
        have := h.ge
        refine ⟨by omega, fun j hj hlt hf => ?_⟩
        have hle := Fin.le_def.mp (h.least j hj hf)
        have := hn.ge
        omega
      · rintro ⟨hlt, hskip⟩
        have hge : arg.toInt ≤ n.val := by
          have := hn.ge
          rcases dupfdMin_le hlt with he | hneg <;> omega
        refine ⟨hge, hn.free, fun j hj hf => hn.least j ?_ hf⟩
        by_contra hlow
        exact hskip j hj (by omega) hf
    rw [hlowest]
    exact and_comm

-- ---------------------------------------------------------------------------
-- Flags
-- ---------------------------------------------------------------------------

/-- `F_GETFD` and `F_GETFL` read back what `F_SETFD` and `F_SETFL` with `arg` store in
their part of the flags, and do not see the other part change. -/
structure FlagsRoundTrip (fds : FdTable) (o : Fin maxFdPerProc) (arg : BitVec 64) : Prop where
  getfd : (sysFcntl (sysFcntl fds o.val fSetfd arg).1 o.val fGetfd 0#64).2 = (arg &&& 1#64).toInt
  getfd_getfl : (sysFcntl (sysFcntl fds o.val fSetfd arg).1 o.val fGetfl 0#64).2 =
    (sysFcntl fds o.val fGetfl 0#64).2
  getfl : (sysFcntl (sysFcntl fds o.val fSetfl arg).1 o.val fGetfl 0#64).2 =
    (arg.setWidth 32 &&& openFlags).toInt
  getfl_getfd : (sysFcntl (sysFcntl fds o.val fSetfl arg).1 o.val fGetfd 0#64).2 =
    (sysFcntl fds o.val fGetfd 0#64).2
  frame : ∀ j, j ≠ o → (sysFcntl fds o.val fSetfd arg).1 j = fds j ∧
    (sysFcntl fds o.val fSetfl arg).1 j = fds j

/-- The close-on-exec bit after `F_SETFD`. -/
theorem setfd_cloexec (f : BitVec 32) (set : Prop) [Decidable set] :
    (if set then f ||| cloexecBit else f &&& ~~~cloexecBit) &&& cloexecBit =
      if set then cloexecBit else 0#32 := by
  split
  · rw [BitVec.and_or_distrib_right, BitVec.and_self]
    exact BitVec.eq_of_getLsbD_eq fun i _ => by
      rw [BitVec.getLsbD_or, BitVec.getLsbD_and]
      cases f.getLsbD i <;> simp
  · rw [BitVec.and_assoc, show ~~~cloexecBit &&& cloexecBit = 0#32 by decide, BitVec.and_zero]

/-- The open flags after `F_SETFD`. -/
theorem setfd_openFlags (f : BitVec 32) (set : Prop) [Decidable set] :
    (if set then f ||| cloexecBit else f &&& ~~~cloexecBit) &&& openFlags = f &&& openFlags := by
  split
  · rw [BitVec.and_or_distrib_right, show cloexecBit &&& openFlags = 0#32 by decide,
      BitVec.or_zero]
  · rw [BitVec.and_assoc, show ~~~cloexecBit &&& openFlags = openFlags by decide]

/-- The open flags after `F_SETFL`. -/
theorem setfl_openFlags (f a : BitVec 32) :
    (f &&& ~~~openFlags ||| a &&& openFlags) &&& openFlags = a &&& openFlags := by
  rw [BitVec.and_or_distrib_right, BitVec.and_assoc, BitVec.and_assoc,
    show ~~~openFlags &&& openFlags = 0#32 by decide, BitVec.and_self, BitVec.and_zero,
    BitVec.zero_or]

/-- The close-on-exec bit after `F_SETFL`. -/
theorem setfl_cloexec (f a : BitVec 32) :
    (f &&& ~~~openFlags ||| a &&& openFlags) &&& cloexecBit = f &&& cloexecBit := by
  rw [BitVec.and_or_distrib_right, BitVec.and_assoc, BitVec.and_assoc,
    show ~~~openFlags &&& cloexecBit = cloexecBit by decide,
    show openFlags &&& cloexecBit = 0#32 by decide, BitVec.and_zero, BitVec.or_zero]

theorem flagsRoundTrip (hopen : (fds o).type ≠ .unused) (arg : BitVec 64) :
    FlagsRoundTrip fds o arg := by
  obtain ⟨e, he, het, hefl, hefd⟩ : ∃ e, (sysFcntl fds o.val fSetfd arg).1 =
      Function.update fds o e ∧ e.type = (fds o).type ∧
      e.flags &&& openFlags = (fds o).flags &&& openFlags ∧
      e.flags &&& cloexecBit = if arg &&& 1#64 ≠ 0#64 then cloexecBit else 0#32 := by
    refine ⟨{ fds o with flags := if arg &&& 1#64 ≠ 0#64 then (fds o).flags ||| cloexecBit
      else (fds o).flags &&& ~~~cloexecBit }, ?_, rfl, setfd_openFlags _ _, setfd_cloexec _ _⟩
    unfold sysFcntl
    simp [hopen, fDupfd, fGetfd, fSetfd]
  obtain ⟨e', he', het', hefl', hefd'⟩ : ∃ e', (sysFcntl fds o.val fSetfl arg).1 =
      Function.update fds o e' ∧ e'.type = (fds o).type ∧
      e'.flags &&& openFlags = arg.setWidth 32 &&& openFlags ∧
      e'.flags &&& cloexecBit = (fds o).flags &&& cloexecBit := by
    refine ⟨{ fds o with flags := ((fds o).flags &&& ~~~openFlags) |||
      (arg.setWidth 32 &&& openFlags) }, ?_, rfl, setfl_openFlags _ _, setfl_cloexec _ _⟩
    unfold sysFcntl
    simp [hopen, fDupfd, fGetfd, fSetfd, fGetfl, fSetfl]
  have hself : ∀ e, Function.update fds o e o = e := fun e => Function.update_self ..
  have hse : (Function.update fds o e o).type ≠ .unused := by rw [hself, het]; exact hopen
  have hse' : (Function.update fds o e' o).type ≠ .unused := by rw [hself, het']; exact hopen
  refine ⟨?_, ?_, ?_, ?_, fun j hj => ?_⟩
  · rw [he, sysFcntl_getfd hse, hself, hefd]
    have hone : arg &&& 1#64 = 0#64 ∨ arg &&& 1#64 = 1#64 := by
      rw [BitVec.and_one_eq_setWidth_ofBool_getLsbD]
      cases arg.getLsbD 0 <;> decide
    rcases hone with h | h
    · rw [h]
      rfl
    · rw [h]
      rfl
  · rw [he, sysFcntl_getfl hse, sysFcntl_getfl hopen, hself, hefl]
  · rw [he', sysFcntl_getfl hse', hself, hefl']
  · rw [he', sysFcntl_getfd hse', sysFcntl_getfd hopen, hself, hefd']
  · rw [he, he']
    exact ⟨Function.update_of_ne hj _ _, Function.update_of_ne hj _ _⟩

-- ---------------------------------------------------------------------------
-- The result
-- ---------------------------------------------------------------------------

end Lestra
