import Lestra.Fs.Tmpfs
import Lestra.Lib.Count
import Lestra.Lib.Run

/-!
# The handles of tmpfs

`tmpfs_handles`: over a run from `tmpfs_init` whose opens find a free handle and whose
seeks stay in the range of `int`, the reference count of every inode is the number of its
handles, every handle has an inode with a buffer, every access is inside it, and an
operation that fails changes nothing. `open_with_a_full_table` is the defect.
-/

namespace Lestra

def TmpOpen.refersTo (i : Fin tmpfsMaxFiles) (o : TmpOpen) : Bool :=
  !o.isDir && o.inodeIdx = some i

/-- The used non-directory handles that refer to an inode. -/
def handleCount (t : Tmpfs) (i : Fin tmpfsMaxFiles) : Nat :=
  (Finset.univ.filter fun h => (t.opens h).any (TmpOpen.refersTo i)).card

structure HandlesSound (t : Tmpfs) : Prop where
  refcount : ∀ i n, t.inodes i = some n → n.refcount = handleCount t i
  refers : ∀ h o, t.opens h = some o → o.isDir = false →
    ∃ i n, o.inodeIdx = some i ∧ t.inodes i = some n ∧ n.data.isSome
  size : ∀ i n, t.inodes i = some n → n.size ≤ tmpfsMaxFileSize

/-- The operation accesses only its buffer, keeps the handles sound, and changes nothing
if it returns an error. -/
def TmpCallOk (t : Tmpfs) (call : TmpCall) : Prop :=
  ∃ t' r, tmpCall t call = some (t', r) ∧ HandlesSound t' ∧ (r.ret < 0 → t' = t)

/-- What the operations do not check: `tmpfs_open` creates or cuts no inode when no handle
is free, a write does not wrap `pos + count` to a small number, and a seek to a new
position returns it. -/
def tmpAllowed (t : Tmpfs) : TmpCall → Prop
  | .open fresh path flags =>
    ¬ (path = tmpDir ∨ path = tmpDir ++ [slash]) → freeOpen t = none →
      match findInode t path with
      | some i => hasFlag flags oTrunc → ∀ n, t.inodes i = some n → n.size = 0
      | none => hasFlag flags oCreat → allocInode t fresh path = none
  | .write fd (some buf) => ∀ h o i n, tmpHandle t fd = some (h, o) →
    handleInode t o = some (i, n) → ¬ (2 ^ 64 ≤ tmpWritePos o n + buf.length ∧
      sizeT (tmpWritePos o n + buf.length : Nat) ≤ tmpfsMaxFileSize)
  | .lseek fd offset whence => ∀ h o i n base, tmpHandle t fd = some (h, o) →
    handleInode t o = some (i, n) → tmpSeekBase o n whence = some base →
      offT (base + offset) < 0 ∨ offT (base + offset) % 2 ^ 32 < 2 ^ 31 ∨
        offT (base + offset) = o.pos
  | _ => True

-- ---------------------------------------------------------------------------
-- The invariant
-- ---------------------------------------------------------------------------

/-- Between operations every used inode has its buffer, and a directory handle has no
inode. -/
structure TmpInv (t : Tmpfs) : Prop extends HandlesSound t where
  data : ∀ i n, t.inodes i = some n → n.data.isSome
  dir : ∀ h o, t.opens h = some o → o.isDir → o.inodeIdx = none

theorem tmpfsInit_inv : TmpInv tmpfsInit := by
  constructor
  · constructor <;> intro _ _ h <;> exact absurd h (by simp [tmpfsInit])
  all_goals
    intro _ _ h
    exact absurd h (by simp [tmpfsInit])

section
variable {t t' : Tmpfs} {i : Fin tmpfsMaxFiles} {n : TmpInode} {h : Fin tmpfsMaxOpen}
  {o : TmpOpen}

@[simp] theorem setInode_opens (t : Tmpfs) (i : Fin tmpfsMaxFiles) (n : Option TmpInode) :
    (t.setInode i n).opens = t.opens := rfl

@[simp] theorem setOpen_inodes (t : Tmpfs) (h : Fin tmpfsMaxOpen) (o : Option TmpOpen) :
    (t.setOpen h o).inodes = t.inodes := rfl

@[simp] theorem setInode_same (t : Tmpfs) (i : Fin tmpfsMaxFiles) (n : Option TmpInode) :
    (t.setInode i n).inodes i = n := Function.update_self ..

theorem setInode_ne (t : Tmpfs) (n : Option TmpInode) {i j : Fin tmpfsMaxFiles} (hj : j ≠ i) :
    (t.setInode i n).inodes j = t.inodes j := Function.update_of_ne hj ..

@[simp] theorem setOpen_same (t : Tmpfs) (h : Fin tmpfsMaxOpen) (o : Option TmpOpen) :
    (t.setOpen h o).opens h = o := Function.update_self ..

theorem setOpen_ne (t : Tmpfs) (o : Option TmpOpen) {h k : Fin tmpfsMaxOpen} (hk : k ≠ h) :
    (t.setOpen h o).opens k = t.opens k := Function.update_of_ne hk ..

@[simp] theorem setInode_setInode (t : Tmpfs) (i : Fin tmpfsMaxFiles) (n n' : Option TmpInode) :
    (t.setInode i n).setInode i n' = t.setInode i n' := by
  rw [Tmpfs.setInode, Tmpfs.setInode, Function.update_idem]
  rfl

/-- Replacing one handle changes one count by one. -/
theorem handleCount_setOpen (t : Tmpfs) (h : Fin tmpfsMaxOpen) (o : Option TmpOpen)
    (i : Fin tmpfsMaxFiles) :
    handleCount (t.setOpen h o) i + ((t.opens h).any (TmpOpen.refersTo i)).toNat
      = handleCount t i + (o.any (TmpOpen.refersTo i)).toNat :=
  Count.card_update (fun o : Option TmpOpen => o.any (TmpOpen.refersTo i)) t.opens h o

/-- The handles of `t'` differ from those of `t` at most in their positions. -/
def SameHandles (t t' : Tmpfs) : Prop :=
  ∀ h, (t'.opens h = none ∧ t.opens h = none) ∨
    ∃ o pos, t.opens h = some o ∧ t'.opens h = some { o with pos }

theorem sameHandles_setOpen (ho : t.opens h = some o) (pos : Nat) :
    SameHandles t (t.setOpen h (some { o with pos })) := by
  intro k
  by_cases hk : k = h
  · rw [hk, setOpen_same]
    exact .inr ⟨o, pos, ho, rfl⟩
  · rw [setOpen_ne _ _ hk]
    cases hopen : t.opens k with
    | none => exact .inl ⟨rfl, rfl⟩
    | some o' => exact .inr ⟨o', o'.pos, rfl, rfl⟩

theorem SameHandles.refl (t : Tmpfs) : SameHandles t t := by
  intro k
  cases hopen : t.opens k with
  | none => exact .inl ⟨rfl, rfl⟩
  | some o => exact .inr ⟨o, o.pos, rfl, rfl⟩

theorem SameHandles.handleCount_eq (hsame : SameHandles t t') (i : Fin tmpfsMaxFiles) :
    handleCount t' i = handleCount t i := by
  unfold handleCount
  congr 1
  refine Finset.filter_congr fun h _ => ?_
  rcases hsame h with ⟨h', h0⟩ | ⟨o, pos, h0, h'⟩ <;> rw [h', h0]
  rfl

/-- Positions, sizes and bytes may change. -/
theorem TmpInv.keep (hinv : TmpInv t) (hsame : SameHandles t t')
    (hinodes : ∀ i, t'.inodes i = t.inodes i ∨ ∃ n n', t.inodes i = some n ∧
      t'.inodes i = some n' ∧ n'.refcount = n.refcount ∧ n'.data.isSome ∧
      n'.size ≤ tmpfsMaxFileSize) : TmpInv t' := by
  have hopens : ∀ {h o'}, t'.opens h = some o' →
      ∃ o, t.opens h = some o ∧ o'.inodeIdx = o.inodeIdx ∧ o'.isDir = o.isDir := by
    intro h o' ho'
    rcases hsame h with ⟨h', -⟩ | ⟨o, pos, h0, h'⟩
    · exact absurd (h'.symm.trans ho') (by simp)
    · obtain rfl := Option.some.inj (h'.symm.trans ho')
      exact ⟨o, h0, rfl, rfl⟩
  refine ⟨⟨fun i n' hn' => ?_, fun h o' ho' hdir => ?_, fun i n' hn' => ?_⟩,
    fun i n' hn' => ?_, fun h o' ho' hdir => ?_⟩
  · rw [hsame.handleCount_eq]
    rcases hinodes i with heq | ⟨n, m, hn, hm, href, -⟩
    · exact hinv.refcount i n' (heq ▸ hn')
    · obtain rfl := Option.some.inj (hm.symm.trans hn')
      exact href.trans (hinv.refcount i n hn)
  · obtain ⟨o, ho, hidx, hdir'⟩ := hopens ho'
    obtain ⟨i, n, hi, hn, hdata⟩ := hinv.refers h o ho (hdir' ▸ hdir)
    rw [hidx]
    rcases hinodes i with heq | ⟨-, n', -, hn', -, hdata', -⟩
    · exact ⟨i, n, hi, heq.trans hn, hdata⟩
    · exact ⟨i, n', hi, hn', hdata'⟩
  · rcases hinodes i with heq | ⟨n, m, -, hm, -, -, hsize⟩
    · exact hinv.size i n' (heq ▸ hn')
    · obtain rfl := Option.some.inj (hm.symm.trans hn')
      exact hsize
  · rcases hinodes i with heq | ⟨n, m, -, hm, -, hdata, -⟩
    · exact hinv.data i n' (heq ▸ hn')
    · obtain rfl := Option.some.inj (hm.symm.trans hn')
      exact hdata
  · obtain ⟨o, ho, hidx, hdir'⟩ := hopens ho'
    exact hidx.trans (hinv.dir h o ho (hdir' ▸ hdir))

/-- A handle may get another position. -/
theorem TmpInv.seek (hinv : TmpInv t) (ho : t.opens h = some o) (pos : Nat) :
    TmpInv (t.setOpen h (some { o with pos })) :=
  hinv.keep (sameHandles_setOpen ho pos) fun _ => .inl rfl

/-- An inode may get other bytes and another size. -/
theorem TmpInv.edit {n' : TmpInode} (hinv : TmpInv t) (hn : t.inodes i = some n)
    (href : n'.refcount = n.refcount) (hdata : n'.data.isSome)
    (hsize : n'.size ≤ tmpfsMaxFileSize) : TmpInv (t.setInode i (some n')) := by
  refine hinv.keep (.refl t) fun j => ?_
  by_cases hj : j = i
  · subst hj
    exact .inr ⟨n, n', hn, setInode_same .., href, hdata, hsize⟩
  · exact .inl (setInode_ne _ _ hj)

/-- An inode without a reference has no handle. -/
theorem TmpInv.refers_ne (hinv : TmpInv t) (hdead : t.inodes i = none) {h : Fin tmpfsMaxOpen}
    (ho : t.opens h = some o) : o.inodeIdx ≠ some i := by
  intro hidx
  cases hdir : o.isDir with
  | true => exact absurd ((hinv.dir h o ho hdir).symm.trans hidx) (by simp)
  | false =>
    obtain ⟨j, n, hj, hn, -⟩ := hinv.refers h o ho hdir
    obtain rfl := Option.some.inj (hj.symm.trans hidx)
    exact absurd (hdead.symm.trans hn) (by simp)

theorem TmpInv.handleCount_dead (hinv : TmpInv t) (hdead : t.inodes i = none) :
    handleCount t i = 0 := by
  rw [handleCount, Finset.card_eq_zero, Finset.filter_eq_empty_iff]
  intro h _ hany
  obtain ⟨o, ho, href⟩ := (Option.any_eq_true _ _).mp hany
  simp only [TmpOpen.refersTo, Bool.and_eq_true, decide_eq_true_eq] at href
  exact hinv.refers_ne hdead ho href.2

/-- A new inode in a free entry. -/
theorem TmpInv.alloc (hinv : TmpInv t) (hdead : t.inodes i = none) (hdata : n.data.isSome)
    (href : n.refcount = 0) (hsize : n.size ≤ tmpfsMaxFileSize) :
    TmpInv (t.setInode i (some n)) := by
  refine ⟨⟨fun j m hm => ?_, fun h o ho hdir => ?_, fun j m hm => ?_⟩, fun j m hm => ?_,
    hinv.dir⟩
  · change m.refcount = handleCount t j
    by_cases hj : j = i
    · subst hj
      rw [setInode_same] at hm
      rw [hinv.handleCount_dead hdead, ← Option.some.inj hm, href]
      rfl
    · exact hinv.refcount j m (setInode_ne t _ hj ▸ hm)
  · obtain ⟨j, m, hj, hm, hmdata⟩ := hinv.refers h o ho hdir
    have hne : j ≠ i := by
      rintro rfl
      exact hinv.refers_ne hdead ho hj
    exact ⟨j, m, hj, (setInode_ne t _ hne).trans hm, hmdata⟩
  · by_cases hj : j = i
    · rw [hj, setInode_same] at hm
      exact Option.some.inj hm ▸ hsize
    · exact hinv.size j m (setInode_ne t _ hj ▸ hm)
  · by_cases hj : j = i
    · rw [hj, setInode_same] at hm
      exact Option.some.inj hm ▸ hdata
    · exact hinv.data j m (setInode_ne t _ hj ▸ hm)

/-- An inode without a handle is freed. -/
theorem TmpInv.free (hinv : TmpInv t) (hn : t.inodes i = some n) (href : n.refcount ≤ 0) :
    TmpInv (t.setInode i none) := by
  have hcount : handleCount t i = 0 := by
    have := hinv.refcount i n hn
    omega
  have hsome : ∀ {j m}, (t.setInode i none).inodes j = some m → t.inodes j = some m := by
    intro j m hm
    by_cases hj : j = i
    · rw [hj, setInode_same] at hm
      exact absurd hm (by simp)
    · exact setInode_ne t _ hj ▸ hm
  refine ⟨⟨fun j m hm => hinv.refcount j m (hsome hm), fun h o ho hdir => ?_,
    fun j m hm => hinv.size j m (hsome hm)⟩, fun j m hm => hinv.data j m (hsome hm), hinv.dir⟩
  obtain ⟨j, m, hj, hm, hmdata⟩ := hinv.refers h o ho hdir
  have hne : j ≠ i := by
    rintro rfl
    rw [handleCount, Finset.card_eq_zero, Finset.filter_eq_empty_iff] at hcount
    refine hcount (Finset.mem_univ h) ?_
    rw [show t.opens h = some o from ho]
    simp [TmpOpen.refersTo, hdir, hj]
  exact ⟨j, m, hj, (setInode_ne t _ hne).trans hm, hmdata⟩

/-- Handle `h` of an inode is replaced by one of another kind, and the reference counts
follow. -/
theorem TmpInv.replace (hinv : TmpInv t) (h : Fin tmpfsMaxOpen) (ho' : Option TmpOpen)
    (hinodes : ∀ j, (t'.inodes j = none ↔ t.inodes j = none) ∧ ∀ n', t'.inodes j = some n' →
      ∃ n, t.inodes j = some n ∧ n'.data = n.data ∧ n'.size = n.size ∧
        n'.refcount + (((t.opens h).any (TmpOpen.refersTo j)).toNat : Int)
          = n.refcount + ((ho'.any (TmpOpen.refersTo j)).toNat : Int))
    (hopens : t'.opens = Function.update t.opens h ho')
    (hnew : ∀ o, ho' = some o → (o.isDir → o.inodeIdx = none) ∧
      (o.isDir = false → ∃ i n, o.inodeIdx = some i ∧ t.inodes i = some n)) :
    TmpInv t' := by
  have hsome : ∀ {j n}, t.inodes j = some n → ∃ n', t'.inodes j = some n' ∧ n'.data = n.data := by
    intro j n hn
    cases hn' : t'.inodes j with
    | none => exact absurd (((hinodes j).1.mp hn').symm.trans hn) (by simp)
    | some n' =>
      obtain ⟨m, hm, hdata, -⟩ := (hinodes j).2 n' hn'
      obtain rfl := Option.some.inj (hm.symm.trans hn)
      exact ⟨n', rfl, hdata⟩
  have hrefers : ∀ k o, t'.opens k = some o → (o.isDir → o.inodeIdx = none) ∧
      (o.isDir = false → ∃ i n, o.inodeIdx = some i ∧ t.inodes i = some n) := by
    intro k o ho
    rw [hopens] at ho
    by_cases hk : k = h
    · rw [hk, Function.update_self] at ho
      exact hnew o ho
    · rw [Function.update_of_ne hk] at ho
      refine ⟨hinv.dir k o ho, fun hdir => ?_⟩
      obtain ⟨i, n, hi, hn, -⟩ := hinv.refers k o ho hdir
      exact ⟨i, n, hi, hn⟩
  refine ⟨⟨fun j n' hn' => ?_, fun k o ho hdir => ?_, fun j n' hn' => ?_⟩, fun j n' hn' => ?_,
    fun k o ho => (hrefers k o ho).1⟩
  · obtain ⟨n, hn, -, -, href⟩ := (hinodes j).2 n' hn'
    have hcount := Count.card_update (fun o : Option TmpOpen => o.any (TmpOpen.refersTo j))
      t.opens h ho'
    rw [← hopens] at hcount
    have hcount' : handleCount t' j + ((t.opens h).any (TmpOpen.refersTo j)).toNat
      = handleCount t j + (ho'.any (TmpOpen.refersTo j)).toNat := hcount
    have := hinv.refcount j n hn
    omega
  · obtain ⟨i, n, hi, hn⟩ := (hrefers k o ho).2 hdir
    obtain ⟨n', hn', hdata⟩ := hsome hn
    exact ⟨i, n', hi, hn', hdata ▸ hinv.data i n hn⟩
  · obtain ⟨n, hn, -, hsize, -⟩ := (hinodes j).2 n' hn'
    exact hsize ▸ hinv.size j n hn
  · obtain ⟨n, hn, hdata, -⟩ := (hinodes j).2 n' hn'
    exact hdata ▸ hinv.data j n hn

/-- A handle that refers to nothing comes or goes. -/
theorem TmpInv.replaceDir {ho' : Option TmpOpen} (hinv : TmpInv t)
    (hold : ∀ o, t.opens h = some o → o.isDir) (hnew : ∀ o, ho' = some o →
      o.isDir ∧ o.inodeIdx = none) : TmpInv (t.setOpen h ho') := by
  have hzero : ∀ x : Option TmpOpen, (∀ o, x = some o → o.isDir) → ∀ j,
      x.any (TmpOpen.refersTo j) = false := by
    intro x hx j
    cases x with
    | none => rfl
    | some o => simp [TmpOpen.refersTo, hx o rfl]
  refine hinv.replace h ho' (fun j => ⟨Iff.rfl, fun n hn => ⟨n, hn, rfl, rfl, ?_⟩⟩)
    rfl fun o ho => ⟨fun _ => (hnew o ho).2, fun hdir => ?_⟩
  · rw [hzero _ hold, hzero _ fun o ho => (hnew o ho).1]
  · exact absurd (hnew o ho).1 (by simp [hdir])

/-- The inodes after one reference count changes. -/
theorem setRefcount_inodes (hn : t.inodes i = some n) (ref : Int) (j : Fin tmpfsMaxFiles) :
    ((t.setInode i (some { n with refcount := ref })).inodes j = none ↔ t.inodes j = none) ∧
      ∀ n', (t.setInode i (some { n with refcount := ref })).inodes j = some n' →
        ∃ m, t.inodes j = some m ∧ n'.data = m.data ∧ n'.size = m.size ∧
          n'.refcount = if j = i then ref else m.refcount := by
  by_cases hj : j = i
  · subst hj
    rw [setInode_same]
    refine ⟨by simp [hn], fun n' hn' => ⟨n, hn, ?_⟩⟩
    rw [← Option.some.inj hn', if_pos rfl]
    exact ⟨rfl, rfl, rfl⟩
  · rw [setInode_ne _ _ hj]
    exact ⟨Iff.rfl, fun n' hn' => ⟨n', hn', rfl, rfl, by rw [if_neg hj]⟩⟩

/-- A new handle for an inode. -/
theorem TmpInv.addHandle (hinv : TmpInv t) (hn : t.inodes i = some n) (hfree : t.opens h = none)
    (pos : Nat) (flags : BitVec 32) :
    TmpInv ((t.setInode i (some { n with refcount := n.refcount + 1 })).setOpen h
      (some ⟨some i, pos, flags, false⟩)) := by
  refine hinv.replace h (some ⟨some i, pos, flags, false⟩)
    (fun j => ⟨(setRefcount_inodes hn _ j).1, fun n' hn' => ?_⟩) rfl fun o ho => ?_
  · obtain ⟨m, hm, hdata, hsize, href⟩ := (setRefcount_inodes hn _ j).2 n' hn'
    refine ⟨m, hm, hdata, hsize, ?_⟩
    rw [href, hfree]
    by_cases hj : j = i
    · subst hj
      obtain rfl := Option.some.inj (hm.symm.trans hn)
      simp [TmpOpen.refersTo]
    · simp [TmpOpen.refersTo, hj, Ne.symm hj]
  · obtain rfl := Option.some.inj ho
    exact ⟨fun hdir => absurd hdir (by simp), fun _ => ⟨i, n, rfl, hn⟩⟩

/-- A handle of an inode is closed. -/
theorem TmpInv.dropHandle (hinv : TmpInv t) (ho : t.opens h = some o) (hdir : o.isDir = false)
    (hidx : o.inodeIdx = some i) (hn : t.inodes i = some n) :
    TmpInv ((t.setInode i (some { n with refcount := n.refcount - 1 })).setOpen h none) := by
  refine hinv.replace h none
    (fun j => ⟨(setRefcount_inodes hn _ j).1, fun n' hn' => ?_⟩) rfl fun _ ho => by simp at ho
  obtain ⟨m, hm, hdata, hsize, href⟩ := (setRefcount_inodes hn _ j).2 n' hn'
  refine ⟨m, hm, hdata, hsize, ?_⟩
  rw [href, ho]
  by_cases hj : j = i
  · subst hj
    obtain rfl := Option.some.inj (hm.symm.trans hn)
    simp [TmpOpen.refersTo, hdir, hidx]
  · simp [TmpOpen.refersTo, hidx, hj, Ne.symm hj]

-- ---------------------------------------------------------------------------
-- One operation
-- ---------------------------------------------------------------------------

variable {fresh : Option (List UInt8)} {path : Path} {flags : BitVec 32} {fd : Int}

/-- What an operation that keeps the invariant and its promise on errors gives. -/
def KeepsTmp (t : Tmpfs) (r : Tmpfs × Int) : Prop := TmpInv r.1 ∧ (r.2 < 0 → r.1 = t)

theorem TmpInv.same (hinv : TmpInv t) (ret : Int) : KeepsTmp t (t, ret) := ⟨hinv, fun _ => rfl⟩

theorem TmpInv.handle (hinv : TmpInv t) (hinode : handleInode t o = some (i, n)) :
    n.size ≤ tmpfsMaxFileSize ∧ ∃ data, n.data = some data := by
  have hn := (handleInode_eq_some.mp hinode).2
  exact ⟨hinv.size i n hn, Option.isSome_iff_exists.mp (hinv.data i n hn)⟩

/-- The bytes up to the size lie in the buffer. -/
theorem tmpLoad_inside {data : List UInt8} (hdata : n.data = some data)
    (hsize : n.size ≤ tmpfsMaxFileSize) {pos : Nat} (hpos : pos < n.size) (count : Nat) :
    tmpLoad n pos (min count (n.size - pos))
      = some (ByteBuf.load data pos (min count (n.size - pos))) := by
  rw [tmpLoad, hdata]
  exact if_pos (by omega)

theorem truncOpened_keeps (flags : BitVec 32) (n : TmpInode) :
    (truncOpened flags n).refcount = n.refcount ∧ (truncOpened flags n).data = n.data ∧
      (truncOpened flags n).size ≤ n.size := by
  unfold truncOpened
  split
  · exact ⟨rfl, rfl, Nat.zero_le _⟩
  · exact ⟨rfl, rfl, Nat.le_refl _⟩

/-- The inode of an open exists, and cutting it keeps the invariant. -/
theorem openInode_inv {t₁ : Tmpfs} (hinv : TmpInv t)
    (hopen : openInode t fresh path flags = some (t₁, i)) :
    ∃ n, t₁.inodes i = some n ∧ t₁.opens = t.opens ∧ TmpInv t₁ ∧
      TmpInv (t₁.setInode i (some (truncOpened flags n))) := by
  obtain ⟨n, hn, hopens, hinv₁⟩ : ∃ n, t₁.inodes i = some n ∧ t₁.opens = t.opens ∧ TmpInv t₁ := by
    rcases openInode_cases hopen with ⟨rfl, hfind⟩ | ⟨-, -, halloc⟩
    · obtain ⟨n, hn⟩ := findInode_used hfind
      exact ⟨n, hn, rfl, hinv⟩
    · obtain ⟨hdead, data, -, rfl⟩ := allocInode_eq_some halloc
      exact ⟨_, setInode_same .., rfl, hinv.alloc hdead rfl rfl (Nat.zero_le _)⟩
  obtain ⟨href, hdata, hsize⟩ := truncOpened_keeps flags n
  exact ⟨n, hn, hopens, hinv₁, hinv₁.edit hn href (hdata ▸ hinv₁.data i n hn)
    (hsize.trans (hinv₁.size i n hn))⟩

theorem tmpfsOpen_inv (hinv : TmpInv t) (hok : tmpAllowed t (.open fresh path flags)) :
    KeepsTmp t (tmpfsOpen t fresh path flags) := by
  rcases tmpfsOpen_cases t fresh path flags with
    ⟨heq, -⟩ | ⟨h, -, hfree, heq⟩ | ⟨t₁, i, hdir, hopen, hr⟩
  · exact heq ▸ hinv.same _
  · rw [heq]
    have hnone := freeOpen_eq_some hfree
    refine ⟨hinv.replaceDir (fun o ho => absurd (hnone.symm.trans ho) (by simp)) ?_, fun hneg => ?_⟩
    · intro o ho
      obtain rfl := Option.some.inj ho
      exact ⟨rfl, rfl⟩
    · have : (h : Int) + tmpfsFdBase < 0 := hneg
      have : tmpfsFdBase = 500 := rfl
      omega
  · obtain ⟨n, hn, hopens, hinv₁, hcut⟩ := openInode_inv hinv hopen
    simp only [hn, Option.getD_some] at hr
    rcases hr with ⟨hfull, heq⟩ | ⟨h, hfree, heq⟩
    · -- no handle is left: nothing was created and nothing was cut
      have hnone : freeOpen t = none := by rwa [freeOpen, ← hopens]
      refine heq ▸ ⟨hcut, fun _ => ?_⟩
      have hkeep := hok hdir hnone
      rcases openInode_cases hopen with ⟨rfl, hfind⟩ | ⟨hfind, hcreat, halloc⟩
      · rw [hfind] at hkeep
        have hsame : truncOpened flags n = n := by
          unfold truncOpened
          split
          · rename_i htrunc
            rw [← hkeep htrunc.1 n hn]
          · rfl
        rw [hsame, Tmpfs.setInode, ← hn, Function.update_eq_self]
      · rw [hfind] at hkeep
        exact absurd (halloc.symm.trans (hkeep hcreat)) (by simp)
    · rw [heq]
      refine ⟨?_, fun hneg => ?_⟩
      · have hadd := hcut.addHandle (setInode_same ..) (h := h) (freeOpen_eq_some hfree)
          (if hasFlag flags oAppend then (truncOpened flags n).size else 0) flags
        rwa [setInode_setInode] at hadd
      · have : (h : Int) + tmpfsFdBase < 0 := hneg
        have : tmpfsFdBase = 500 := rfl
        omega

theorem tmpfsClose_inv (hinv : TmpInv t) : KeepsTmp t (tmpfsClose t fd) := by
  rcases tmpfsClose_cases t fd with heq | ⟨h, o, hhandle, ⟨heq, hnone⟩ | ⟨i, n, hdir, hinode, heq⟩⟩
  · exact heq ▸ hinv.same _
  · have ho := (tmpHandle_eq_some.mp hhandle).2
    refine heq ▸ ⟨hinv.replaceDir (fun o' ho' => ?_) (by simp), fun hneg => absurd hneg (by simp)⟩
    obtain rfl := Option.some.inj (ho.symm.trans ho')
    rcases hnone with hdir | hnone
    · exact hdir
    · by_contra hdir
      obtain ⟨i, n, hi, hn, -⟩ := hinv.refers h o ho (by simpa using hdir)
      exact absurd (hnone.symm.trans (handleInode_eq_some.mpr ⟨hi, hn⟩)) (by simp)
  · obtain ⟨hi, hn⟩ := handleInode_eq_some.mp hinode
    exact heq ▸ ⟨hinv.dropHandle (tmpHandle_eq_some.mp hhandle).2 hdir hi hn,
      fun hneg => absurd hneg (by simp)⟩

theorem tmpfsRead_inv (hinv : TmpInv t) (fd : Int) (buf : Bool) (count : Nat) :
    ∃ r, tmpfsRead t fd buf count = some r ∧ KeepsTmp t (r.1, r.2.ret) := by
  rcases tmpfsRead_cases t fd buf count with ⟨ret, heq⟩ | ⟨h, o, i, n, hhandle, hinode, hpos, heq⟩
  · exact ⟨_, heq, hinv.same _⟩
  · obtain ⟨hsize, data, hdata⟩ := hinv.handle hinode
    rw [tmpLoad_inside hdata hsize hpos, Option.map_some] at heq
    refine ⟨_, heq, hinv.seek (tmpHandle_eq_some.mp hhandle).2 _, fun hneg => ?_⟩
    exact absurd hneg (by simp)

theorem tmpfsReadAt_inv (hinv : TmpInv t) (fd : Int) (buf : Bool) (count : Nat) (offset : Int) :
    ∃ r, tmpfsReadAt t fd buf count offset = some r ∧ KeepsTmp t (r.1, r.2.ret) := by
  rcases tmpfsReadAt_cases t fd buf count offset with
    ⟨ret, heq⟩ | ⟨h, o, i, n, hhandle, hinode, hpos, heq⟩
  · exact ⟨_, heq, hinv.same _⟩
  · obtain ⟨hsize, data, hdata⟩ := hinv.handle hinode
    rw [tmpLoad_inside hdata hsize hpos, Option.map_some] at heq
    exact ⟨_, heq, hinv, fun _ => rfl⟩

theorem tmpfsWrite_inv (hinv : TmpInv t) {buf : Option (List UInt8)}
    (hok : tmpAllowed t (.write fd buf)) :
    ∃ r, tmpfsWrite t fd buf = some r ∧ KeepsTmp t r := by
  rcases tmpfsWrite_cases t fd buf with ⟨ret, heq⟩ | ⟨bs, h, o, i, n, rfl, hhandle, hinode⟩
  · exact ⟨_, heq, hinv.same _⟩
  · obtain ⟨hsize, data, hdata⟩ := hinv.handle hinode
    have ho := (tmpHandle_eq_some.mp hhandle).2
    have hn := (handleInode_eq_some.mp hinode).2
    have heq := tmpfsWrite_eq hhandle hinode hdata (hok h o i n hhandle hinode)
    dsimp only at heq
    split at heq
    · exact ⟨_, heq, hinv.seek ho _, fun hneg => absurd hneg (by simp)⟩
    · refine ⟨_, heq, TmpInv.seek (t := t.setInode i _) ?_ ho _, fun hneg => ?_⟩
      · refine hinv.edit hn ?_ ?_ ?_
        · rfl
        · rfl
        · simp only
          omega
      · exact absurd hneg (by simp)

theorem tmpfsLseek_inv (hinv : TmpInv t) {offset whence : Int}
    (hok : tmpAllowed t (.lseek fd offset whence)) : KeepsTmp t (tmpfsLseek t fd offset whence) := by
  rcases tmpfsLseek_cases t fd offset whence with
    heq | ⟨h, o, i, n, base, hhandle, hinode, hbase, hpos, heq⟩
  · exact heq ▸ hinv.same _
  · have ho := (tmpHandle_eq_some.mp hhandle).2
    refine heq ▸ ⟨hinv.seek ho _, fun hneg => ?_⟩
    rcases hok h o i n base hhandle hinode hbase with hlt | hsmall | hsame
    · omega
    · have : intT (offT (base + offset)) < 0 := hneg
      rw [intT, Int.bmod_def] at this
      split at this <;> omega
    · rw [hsame, Int.toNat_natCast, Tmpfs.setOpen, ← ho, Function.update_eq_self]

theorem tmpfsUnlink_inv (hinv : TmpInv t) : KeepsTmp t (tmpfsUnlink t path) := by
  rcases tmpfsUnlink_cases t path with heq | ⟨i, n, -, hn, href, heq⟩
  · exact heq ▸ hinv.same _
  · exact heq ▸ ⟨hinv.free hn href, fun hneg => absurd hneg (by simp)⟩

theorem truncateInode_inv (hinv : TmpInv t) (hn : t.inodes i = some n) {len : Nat}
    (hlen : len ≤ tmpfsMaxFileSize) : ∃ r, truncateInode t i n len = some r ∧ KeepsTmp t r := by
  refine ⟨_, if_neg (by have := hinv.size i n hn; omega), hinv.keep ?_ fun j => ?_,
    fun hneg => absurd hneg (by simp)⟩
  · intro h
    cases ho : t.opens h with
    | none => exact .inl ⟨by simp [ho], rfl⟩
    | some o =>
      by_cases hidx : o.inodeIdx = some i
      · exact .inr ⟨o, min o.pos len, rfl, by simp [ho, hidx]⟩
      · exact .inr ⟨o, o.pos, rfl, by simp [ho, hidx]⟩
  · by_cases hj : j = i
    · subst hj
      refine .inr ⟨n, _, hn, Function.update_self .., rfl, ?_, hlen⟩
      simpa [resizeInode] using hinv.data j n hn
    · exact .inl (Function.update_of_ne hj ..)

theorem tmpCall_inv (hinv : TmpInv t) {call : TmpCall} (hok : tmpAllowed t call) :
    ∃ t' r, tmpCall t call = some (t', r) ∧ TmpInv t' ∧ (r.ret < 0 → t' = t) := by
  have hpair : ∀ r : Option (Tmpfs × Int), (∃ x, r = some x ∧ KeepsTmp t x) →
      ∃ t' r', r.map (fun x => (x.1, Reply.mk x.2 [])) = some (t', r') ∧ TmpInv t' ∧
        (r'.ret < 0 → t' = t) := by
    rintro _ ⟨x, rfl, hkeep⟩
    exact ⟨x.1, _, rfl, hkeep⟩
  cases call with
  | «open» fresh path flags => exact ⟨_, _, rfl, tmpfsOpen_inv hinv hok⟩
  | close fd => exact ⟨_, _, rfl, tmpfsClose_inv hinv⟩
  | read fd buf count =>
    obtain ⟨r, heq, hkeep⟩ := tmpfsRead_inv hinv fd buf count
    exact ⟨r.1, r.2, heq, hkeep⟩
  | write fd buf => exact hpair _ (tmpfsWrite_inv hinv hok)
  | lseek fd offset whence => exact ⟨_, _, rfl, tmpfsLseek_inv hinv hok⟩
  | readAt fd buf count offset =>
    obtain ⟨r, heq, hkeep⟩ := tmpfsReadAt_inv hinv fd buf count offset
    exact ⟨r.1, r.2, heq, hkeep⟩
  | unlink path => exact ⟨_, _, rfl, tmpfsUnlink_inv hinv⟩
  | truncate path length =>
    refine hpair _ ?_
    rcases tmpfsTruncate_cases t path length with heq | ⟨i, n, -, hn, -, hlen, heq⟩
    · exact ⟨_, heq, hinv.same _⟩
    · exact heq ▸ truncateInode_inv hinv hn (by omega)
  | ftruncate fd length =>
    refine hpair _ ?_
    rcases tmpfsFtruncate_cases t fd length with heq | ⟨h, o, i, n, -, hinode, -, hlen, heq⟩
    · exact ⟨_, heq, hinv.same _⟩
    · exact heq ▸ truncateInode_inv hinv (handleInode_eq_some.mp hinode).2 (by omega)

end

-- ---------------------------------------------------------------------------
-- Runs
-- ---------------------------------------------------------------------------

/-- **The handles of tmpfs stay sound:** a run of allowed operations returns, accesses only
buffers, keeps the reference counts, and no failing operation changes anything. -/
theorem tmpfs_handles (ops : List TmpCall)
    (hok : Run.AllowedOption tmpStep tmpAllowed tmpfsInit ops) :
    (∃ t, Run.runOption tmpStep tmpfsInit ops = some t ∧ HandlesSound t) ∧
      Run.AllowedOption tmpStep TmpCallOk tmpfsInit ops := by
  have hstep : ∀ t call, TmpInv t → tmpAllowed t call →
      TmpCallOk t call ∧ ∃ t', tmpStep t call = some t' ∧ TmpInv t' := by
    intro t call hinv hcall
    obtain ⟨t', r, heq, hinv', herr⟩ := tmpCall_inv hinv hcall
    exact ⟨⟨t', r, heq, hinv'.toHandlesSound, herr⟩, t', by rw [tmpStep, heq]; rfl, hinv'⟩
  obtain ⟨⟨t, hrun, hinv⟩, hgood⟩ := Run.runOption_good hstep ops tmpfsInit tmpfsInit_inv hok
  exact ⟨⟨t, hrun, hinv.toHandlesSound⟩, hgood⟩

/-- One file, created, written, sought and closed. -/
def tmpFileRun : List TmpCall :=
  [.open (some []) [47, 116, 109, 112, 47, 102] oCreat, .write 500 (some [1, 2]),
    .lseek 500 1 0, .read 500 true 4, .close 500, .unlink [47, 116, 109, 112, 47, 102]]

theorem tmpfs_handles_file :
    (∃ t, Run.runOption tmpStep tmpfsInit tmpFileRun = some t ∧ HandlesSound t) ∧
      Run.AllowedOption tmpStep TmpCallOk tmpfsInit tmpFileRun := by
  refine tmpfs_handles tmpFileRun ⟨?_, fun t₁ h₁ => ⟨?_, fun t₂ h₂ => ⟨?_, fun _ _ => ⟨trivial,
    fun _ _ => ⟨trivial, fun _ _ => ⟨trivial, fun _ _ => trivial⟩⟩⟩⟩⟩⟩
  · exact fun _ hfull => absurd hfull (by decide)
  · obtain rfl := Option.some.inj h₁
    intro h o i n hhandle hinode
    have ho : ((⟨0, by decide⟩ : Fin tmpfsMaxOpen),
      (⟨some ⟨0, by decide⟩, 0, oCreat, false⟩ : TmpOpen)) = (h, o) := Option.some.inj hhandle
    obtain ⟨rfl, rfl⟩ := Prod.mk.inj ho
    have hn : ((⟨0, by decide⟩ : Fin tmpfsMaxFiles), (⟨[102], 0, some [], 1⟩ : TmpInode)) = (i, n) :=
      Option.some.inj hinode
    obtain ⟨rfl, rfl⟩ := Prod.mk.inj hn
    decide
  · obtain rfl := Option.some.inj h₁
    obtain rfl := Option.some.inj h₂
    intro h o i n base _ _ hbase
    have hbase' : some (0 : Int) = some base := hbase
    obtain rfl := Option.some.inj hbase'
    exact .inr (.inl (by decide))

-- ---------------------------------------------------------------------------
-- A full table
-- ---------------------------------------------------------------------------

/-- The first `k` handles are handles of `/tmp`. -/
def dirHandles (k : Nat) : Tmpfs :=
  ⟨fun _ => none, fun h => if h.val < k then some ⟨none, 0, 0#32, true⟩ else none⟩

theorem freeOpen_dirHandles {k : Nat} (hk : k < tmpfsMaxOpen) :
    freeOpen (dirHandles k) = some ⟨k, hk⟩ := by
  rw [freeOpen, List.find?_eq_some_iff_getElem]
  refine ⟨by simp [dirHandles], k, by simpa using hk, by simp, fun j hj => ?_⟩
  simp [dirHandles, hj]

theorem dirHandles_succ {k : Nat} (hk : k < tmpfsMaxOpen) :
    tmpStep (dirHandles k) (.open none tmpDir 0#32) = some (dirHandles (k + 1)) := by
  rw [tmpStep, tmpCall, tmpfsOpen, if_pos (.inl rfl), freeOpen_dirHandles hk]
  simp only [Option.map_some, Option.some.injEq, Tmpfs.setOpen, dirHandles, Tmpfs.mk.injEq,
    true_and]
  funext h
  by_cases hh : h = ⟨k, hk⟩
  · rw [hh, Function.update_self, if_pos (Nat.lt_succ_self k)]
  · have hval : h.val ≠ k := fun hv => hh (Fin.ext hv)
    rw [Function.update_of_ne hh]
    split <;> split <;> first | rfl | omega

theorem run_dirHandles {j k : Nat} (hk : k + j ≤ tmpfsMaxOpen) :
    Run.runOption tmpStep (dirHandles k) (List.replicate j (.open none tmpDir 0#32))
      = some (dirHandles (k + j)) := by
  induction j generalizing k with
  | zero => rfl
  | succ j ih =>
    rw [List.replicate_succ, Run.runOption, dirHandles_succ (by omega), Option.bind_some,
      ih (by omega)]
    congr 2
    omega

/-- **An open that finds no handle creates its file all the same.** -/
theorem open_with_a_full_table :
    ¬ ∀ ops : List TmpCall, Run.AllowedOption tmpStep TmpCallOk tmpfsInit ops := by
  intro hall
  have hstart : tmpfsInit = dirHandles 0 := rfl
  have hrun := hall (List.replicate tmpfsMaxOpen (.open none tmpDir 0#32) ++
    [.open (some []) [47, 116, 109, 112, 47, 102] oCreat])
  rw [hstart] at hrun
  obtain ⟨⟨t', r, heq, -, herr⟩, -⟩ :=
    Run.allowedOption_append _ _ _ hrun (run_dirHandles (Nat.le_of_eq (Nat.zero_add _)))
  obtain ⟨rfl, rfl⟩ := Prod.mk.inj (Option.some.inj heq)
  have hcreated : ((tmpfsOpen (dirHandles (0 + tmpfsMaxOpen)) (some [])
      [47, 116, 109, 112, 47, 102] oCreat).1.inodes ⟨0, by decide⟩).isSome := by decide
  rw [herr (by decide)] at hcreated
  exact absurd hcreated (by decide)

end Lestra
