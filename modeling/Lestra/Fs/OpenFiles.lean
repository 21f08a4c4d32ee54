import Lestra.Fs.TreeRuns

/-!
# Descriptors of memfs files

A memfs descriptor is a slot number, and slots are used again. Beside memfs this state
counts the files that have lived in each slot, and remembers for every open descriptor
which of them it was opened for: over a run whose creations take slots without open
descriptors, a descriptor reaches only its own file (`descriptor_stable_run`).
-/

namespace Lestra

/-- memfs with the number of the file that lives, or last lived, in each slot, and the open
descriptors, each by its slot and the number of the file it was opened for. -/
structure OpenFiles where
  fs : Memfs
  gen : Fin maxFiles → Nat
  opened : List (Fin maxFiles × Nat)

/-- The numbers after a step: a node that comes into being is a new file. -/
def genAfter (m m' : Memfs) (gen : Fin maxFiles → Nat) (i : Fin maxFiles) : Nat :=
  if ¬ isLive m.files i ∧ isLive m'.files i then gen i + 1 else gen i

/-- The open descriptors after a call with result `ret`. -/
def openedAfter (gen : Fin maxFiles → Nat) (call : VfsCall) (ret : Int)
    (opened : List (Fin maxFiles × Nat)) : List (Fin maxFiles × Nat) :=
  match call with
  | .open .. =>
    match fileIdx (ret - 3) with
    | some i => (i, gen i) :: opened
    | none => opened
  | .close fd =>
    match fileIdx (fd - 3) with
    | some i => opened.eraseP (·.1 = i)
    | none => opened
  | _ => opened

def openStep (s : OpenFiles) (st : VfsStep) : Option OpenFiles :=
  (vfsCall st.drivers st.caller s.fs st.call).map fun r =>
    ⟨r.1, genAfter s.fs r.1 s.gen,
      openedAfter (genAfter s.fs r.1 s.gen) st.call r.2.ret s.opened⟩

/-- The descriptor that a call works on. -/
def VfsCall.fd : VfsCall → Option Int
  | .read fd _ | .write fd _ | .lseek fd _ _ | .readAt fd _ _ | .writeAt fd _ _
  | .ftruncate fd _ => some fd
  | _ => none

/-- A call on an open descriptor returns and changes bytes only of the file that the
descriptor was opened for. -/
def AccessesOwn (s : OpenFiles) (st : VfsStep) : Prop :=
  ∀ r, vfsCall st.drivers st.caller s.fs st.call = some r →
    ∀ i g, (i, g) ∈ s.opened → st.call.fd = some (memfsFd i) →
      (r.2.bytes ≠ [] → s.gen i = g ∧
        ∃ off, r.2.bytes = ByteBuf.load (s.fs.files i).data off r.2.bytes.length) ∧
      ∀ k, r.1.files k ≠ s.fs.files k → k = i ∧ s.gen i = g

/-- `vfs_open` creates no file in a slot for which a descriptor is open, and no access
leaves a data array. -/
def openAllowed (s : OpenFiles) (st : VfsStep) : Prop :=
  staysInside st.caller s.fs st.call ∧
    match st.call with
    | .open path flags => ∀ parent slot name,
        Creates st.drivers st.caller s.fs path flags parent slot name → ∀ g, (slot, g) ∉ s.opened
    | _ => True

-- ---------------------------------------------------------------------------
-- What a call on a descriptor touches
-- ---------------------------------------------------------------------------

section
variable {d : Drivers} {c : Caller} {m : Memfs} {call : VfsCall} {r : Memfs × Reply}
  {i : Fin maxFiles}

theorem readNode_load {f : MemFile} {off count : Nat} {bs : List UInt8}
    (h : readNode f off count = some bs) : bs = ByteBuf.load f.data off bs.length := by
  unfold readNode at h
  dsimp only at h
  split at h
  · rw [← Option.some.inj h]
    rfl
  · split at h
    · rw [← Option.some.inj h, ByteBuf.length_load]
    · exact absurd h (by simp)

theorem otherFd_memfsFd : ∀ i : Fin maxFiles, otherFd (memfsFd i) = false := by decide

theorem fileOf_memfsFd {k : Fin maxFiles} (h : fileOf m (memfsFd i) k) :
    k = i ∧ (m.files i).live ∧ (m.files i).isDir = false := by
  obtain ⟨-, hfd, hdir⟩ := h
  obtain ⟨heq, hlive⟩ := fdNode_eq_some.mp hfd
  have hk : k = i := by
    simp only [memfsFd] at heq
    omega
  exact hk ▸ ⟨rfl, hlive, hdir⟩

/-- A call on the descriptor of `i` returns bytes of `i` and changes no other node, and
does so only where `i` is a regular file. -/
theorem vfsCall_fd (hfd : call.fd = some (memfsFd i)) (hin : staysInside c m call)
    (h : vfsCall d c m call = some r) :
    (r.2.bytes ≠ [] → ((m.files i).live ∧ (m.files i).isDir = false) ∧
      ∃ off, r.2.bytes = ByteBuf.load (m.files i).data off r.2.bytes.length) ∧
    ∀ k, r.1.files k ≠ m.files k → k = i ∧ (m.files i).live ∧ (m.files i).isDir = false := by
  have hset : ∀ {k : Fin maxFiles} (f : MemFile → MemFile), fileOf m (memfsFd i) k →
      ∀ j, setNode m.files k f j ≠ m.files j →
        j = i ∧ (m.files i).live ∧ (m.files i).isDir = false := by
    intro k f hk j hj
    obtain ⟨rfl, hfile⟩ := fileOf_memfsFd hk
    refine ⟨?_, hfile⟩
    by_contra hne
    exact hj (setNode_ne _ _ hne)
  have hquiet : ∀ r' : Reply, (otherFd (memfsFd i) ∨ r'.bytes = []) →
      (r'.bytes ≠ [] → ((m.files i).live ∧ (m.files i).isDir = false) ∧
        ∃ off, r'.bytes = ByteBuf.load (m.files i).data off r'.bytes.length) ∧
      ∀ k, m.files k ≠ m.files k → k = i ∧ (m.files i).live ∧ (m.files i).isDir = false := by
    intro r' hbytes
    rw [otherFd_memfsFd] at hbytes
    exact ⟨fun hne => absurd (hbytes.resolve_left (by simp)) hne, fun _ hk => absurd rfl hk⟩
  cases call with
  | read fd count =>
    obtain rfl := Option.some.inj hfd
    rcases vfsRead_cases d m (memfsFd i) count with
      ⟨r', heq, hbytes⟩ | ⟨k, hk, heq⟩ <;> rw [vfsCall, heq] at h
    · obtain rfl := Option.some.inj h
      exact hquiet r' hbytes
    · obtain ⟨bs, hbs, rfl⟩ := Option.map_eq_some_iff.mp h
      obtain ⟨rfl, hfile⟩ := fileOf_memfsFd hk
      exact ⟨fun _ => ⟨hfile, _, readNode_load hbs⟩, fun _ hk => absurd rfl hk⟩
  | readAt fd count offset =>
    obtain rfl := Option.some.inj hfd
    rcases vfsReadAt_cases d m (memfsFd i) offset count with ⟨r', heq, hbytes⟩ | ⟨k, hk, heq⟩ <;> rw [vfsCall, heq] at h
    · obtain rfl := Option.some.inj h
      exact hquiet r' hbytes
    · obtain ⟨bs, hbs, rfl⟩ := Option.map_eq_some_iff.mp h
      obtain ⟨rfl, hfile⟩ := fileOf_memfsFd hk
      exact ⟨fun _ => ⟨hfile, _, readNode_load hbs⟩, fun _ hk => absurd rfl hk⟩
  | write fd buf =>
    obtain rfl := Option.some.inj hfd
    rcases vfsWrite_cases d buf hin with
      ⟨r', heq, hbytes⟩ | ⟨k, hk, -, heq⟩ <;>
      rw [vfsCall, heq] at h <;> obtain rfl := Option.some.inj h
    · exact hquiet r' hbytes
    · exact ⟨fun hne => absurd rfl hne, hset _ hk⟩
  | writeAt fd buf offset =>
    obtain rfl := Option.some.inj hfd
    rcases vfsWriteAt_cases d buf hin with
      ⟨r', heq, hbytes⟩ | ⟨k, hk, -, heq⟩ <;>
      rw [vfsCall, heq] at h <;> obtain rfl := Option.some.inj h
    · exact hquiet r' hbytes
    · exact ⟨fun hne => absurd rfl hne, hset _ hk⟩
  | lseek fd offset whence =>
    obtain rfl := Option.some.inj hfd
    rcases vfsLseek_cases d m (memfsFd i) offset whence with ⟨r', heq, hbytes⟩ | ⟨k, off, -, heq⟩ <;>
      rw [vfsCall, heq] at h <;> obtain rfl := Option.some.inj h
    · exact hquiet r' hbytes
    · exact ⟨fun hne => absurd rfl hne, fun _ hk => absurd rfl hk⟩
  | ftruncate fd length =>
    obtain rfl := Option.some.inj hfd
    rcases vfsFtruncate_cases (d := d) hin with ⟨r', heq⟩ | ⟨k, hk, -, heq⟩ <;>
      rw [vfsCall, heq] at h <;> obtain rfl := Option.some.inj h
    · exact hquiet _ (.inr rfl)
    · exact ⟨fun hne => absurd rfl hne, hset _ hk⟩
  | _ => exact absurd hfd (by simp [VfsCall.fd])

-- ---------------------------------------------------------------------------
-- How nodes come into being
-- ---------------------------------------------------------------------------

/-- Every node that exists after the edit existed before, and is a directory as before. -/
def NoBirths (files files' : MemFiles) : Prop :=
  ∀ i, (isLive files' i → isLive files i) ∧ (files' i).isDir = (files i).isDir

theorem NoBirths.of_field {files files' : MemFiles}
    (h : ∀ i, (files' i).live = (files i).live ∧ (files' i).isDir = (files i).isDir) :
    NoBirths files files' :=
  fun i => ⟨fun hi => by rwa [isLive, (h i).1] at hi, (h i).2⟩

theorem removeNode_noBirths (m : Memfs) (i : Fin maxFiles) :
    NoBirths m.files (removeNode m i).files := by
  intro j
  obtain ⟨cs, hcs⟩ := detach_node m.files i j
  by_cases hj : j = i
  · rw [hj] at hcs ⊢
    simp [isLive, removeNode_same, hcs]
  · simp [isLive, removeNode_ne m hj, hcs]

theorem clearTarget_noBirths (m : Memfs) (new : Option (Fin maxFiles)) :
    NoBirths m.files (clearTarget m new).files := by
  cases new with
  | none => exact fun _ => ⟨id, rfl⟩
  | some n => exact removeNode_noBirths m n

/-- A move keeps every node as it was before it or, rolled back, before `new` was freed. -/
theorem moveNode_field {β : Type} (g : MemFile → β)
    (hg : ∀ f cs name x, g { f with children := cs, name, parentIdx := x } = g f)
    (m m₁ : Memfs) (old parent : Fin maxFiles) (new : Option (Fin maxFiles))
    (name : List UInt8) (i : Fin maxFiles) :
    g ((moveNode m m₁ old new parent name).1.files i) = g (m₁.files i) ∨
      g ((moveNode m m₁ old new parent name).1.files i) = g (m.files i) := by
  have hchildren : ∀ f cs, g { f with children := cs } = g f := fun f cs =>
    hg f cs f.name f.parentIdx
  have hnamed : ∀ f name x, g { f with name, parentIdx := x } = g f := fun f name x =>
    hg f f.children name x
  have hset : ∀ (files : MemFiles) name x j, g (setNode files old
      (fun f => { f with name, parentIdx := x }) j) = g (files j) := by
    intro files name x j
    refine setNode_field g files old j ?_
    exact hnamed _ _ _
  unfold moveNode
  dsimp only
  split
  · rename_i files hadd
    left
    rw [addChild_field g hchildren hadd, hset, detach_field g hchildren]
  · split
    · left
      rw [reattach_field g hchildren, hset, hset, detach_field g hchildren]
    · rename_i n
      rw [reattach_field g hchildren]
      by_cases hi : i = n
      · right
        rw [hi, setNode_same]
      · left
        rw [setNode_ne _ _ hi, reattach_field g hchildren, hset, hset, detach_field g hchildren]

theorem moveNode_noBirths (m : Memfs) (old parent : Fin maxFiles)
    (new : Option (Fin maxFiles)) (name : List UInt8) :
    NoBirths m.files (moveNode m (clearTarget m new) old new parent name).1.files := by
  intro i
  obtain ⟨hlive, hdir⟩ := clearTarget_noBirths m new i
  constructor
  · intro hi
    rw [isLive] at hi
    rcases moveNode_field MemFile.live (fun _ _ _ _ => rfl) _ _ _ _ _ _ i with h | h <;> rw [h] at hi
    · exact hlive hi
    · exact hi
  · rcases moveNode_field MemFile.isDir (fun _ _ _ _ => rfl) _ _ _ _ _ _ i with h | h
    · exact h.trans hdir
    · exact h

/-- `addNode` brings nothing into being but its slot. -/
theorem addNode_births {name : List UInt8} {isDir : Bool} {mode : BitVec 32}
    {parent slot i : Fin maxFiles} {files : MemFiles} (h : i ≠ slot) :
    (addNode c name isDir mode parent slot files i).live = (files i).live ∧
      (addNode c name isDir mode parent slot files i).isDir = (files i).isDir := by
  rw [addNode_field MemFile.live fun _ _ => rfl, addNode_field MemFile.isDir fun _ _ => rfl,
    setNode_ne _ _ h]
  exact ⟨rfl, rfl⟩

/-- The new node is a directory if it was made one. -/
theorem addNode_isDir {name : List UInt8} {isDir : Bool} {mode : BitVec 32}
    {parent slot : Fin maxFiles} {files : MemFiles} :
    (addNode c name isDir mode parent slot files slot).isDir = isDir := by
  rw [addNode_field MemFile.isDir fun _ _ => rfl, setNode_same]
  rfl

/-- **A call brings at most one node into being:** the file that `vfs_open` creates or the
directory that `vfs_mkdir` makes. -/
theorem vfsCall_births {s : VfsStep} (hin : staysInside s.caller m s.call)
    (h : vfsCall s.drivers s.caller m s.call = some r) :
    NoBirths m.files r.1.files ∨
    (∃ path flags parent slot name, s.call = .open path flags ∧
      Creates s.drivers s.caller m path flags parent slot name ∧
      ∀ i, i ≠ slot → (r.1.files i).live = (m.files i).live ∧
        (r.1.files i).isDir = (m.files i).isDir) ∨
    (∃ path mode slot, s.call = .mkdir path mode ∧ (m.files slot).live = false ∧
      (r.1.files slot).isDir ∧
      ∀ i, i ≠ slot → (r.1.files i).live = (m.files i).live ∧
        (r.1.files i).isDir = (m.files i).isDir) := by
  by_cases hcall : s.call.editsTree
  · obtain ⟨d, c, call⟩ := s
    cases call with
    | «open» path flags =>
      obtain rfl := Option.some.inj h
      rcases vfsOpen_cases d c m path flags with
        heq | ⟨i, -, -, heq⟩ | ⟨parent, slot, name, hcr, heq⟩
      · exact .inl (by rw [plain, heq]; exact fun _ => ⟨id, rfl⟩)
      · left
        rw [plain, heq]
        refine .of_field fun j => ?_
        dsimp only [openNode]
        split
        · exact ⟨setNode_field MemFile.live _ _ _ rfl, setNode_field MemFile.isDir _ _ _ rfl⟩
        · exact ⟨rfl, rfl⟩
      · refine .inr (.inl ⟨path, flags, parent, slot, name, rfl, hcr, fun i hi => ?_⟩)
        rw [plain, heq]
        exact addNode_births hi
    | mkdir path mode =>
      obtain rfl := Option.some.inj h
      rcases vfsMkdir_cases d c m path mode with heq | ⟨parent, slot, name, hmk, heq⟩
      · exact .inl (by rw [plain, heq]; exact fun _ => ⟨id, rfl⟩)
      · refine .inr (.inr ⟨path, mode, slot, rfl, memfsAllocSlot_dead hmk.slot, ?_,
          fun i hi => ?_⟩) <;> rw [plain, heq]
        · exact addNode_isDir
        · exact addNode_births hi
    | unlink path =>
      obtain rfl := Option.some.inj h
      left
      rcases vfsUnlink_cases d c m path with heq | ⟨i, -, heq⟩ <;> rw [plain, heq]
      · exact fun _ => ⟨id, rfl⟩
      · exact removeNode_noBirths m i
    | rmdir path =>
      obtain rfl := Option.some.inj h
      left
      rcases vfsRmdir_cases d c m path with heq | ⟨i, -, heq⟩ <;> rw [plain, heq]
      · exact fun _ => ⟨id, rfl⟩
      · exact removeNode_noBirths m i
    | rename oldpath newpath =>
      obtain rfl := Option.some.inj h
      left
      rcases vfsRename_cases d c m oldpath newpath with heq | ⟨old, new, parent, name, -, heq⟩ <;>
        rw [plain, heq]
      · exact fun _ => ⟨id, rfl⟩
      · exact moveNode_noBirths m old parent new name
    | _ => exact absurd hcall (by simp [VfsCall.editsTree])
  · obtain ⟨m', hm', -, hshape⟩ := vfsStep_shape (by simpa using hcall) hin
    rw [vfsStep, h] at hm'
    obtain rfl := Option.some.inj hm'
    exact .inl (.of_field fun i => ⟨congrArg (·.1) (hshape i), congrArg (·.2.2.1) (hshape i)⟩)

/-- A call that stays inside the data arrays returns. -/
theorem vfsCall_returns {s : VfsStep} (hin : staysInside s.caller m s.call) :
    ∃ r, vfsCall s.drivers s.caller m s.call = some r := by
  by_cases hcall : s.call.editsTree
  · obtain ⟨d, c, call⟩ := s
    cases call with
    | «open» | mkdir | unlink | rmdir | rename => exact ⟨_, rfl⟩
    | _ => exact absurd hcall (by simp [VfsCall.editsTree])
  · obtain ⟨m', hm', -⟩ := vfsStep_shape (by simpa using hcall) hin
    obtain ⟨r, hr, -⟩ := Option.map_eq_some_iff.mp hm'
    exact ⟨r, hr⟩

end

-- ---------------------------------------------------------------------------
-- Runs
-- ---------------------------------------------------------------------------

/-- An open descriptor stands for its own file, for a directory or for no node at all. -/
def OpenInv (s : OpenFiles) : Prop :=
  ∀ i g, (i, g) ∈ s.opened →
    s.gen i = g ∨ (s.fs.files i).live = false ∨ (s.fs.files i).isDir = true

section
variable {s s' : OpenFiles} {st : VfsStep}

theorem openedAfter_mem {gen : Fin maxFiles → Nat} {call : VfsCall} {ret : Int}
    {opened : List (Fin maxFiles × Nat)} {i : Fin maxFiles} {g : Nat}
    (h : (i, g) ∈ openedAfter gen call ret opened) : (i, g) ∈ opened ∨ gen i = g := by
  unfold openedAfter at h
  split at h
  · split at h
    · rcases List.mem_cons.mp h with heq | h
      · obtain ⟨rfl, rfl⟩ := Prod.mk.inj heq
        exact .inr rfl
      · exact .inl h
    · exact .inl h
  · split at h
    · exact .inl (List.mem_of_mem_eraseP h)
    · exact .inl h
  · exact .inl h

theorem openStep_inv (h : OpenInv s) (hok : openAllowed s st) (hs' : openStep s st = some s') :
    OpenInv s' := by
  obtain ⟨hin, hslot⟩ := hok
  obtain ⟨r, hr, rfl⟩ := Option.map_eq_some_iff.mp hs'
  have same : ∀ {i : Fin maxFiles} {g : Nat}, (i, g) ∈ s.opened →
      (isLive r.1.files i → isLive s.fs.files i) →
      (r.1.files i).isDir = (s.fs.files i).isDir →
      genAfter s.fs r.1 s.gen i = g ∨ (r.1.files i).live = false ∨
        (r.1.files i).isDir = true := by
    intro i g hi hlive hdir
    have hgen : genAfter s.fs r.1 s.gen i = s.gen i := if_neg fun hborn => hborn.1 (hlive hborn.2)
    rcases h i g hi with hg | hdead | hd
    · exact .inl (hgen.trans hg)
    · refine .inr (.inl ?_)
      by_contra hl
      have := hlive (by simpa [isLive] using hl)
      rw [isLive, hdead] at this
      exact absurd this (by simp)
    · exact .inr (.inr (hdir.trans hd))
  intro i g hi
  rcases openedAfter_mem hi with hi | hg
  · rcases vfsCall_births hin hr with hno |
      ⟨path, flags, parent, slot, name, hcall, hcr, hsame⟩ | ⟨path, mode, slot, -, -, hdir, hsame⟩
    · exact same hi (hno i).1 (hno i).2
    · -- the slot of a new file has no open descriptor
      rw [hcall] at hslot
      have hne : i ≠ slot := fun he => hslot parent slot name hcr g (he ▸ hi)
      obtain ⟨hl, hd⟩ := hsame i hne
      exact same hi (fun hlive => by rwa [isLive, hl] at hlive) hd
    · by_cases hne : i = slot
      · exact .inr (.inr (hne ▸ hdir))
      · obtain ⟨hl, hd⟩ := hsame i hne
        exact same hi (fun hlive => by rwa [isLive, hl] at hlive) hd
  · exact .inl hg

theorem openStep_returns (hok : openAllowed s st) : ∃ s', openStep s st = some s' := by
  obtain ⟨r, hr⟩ := vfsCall_returns hok.1
  rw [openStep, hr]
  exact ⟨_, rfl⟩

theorem accessesOwn (h : OpenInv s) (hok : openAllowed s st) : AccessesOwn s st := by
  intro r hr i g hi hfd
  obtain ⟨hbytes, hchange⟩ := vfsCall_fd hfd hok.1 hr
  have own : (s.fs.files i).live ∧ (s.fs.files i).isDir = false → s.gen i = g := by
    rintro ⟨hlive, hdir⟩
    rcases h i g hi with hg | hdead | hd
    · exact hg
    · rw [hdead] at hlive
      exact absurd hlive (by simp)
    · rw [hd] at hdir
      exact absurd hdir (by simp)
  exact ⟨fun hne => ⟨own (hbytes hne).1, (hbytes hne).2⟩,
    fun k hk => ⟨(hchange k hk).1, own (hchange k hk).2⟩⟩

/-- **A descriptor reaches only the file it was opened for,** in every run whose
creations take slots without open descriptors. -/
theorem descriptor_stable_run (m : Memfs) (gen : Fin maxFiles → Nat) (steps : List VfsStep)
    (hok : Run.AllowedOption openStep openAllowed ⟨m, gen, []⟩ steps) :
    (∃ s, Run.runOption openStep ⟨m, gen, []⟩ steps = some s) ∧
      Run.AllowedOption openStep AccessesOwn ⟨m, gen, []⟩ steps := by
  have hstart : OpenInv ⟨m, gen, []⟩ := by
    intro i g hi
    exact absurd hi (List.not_mem_nil)
  have hstep : ∀ s st, OpenInv s → openAllowed s st → AccessesOwn s st ∧
      ∃ s', openStep s st = some s' ∧ OpenInv s' := by
    intro s st h hst
    obtain ⟨s', hs'⟩ := openStep_returns hst
    exact ⟨accessesOwn h hst, s', hs', openStep_inv h hst hs'⟩
  obtain ⟨⟨s, hs, -⟩, hown⟩ := Run.runOption_good hstep steps ⟨m, gen, []⟩ hstart hok
  exact ⟨⟨s, hs⟩, hown⟩

/-- Two files, of which one is written and the other read, closed and unlinked. -/
def twoFilesRun : List VfsStep :=
  [bareStep (.open [47, 102] oCreat), bareStep (.open [47, 103] oCreat),
    bareStep (.write 5 [3]), bareStep (.read 4 2), bareStep (.close 4),
    bareStep (.unlink [47, 102])]

theorem descriptor_stable_run_twoFiles :
    (∃ s, Run.runOption openStep ⟨vfsInit, fun _ => 0, []⟩ twoFilesRun = some s) ∧
      Run.AllowedOption openStep AccessesOwn ⟨vfsInit, fun _ => 0, []⟩ twoFilesRun := by
  refine descriptor_stable_run vfsInit (fun _ => 0) twoFilesRun
    ⟨⟨trivial, ?_⟩, fun s₁ h₁ => ⟨⟨trivial, ?_⟩, fun s₂ h₂ => ⟨⟨?_, trivial⟩, fun s₃ h₃ =>
      ⟨⟨?_, trivial⟩, fun _ _ => ⟨⟨trivial, trivial⟩, fun _ _ =>
        ⟨⟨trivial, trivial⟩, fun _ _ => trivial⟩⟩⟩⟩⟩⟩
  · exact fun _ _ _ _ _ hg => absurd hg (List.not_mem_nil)
  · obtain rfl := Option.some.inj h₁
    intro parent slot name hcr g hg
    have hslot : some (⟨2, by decide⟩ : Fin maxFiles) = some slot := hcr.slot
    obtain rfl := Option.some.inj hslot
    have hmem : ((⟨2, by decide⟩ : Fin maxFiles), g) ∈ [((⟨1, by decide⟩ : Fin maxFiles), 1)] := hg
    simp at hmem
  · obtain rfl := Option.some.inj h₁
    obtain rfl := Option.some.inj h₂
    change ∀ i, fileOf _ 5 i → writeOffset _ i ≤ maxFileSize
    decide
  · obtain rfl := Option.some.inj h₁
    obtain rfl := Option.some.inj h₂
    obtain rfl := Option.some.inj h₃
    change ∀ i, fileOf _ 4 i → readInside _ _ 2
    decide

/-- **A descriptor of an unlinked file reads the next file:** `/g` takes the slot of
`/f`, and descriptor 4 of `/f` writes it. -/
theorem descriptor_after_unlink :
    ¬ ∀ (m : Memfs) (gen : Fin maxFiles → Nat) (steps : List VfsStep),
      Run.AllowedOption openStep AccessesOwn ⟨m, gen, []⟩ steps := by
  intro h
  obtain ⟨-, h1⟩ := h vfsInit (fun _ => 0) [bareStep (.open [47, 102] oCreat),
    bareStep (.unlink [47, 102]), bareStep (.open [47, 103] oCreat), bareStep (.write 4 [1])]
  obtain ⟨-, h2⟩ := h1 _ rfl
  obtain ⟨-, h3⟩ := h2 _ rfl
  obtain ⟨hown, -⟩ := h3 _ rfl
  have hwrite := (hown _ rfl ⟨1, by decide⟩ 1 (by decide) rfl).2 ⟨1, by decide⟩
    fun he => absurd (congrArg MemFile.size he) (by decide)
  exact absurd hwrite.2 (by decide)

end

end Lestra
