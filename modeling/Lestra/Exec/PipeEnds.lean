import Lestra.Exec.Files
import Lestra.Lib.FirstFit

/-!
# Pipe ends

* `EndsOk` — every pipe descriptor in use stands alone for an open end of a pipe
* `pipeCreate_endsOk`, `pipeClose_endsOk` — nothing breaks this
* `EntryOk` — a descriptor of a process refers to a pipe descriptor in use, until
  that is closed
-/

namespace Lestra

/-- `write_open` or `read_open`. -/
def Pipe.endOpen (p : Pipe) (isWriteEnd : Bool) : Bool :=
  if isWriteEnd then p.writeOpen else p.readOpen

namespace PipeTable

/-- Every pipe descriptor in use belongs to an open end of a pipe in use, and no two
belong to the same end. -/
structure EndsOk (t : PipeTable) : Prop where
  pipe : ∀ f, (t.pipeFds f).inUse = true → (t.pipes (t.pipeFds f).pipeIdx).inUse = true
  isOpen : ∀ f, (t.pipeFds f).inUse = true →
    (t.pipes (t.pipeFds f).pipeIdx).endOpen (t.pipeFds f).isWriteEnd = true
  unique : ∀ f g, (t.pipeFds f).inUse = true → (t.pipeFds g).inUse = true →
    (t.pipeFds f).pipeIdx = (t.pipeFds g).pipeIdx →
    (t.pipeFds f).isWriteEnd = (t.pipeFds g).isWriteEnd → f = g

variable {t : PipeTable} {pi : Fin maxPipes} {p : Pipe} {f g : Fin maxPipeFds}

@[simp] theorem setPipe_pipeFds : (t.setPipe pi p).pipeFds = t.pipeFds := rfl

@[simp] theorem setFd_pipes {pfd : PipeFd} : (t.setFd f pfd).pipes = t.pipes := rfl

@[simp] theorem setPipe_same : (t.setPipe pi p).pipes pi = p := Function.update_self ..

@[simp] theorem setPipe_ne {qi : Fin maxPipes} (h : qi ≠ pi) :
    (t.setPipe pi p).pipes qi = t.pipes qi := Function.update_of_ne h ..

@[simp] theorem setFd_same {pfd : PipeFd} : (t.setFd f pfd).pipeFds f = pfd :=
  Function.update_self ..

@[simp] theorem setFd_ne {pfd : PipeFd} (h : g ≠ f) :
    (t.setFd f pfd).pipeFds g = t.pipeFds g := Function.update_of_ne h ..

end PipeTable

theorem pipeInit_endsOk : pipeInit.EndsOk := by
  refine ⟨?_, ?_, ?_⟩ <;> simp [pipeInit]

theorem pipeFdOf_inj {f g : Fin maxPipeFds} (h : pipeFdOf f = pipeFdOf g) : f = g := by
  unfold pipeFdOf at h
  exact Fin.ext (by omega)

theorem pipeIsPipeFd_eq_some {t : PipeTable} {fd : Int} {f : Fin maxPipeFds} :
    pipeIsPipeFd t fd = some f ↔ fd = pipeFdOf f ∧ (t.pipeFds f).inUse = true := by
  have hf := f.isLt
  unfold pipeIsPipeFd pipeFdOf
  constructor
  · intro h
    split at h
    case isTrue hrange =>
      dsimp only at h
      split at h
      case isTrue huse =>
        obtain rfl := Option.some.inj h
        refine ⟨?_, huse⟩
        show fd = pipeFdBase + ((fd - pipeFdBase).toNat : Int)
        omega
      case isFalse => cases h
    case isFalse => cases h
  · rintro ⟨rfl, huse⟩
    have hidx : (⟨(pipeFdBase + (f.val : Int) - pipeFdBase).toNat, by omega⟩ : Fin maxPipeFds) =
        f := Fin.ext (by
          show (pipeFdBase + (f.val : Int) - pipeFdBase).toNat = f.val
          omega)
    rw [dif_pos (by omega), hidx, if_pos huse]

-- ---------------------------------------------------------------------------
-- pipe_close
-- ---------------------------------------------------------------------------

section Close

variable {t : PipeTable} {fd : Int}

/-- The pipe after an end of it was closed. -/
def Pipe.closeEnd (p : Pipe) (isWriteEnd : Bool) : Pipe :=
  let p := if isWriteEnd then { p with writeOpen := false } else { p with readOpen := false }
  if !p.readOpen ∧ !p.writeOpen then { p with inUse := false } else p

/-- The other end stays open, and with it the pipe stays in use. -/
theorem Pipe.closeEnd_other {p : Pipe} {w w' : Bool} (hw : w ≠ w') (h : p.endOpen w = true) :
    (p.closeEnd w').endOpen w = true ∧ (p.closeEnd w').inUse = p.inUse := by
  cases w <;> cases w' <;> simp_all [Pipe.endOpen, Pipe.closeEnd]

theorem pipeClose_eq {i : Fin maxPipeFds} (h : pipeIsPipeFd t fd = some i) :
    (pipeClose t fd).1 = (t.setFd i { t.pipeFds i with inUse := false }).setPipe
      (t.pipeFds i).pipeIdx
      ((t.pipes (t.pipeFds i).pipeIdx).closeEnd (t.pipeFds i).isWriteEnd) := by
  unfold pipeClose
  rw [h]
  rfl

/-- Closing what is no pipe descriptor does nothing. -/
theorem pipeClose_none (h : pipeIsPipeFd t fd = none) : (pipeClose t fd).1 = t := by
  unfold pipeClose
  rw [h]

/-- `pipe_close` only gives up the descriptor `fd`. -/
theorem pipeClose_pipeFds (t : PipeTable) (fd : Int) (f : Fin maxPipeFds) :
    (pipeClose t fd).1.pipeFds f =
      { t.pipeFds f with inUse := (t.pipeFds f).inUse && decide (pipeFdOf f ≠ fd) } := by
  cases hi : pipeIsPipeFd t fd with
  | none =>
    rw [pipeClose_none hi]
    by_cases huse : (t.pipeFds f).inUse = true
    · have hne : pipeFdOf f ≠ fd := fun he => by
        rw [pipeIsPipeFd_eq_some.mpr ⟨he.symm, huse⟩] at hi
        cases hi
      simp [hne]
    · simp only [Bool.not_eq_true] at huse
      rw [huse, Bool.false_and, ← huse]
  | some i =>
    obtain ⟨rfl, huse⟩ := pipeIsPipeFd_eq_some.mp hi
    rw [pipeClose_eq hi, PipeTable.setPipe_pipeFds]
    by_cases hf : f = i
    · subst hf
      simp
    · have hne : pipeFdOf f ≠ pipeFdOf i := fun he => hf (pipeFdOf_inj he)
      simp [hf, hne]

theorem pipeClose_inUse {f : Fin maxPipeFds} :
    ((pipeClose t fd).1.pipeFds f).inUse = true ↔
      (t.pipeFds f).inUse = true ∧ pipeFdOf f ≠ fd := by
  rw [pipeClose_pipeFds]
  simp

theorem pipeClose_endsOk (h : t.EndsOk) (fd : Int) : (pipeClose t fd).1.EndsOk := by
  have hfd : ∀ f, ((pipeClose t fd).1.pipeFds f).pipeIdx = (t.pipeFds f).pipeIdx ∧
      ((pipeClose t fd).1.pipeFds f).isWriteEnd = (t.pipeFds f).isWriteEnd := by
    intro f
    rw [pipeClose_pipeFds]
    exact ⟨rfl, rfl⟩
  -- a descriptor that is still in use keeps its pipe and its end
  have hkeep : ∀ f, ((pipeClose t fd).1.pipeFds f).inUse = true →
      ((pipeClose t fd).1.pipes (t.pipeFds f).pipeIdx).inUse = true ∧
      ((pipeClose t fd).1.pipes (t.pipeFds f).pipeIdx).endOpen (t.pipeFds f).isWriteEnd = true := by
    intro f hf
    obtain ⟨huse, hne⟩ := pipeClose_inUse.mp hf
    have hpipe := h.pipe f huse
    have hopen := h.isOpen f huse
    cases hi : pipeIsPipeFd t fd with
    | none =>
      rw [pipeClose_none hi]
      exact ⟨hpipe, hopen⟩
    | some i =>
      obtain ⟨rfl, huse'⟩ := pipeIsPipeFd_eq_some.mp hi
      rw [pipeClose_eq hi]
      by_cases hpi : (t.pipeFds f).pipeIdx = (t.pipeFds i).pipeIdx
      · have hend : (t.pipeFds f).isWriteEnd ≠ (t.pipeFds i).isWriteEnd := fun he =>
          hne (congrArg pipeFdOf (h.unique f i huse huse' hpi he))
        rw [hpi] at hpipe hopen ⊢
        rw [PipeTable.setPipe_same]
        obtain ⟨hopen', hinUse⟩ := Pipe.closeEnd_other hend hopen
        exact ⟨hinUse.trans hpipe, hopen'⟩
      · rw [PipeTable.setPipe_ne hpi]
        exact ⟨hpipe, hopen⟩
  refine ⟨fun f hf => ?_, fun f hf => ?_, fun f g hf hg hpi hend => ?_⟩
  · rw [(hfd f).1]
    exact (hkeep f hf).1
  · rw [(hfd f).1, (hfd f).2]
    exact (hkeep f hf).2
  · rw [(hfd f).1, (hfd g).1] at hpi
    rw [(hfd f).2, (hfd g).2] at hend
    exact h.unique f g (pipeClose_inUse.mp hf).1 (pipeClose_inUse.mp hg).1 hpi hend

end Close

-- ---------------------------------------------------------------------------
-- pipe_create
-- ---------------------------------------------------------------------------

section Create

variable {t : PipeTable} {pi : Fin maxPipes}

theorem freePipe_some (h : freePipe t = some pi) : (t.pipes pi).inUse = false := by
  simpa using FirstFit.mem_of_some h

/-- No descriptor in use belongs to a pipe that is not. -/
theorem PipeTable.EndsOk.pipeIdx_ne {f : Fin maxPipeFds} (h : t.EndsOk)
    (hpi : (t.pipes pi).inUse = false) (hf : (t.pipeFds f).inUse = true) :
    (t.pipeFds f).pipeIdx ≠ pi := by
  intro he
  have := h.pipe f hf
  rw [he, hpi] at this
  cases this

/-- Changing a pipe that is not in use. -/
theorem PipeTable.EndsOk.setPipe {p : Pipe} (h : t.EndsOk) (hpi : (t.pipes pi).inUse = false) :
    (t.setPipe pi p).EndsOk := by
  refine ⟨fun f hf => ?_, fun f hf => ?_, fun f g hf hg => h.unique f g hf hg⟩
  · rw [PipeTable.setPipe_pipeFds, PipeTable.setPipe_ne (h.pipeIdx_ne hpi hf)]
    exact h.pipe f hf
  · rw [PipeTable.setPipe_pipeFds, PipeTable.setPipe_ne (h.pipeIdx_ne hpi hf)]
    exact h.isOpen f hf

/-- The same pipes and descriptors are in use, and as they were. -/
structure PipeTable.SameUsed (t t' : PipeTable) : Prop where
  pipes : ∀ pi, (t'.pipes pi).inUse = (t.pipes pi).inUse
  pipeFds : ∀ f, (t'.pipeFds f).inUse = (t.pipeFds f).inUse
  keepPipe : ∀ pi, (t.pipes pi).inUse = true → t'.pipes pi = t.pipes pi
  keepFd : ∀ f, (t.pipeFds f).inUse = true → t'.pipeFds f = t.pipeFds f

theorem PipeTable.SameUsed.refl (t : PipeTable) : t.SameUsed t :=
  ⟨fun _ => rfl, fun _ => rfl, fun _ _ => rfl, fun _ _ => rfl⟩

theorem PipeTable.SameUsed.setPipe {t' : PipeTable} {p : Pipe} (h : t.SameUsed t')
    (hpi : (t.pipes pi).inUse = false) (hp : p.inUse = false) : t.SameUsed (t'.setPipe pi p) := by
  refine ⟨fun qi => ?_, h.pipeFds, fun qi hq => ?_, h.keepFd⟩
  · by_cases he : qi = pi
    · rw [he, PipeTable.setPipe_same, hp, hpi]
    · rw [PipeTable.setPipe_ne he, h.pipes]
  · have hne : qi ≠ pi := by
      rintro rfl
      rw [hpi] at hq
      cases hq
    rw [PipeTable.setPipe_ne hne, h.keepPipe qi hq]

theorem PipeTable.SameUsed.setFd {t' : PipeTable} {r : Fin maxPipeFds} {pfd : PipeFd}
    (h : t.SameUsed t') (hr : (t.pipeFds r).inUse = false) (hpfd : pfd.inUse = false) :
    t.SameUsed (t'.setFd r pfd) := by
  refine ⟨h.pipes, fun f => ?_, h.keepPipe, fun f hf => ?_⟩
  · by_cases he : f = r
    · rw [he, PipeTable.setFd_same, hpfd, hr]
    · rw [PipeTable.setFd_ne he, h.pipeFds]
  · have hne : f ≠ r := by
      rintro rfl
      rw [hr] at hf
      cases hf
    rw [PipeTable.setFd_ne hne, h.keepFd f hf]

theorem PipeTable.SameUsed.endsOk {t' : PipeTable} (h : t.SameUsed t') (ht : t.EndsOk) : t'.EndsOk := by
  have hkeep (f : Fin maxPipeFds) (hf : (t'.pipeFds f).inUse = true) :
      (t.pipeFds f).inUse = true ∧ t'.pipeFds f = t.pipeFds f := by
    rw [h.pipeFds] at hf
    exact ⟨hf, h.keepFd f hf⟩
  refine ⟨fun f hf => ?_, fun f hf => ?_, fun f g hf hg => ?_⟩
  · obtain ⟨hf, heq⟩ := hkeep f hf
    rw [heq, h.pipes]
    exact ht.pipe f hf
  · obtain ⟨hf, heq⟩ := hkeep f hf
    rw [heq, h.keepPipe _ (ht.pipe f hf)]
    exact ht.isOpen f hf
  · obtain ⟨hf, heq⟩ := hkeep f hf
    obtain ⟨hg, heq'⟩ := hkeep g hg
    rw [heq, heq']
    exact ht.unique f g hf hg

/-- A new descriptor for an open end that has none. -/
theorem PipeTable.EndsOk.setFd {r : Fin maxPipeFds} {w : Bool} (h : t.EndsOk)
    (hpipe : (t.pipes pi).inUse = true) (hopen : (t.pipes pi).endOpen w = true)
    (hnew : ∀ f, f ≠ r → (t.pipeFds f).inUse = true → (t.pipeFds f).pipeIdx = pi →
      (t.pipeFds f).isWriteEnd ≠ w) : (t.setFd r ⟨true, pi, w⟩).EndsOk := by
  refine ⟨fun f hf => ?_, fun f hf => ?_, fun f g hf hg hpi hend => ?_⟩
  · by_cases he : f = r
    · rw [he, PipeTable.setFd_same]
      exact hpipe
    · rw [PipeTable.setFd_ne he] at hf ⊢
      exact h.pipe f hf
  · by_cases he : f = r
    · rw [he, PipeTable.setFd_same]
      exact hopen
    · rw [PipeTable.setFd_ne he] at hf ⊢
      exact h.isOpen f hf
  · by_cases he : f = r <;> by_cases he' : g = r
    · rw [he, he']
    · rw [he, PipeTable.setFd_same, PipeTable.setFd_ne he'] at hpi hend
      rw [PipeTable.setFd_ne he'] at hg
      exact absurd hend.symm (hnew g he' hg hpi.symm)
    · rw [he', PipeTable.setFd_same, PipeTable.setFd_ne he] at hpi hend
      rw [PipeTable.setFd_ne he] at hf
      exact absurd hend (hnew f he hf hpi)
    · rw [PipeTable.setFd_ne he, PipeTable.setFd_ne he'] at *
      exact h.unique f g hf hg hpi hend

/-- A pipe as `pipe_create` sets it up. -/
def openPipe : Pipe := { zeroPipe with inUse := true, readOpen := true, writeOpen := true }

/-- The table with a new pipe, its read end and its write end. -/
def PipeTable.withPipe (t : PipeTable) (pi : Fin maxPipes) (r w : Fin maxPipeFds) : PipeTable :=
  ((t.setPipe pi openPipe).setFd r ⟨true, pi, false⟩).setFd w ⟨true, pi, true⟩

/-- `pipe_create` fails and leaves everything in use as it was, or sets up a pipe and two
descriptors for it that were not in use. -/
theorem pipeCreate_spec (t : PipeTable) :
    ((pipeCreate t).2 = none ∧ t.SameUsed (pipeCreate t).1) ∨
    ∃ pi r w, (t.pipes pi).inUse = false ∧ (t.pipeFds r).inUse = false ∧
      (t.pipeFds w).inUse = false ∧ r ≠ w ∧
      pipeCreate t = (t.withPipe pi r w, some (pipeFdOf r, pipeFdOf w)) := by
  unfold pipeCreate
  cases hpi : freePipe t with
  | none => exact .inl ⟨rfl, .refl t⟩
  | some pi =>
    have hunused := freePipe_some hpi
    have hfree {l : List (Fin maxPipeFds)}
        (hl : (List.finRange maxPipeFds).filter (fun i => (t.pipeFds i).inUse = false) = l) :
        ∀ x ∈ l, (t.pipeFds x).inUse = false := by
      intro x hx
      rw [← hl] at hx
      simpa using (List.mem_filter.mp hx).2
    dsimp only
    split
    · exact .inl ⟨rfl, (PipeTable.SameUsed.refl t).setPipe hunused rfl⟩
    case h_2 r hr =>
      have hrf := hfree hr r (List.mem_singleton_self r)
      exact .inl ⟨rfl, ((PipeTable.SameUsed.refl t).setPipe hunused rfl).setFd hrf rfl⟩
    case h_3 r w l hrw =>
      have hrf := hfree hrw r (by simp)
      have hwf := hfree hrw w (by simp)
      have hne : r ≠ w := by
        have hnodup := (List.nodup_finRange maxPipeFds).filter
          fun i => decide ((t.pipeFds i).inUse = false)
        rw [hrw] at hnodup
        rintro rfl
        simp at hnodup
      exact .inr ⟨pi, r, w, hunused, hrf, hwf, hne, rfl⟩

theorem PipeTable.EndsOk.withPipe {r w : Fin maxPipeFds} (h : t.EndsOk)
    (hunused : (t.pipes pi).inUse = false) : (t.withPipe pi r w).EndsOk := by
  have hpipe := h.setPipe (p := openPipe) hunused
  refine PipeTable.EndsOk.setFd (hpipe.setFd ?_ ?_ ?_) ?_ ?_ ?_
  · rw [PipeTable.setPipe_same]
    rfl
  · rw [PipeTable.setPipe_same]
    rfl
  · intro f _ hf hidx
    exact absurd hidx (h.pipeIdx_ne hunused hf)
  · rw [PipeTable.setFd_pipes, PipeTable.setPipe_same]
    rfl
  · rw [PipeTable.setFd_pipes, PipeTable.setPipe_same]
    rfl
  · intro f _ hf hidx
    by_cases hfr : f = r
    · rw [hfr, PipeTable.setFd_same]
      exact Bool.false_ne_true
    · rw [PipeTable.setFd_ne hfr, PipeTable.setPipe_pipeFds] at hf hidx
      exact absurd hidx (h.pipeIdx_ne hunused hf)

theorem withPipe_inUse {r w f : Fin maxPipeFds} : ((t.withPipe pi r w).pipeFds f).inUse = true ↔
    f = r ∨ f = w ∨ (t.pipeFds f).inUse = true := by
  unfold PipeTable.withPipe
  by_cases hfw : f = w
  · rw [hfw, PipeTable.setFd_same]
    exact iff_of_true rfl (.inr (.inl rfl))
  · rw [PipeTable.setFd_ne hfw]
    by_cases hfr : f = r
    · rw [hfr, PipeTable.setFd_same]
      exact iff_of_true rfl (.inl rfl)
    · rw [PipeTable.setFd_ne hfr, PipeTable.setPipe_pipeFds, or_iff_right hfr, or_iff_right hfw]

/-- `pipe_create` keeps the ends in order, and what is in use stays in use. -/
theorem pipeCreate_cases (h : t.EndsOk) :
    ((pipeCreate t).2 = none ∧ (pipeCreate t).1.EndsOk ∧
      ∀ f, (t.pipeFds f).inUse = true → ((pipeCreate t).1.pipeFds f).inUse = true) ∨
    ∃ r w, (pipeCreate t).2 = some (pipeFdOf r, pipeFdOf w) ∧ (pipeCreate t).1.EndsOk ∧
      ((pipeCreate t).1.pipeFds r).inUse = true ∧ ((pipeCreate t).1.pipeFds w).inUse = true ∧
      ∀ f, (t.pipeFds f).inUse = true → ((pipeCreate t).1.pipeFds f).inUse = true := by
  rcases pipeCreate_spec t with ⟨hnone, hsame⟩ | ⟨pi, r, w, hunused, -, -, -, heq⟩
  · refine .inl ⟨hnone, hsame.endsOk h, fun f hf => ?_⟩
    rwa [hsame.pipeFds]
  · rw [heq]
    exact .inr ⟨r, w, rfl, h.withPipe hunused, withPipe_inUse.mpr (.inl rfl),
      withPipe_inUse.mpr (.inr (.inl rfl)), fun f hf => withPipe_inUse.mpr (.inr (.inr hf))⟩

end Create

-- ---------------------------------------------------------------------------
-- Descriptors of processes
-- ---------------------------------------------------------------------------

/-- The entry refers to this end of pipe `pi`. -/
def Refers (t : PipeTable) (e : FdEntry) (pi : Fin maxPipes) (isWriteEnd : Bool) : Prop :=
  e.type = .pipe ∧ ∃ f, e.resource = pipeFdOf f ∧ (t.pipeFds f).pipeIdx = pi ∧
    (t.pipeFds f).isWriteEnd = isWriteEnd

/-- If the entry is one of a pipe, its pipe descriptor is in use. -/
def EntryOk (t : PipeTable) (e : FdEntry) : Prop :=
  e.type = .pipe → ∃ f, e.resource = pipeFdOf f ∧ (t.pipeFds f).inUse = true

section Entries

variable {t t' : PipeTable} {e e' : FdEntry}

theorem entryOk_of_type (h : e.type ≠ .pipe) : EntryOk t e := fun he => absurd he h

theorem EntryOk.mono (h : EntryOk t e)
    (hkeep : ∀ f, (t.pipeFds f).inUse = true → (t'.pipeFds f).inUse = true) : EntryOk t' e := by
  intro he
  obtain ⟨f, hf, huse⟩ := h he
  exact ⟨f, hf, hkeep f huse⟩

/-- What such an entry refers to is open. -/
theorem EntryOk.refers {pi : Fin maxPipes} {w : Bool} (h : EntryOk t e) (ht : t.EndsOk)
    (hr : Refers t e pi w) :
    (t.pipes pi).inUse = true ∧ (t.pipes pi).endOpen w = true := by
  obtain ⟨htype, f, hf, rfl, rfl⟩ := hr
  obtain ⟨g, hg, huse⟩ := h htype
  obtain rfl : f = g := pipeFdOf_inj (hf.symm.trans hg)
  exact ⟨ht.pipe f huse, ht.isOpen f huse⟩

/-- The two entries are of one pipe descriptor. -/
def SharesPipe (e e' : FdEntry) : Prop :=
  e.type = .pipe ∧ e'.type = .pipe ∧ e.resource = e'.resource

theorem closeResource_endsOk (ht : t.EndsOk) (e : FdEntry) : (closeResource t e).EndsOk := by
  unfold closeResource
  split
  · exact pipeClose_endsOk ht _
  · exact ht

theorem EntryOk.closeResource (h : EntryOk t e) (hne : ¬ SharesPipe e e') :
    EntryOk (closeResource t e') e := by
  unfold Lestra.closeResource
  split
  case h_1 he' =>
    intro he
    obtain ⟨f, hf, huse⟩ := h he
    refine ⟨f, hf, pipeClose_inUse.mpr ⟨huse, fun hres => hne ⟨he, he', hf.trans hres⟩⟩⟩
  case h_2 => exact h

theorem foldl_closeResource {fds : FdTable} (ds : List (Fin maxFdPerProc)) (ht : t.EndsOk) :
    (ds.foldl (fun t d => closeResource t (fds d)) t).EndsOk ∧
      ∀ e, EntryOk t e → (∀ d, ¬ SharesPipe e (fds d)) →
        EntryOk (ds.foldl (fun t d => closeResource t (fds d)) t) e := by
  induction ds generalizing t with
  | nil => exact ⟨ht, fun e he _ => he⟩
  | cons d ds ih =>
    obtain ⟨hends, hkeep⟩ := ih (closeResource_endsOk ht (fds d))
    exact ⟨hends, fun e he hne => hkeep e (he.closeResource (hne d)) hne⟩

theorem fdTableCloseAll_endsOk (ht : t.EndsOk) (fds : FdTable) :
    (fdTableCloseAll t fds).1.EndsOk := (foldl_closeResource _ ht).1

/-- `fd_table_close_all` keeps the entries of others that share nothing with the table. -/
theorem EntryOk.closeAll {fds : FdTable} (h : EntryOk t e) (ht : t.EndsOk)
    (hne : ∀ d, ¬ SharesPipe e (fds d)) : EntryOk (fdTableCloseAll t fds).1 e :=
  (foldl_closeResource _ ht).2 e h hne

theorem fdTableCloseAll_unused (t : PipeTable) (fds : FdTable) (d : Fin maxFdPerProc) :
    ((fdTableCloseAll t fds).2 d).type = .unused := by
  show (if (fds d).type = .unused then fds d else fdUnused).type = .unused
  split
  case isTrue h => exact h
  case isFalse => rfl

end Entries

end Lestra
