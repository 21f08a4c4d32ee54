import Mathlib.Algebra.GroupWithZero.Nat
import Mathlib.Algebra.Order.BigOperators.Group.List
import Mathlib.Algebra.Order.Group.Nat
import Lestra.Fs.Nodes

/-!
# Paths below a chroot

What the string work of `memfs_resolve_path` in `kernel/fs/vfs.c` comes to for a process
in a `chroot`: the components that are walked are those of its root, as normalised
once, and then others without `.` and `..` (`memfsResolvePath_jailed`).
-/

namespace Lestra

/-- A component as the resolver reads it, and not one of `.` and `..`. -/
structure PlainComp (c : List UInt8) : Prop where
  ne_nil : c ≠ []
  no_slash : slash ∉ c
  short : c.length ≤ maxNameLen - 1
  not_dot : c ≠ [dot]
  not_dotdot : c ≠ [dot, dot]

/-- The space that components take in `eff_path`, each with the slash behind it. -/
def compsSize (comps : List (List UInt8)) : Nat := (comps.map fun c => c.length + 1).sum

-- ---------------------------------------------------------------------------
-- Splitting into components
-- ---------------------------------------------------------------------------

theorem compsFrom_append_slash (comp p q : List UInt8) :
    compsFrom comp (p ++ slash :: q) = compsFrom comp p ++ compsFrom [] q := by
  induction p generalizing comp with
  | nil => rfl
  | cons c p ih =>
    rw [List.cons_append, compsFrom, compsFrom]
    split
    · rw [ih, List.append_assoc]
    · split
      · rw [ih, List.cons_append]
      · exact ih _

theorem compsFrom_short {comp p : List UInt8} (hslash : slash ∉ p)
    (hlen : (comp ++ p).length ≤ maxNameLen - 1) : compsFrom comp p = flushComp (comp ++ p) := by
  induction p generalizing comp with
  | nil => rw [compsFrom, List.append_nil]
  | cons c p ih =>
    rw [List.length_append, List.length_cons] at hlen
    rw [List.mem_cons, not_or] at hslash
    rw [compsFrom, if_neg (Ne.symm hslash.1), if_neg (by omega), ih hslash.2 (by simp; omega),
      List.append_assoc, List.singleton_append]

/-- A component is read as itself. -/
theorem pathComps_comp {c : List UInt8} (hnil : c ≠ []) (hslash : slash ∉ c)
    (hlen : c.length ≤ maxNameLen - 1) : pathComps c = [c] := by
  rw [pathComps, compsFrom_short hslash (by simpa using hlen), List.nil_append, flushComp,
    if_neg hnil]

theorem compsFrom_mem {comp p c : List UInt8} (hcomp : slash ∉ comp)
    (hlen : comp.length ≤ maxNameLen - 1) (hc : c ∈ compsFrom comp p) :
    c ≠ [] ∧ slash ∉ c ∧ c.length ≤ maxNameLen - 1 := by
  have flush : c ∈ flushComp comp → c ≠ [] ∧ slash ∉ c ∧ c.length ≤ maxNameLen - 1 := by
    intro h
    unfold flushComp at h
    split at h
    · exact absurd h (List.not_mem_nil)
    · rename_i hne
      obtain rfl := List.mem_singleton.mp h
      exact ⟨hne, hcomp, hlen⟩
  induction p generalizing comp with
  | nil => exact flush hc
  | cons x p ih =>
    rw [compsFrom] at hc
    split at hc
    · rcases List.mem_append.mp hc with h | h
      · exact flush h
      · exact ih (List.not_mem_nil) (Nat.zero_le _) h fun hf => by simp [flushComp] at hf
    · rename_i hx
      have hone : slash ∉ [x] := by simpa using Ne.symm hx
      split at hc
      · rename_i hfull
        rcases List.mem_cons.mp hc with rfl | h
        · refine ⟨?_, hcomp, hlen⟩
          rintro rfl
          simp [maxNameLen] at hfull
        · refine ih hone (by simp [maxNameLen]) h fun hf => ?_
          simp only [flushComp, List.cons_ne_nil, if_false, List.mem_singleton] at hf
          rw [hf]
          exact ⟨by simp, hone, by simp [maxNameLen]⟩
      · rename_i hroom
        have hnext : slash ∉ comp ++ [x] := by simpa using ⟨hcomp, Ne.symm hx⟩
        have hnextLen : (comp ++ [x]).length ≤ maxNameLen - 1 := by
          simp only [List.length_append, List.length_singleton]
          omega
        refine ih hnext hnextLen hc fun hf => ?_
        simp only [flushComp, List.append_eq_nil_iff, List.cons_ne_nil, and_false, if_false,
          List.mem_singleton] at hf
        rw [hf]
        exact ⟨by simp, hnext, hnextLen⟩

theorem pathComps_mem {p c : List UInt8} (hc : c ∈ pathComps p) :
    c ≠ [] ∧ slash ∉ c ∧ c.length ≤ maxNameLen - 1 :=
  compsFrom_mem (List.not_mem_nil) (Nat.zero_le _) hc

-- ---------------------------------------------------------------------------
-- The stack
-- ---------------------------------------------------------------------------

/-- The components that every path below the root begins with. -/
def rootComps (root : Path) : List (List UInt8) :=
  (pathComps root).foldl (pushComp (rootDepth root)) []

theorem pushComp_plain {depth : Nat} {stack : List (List UInt8)} {tok : List UInt8}
    (hstack : ∀ c ∈ stack, PlainComp c)
    (htok : tok ≠ [] ∧ slash ∉ tok ∧ tok.length ≤ maxNameLen - 1) :
    ∀ c ∈ pushComp depth stack tok, PlainComp c := by
  unfold pushComp
  split_ifs with hdot hdd hdepth hroom
  · exact hstack
  · exact fun c hc => hstack c (List.dropLast_subset stack hc)
  · exact hstack
  · intro c hc
    rcases List.mem_append.mp hc with h | h
    · exact hstack c h
    · rw [List.mem_singleton.mp h]
      exact ⟨htok.1, htok.2.1, htok.2.2, hdot, hdd⟩
  · exact hstack

theorem foldl_pushComp_plain {depth : Nat} :
    ∀ (toks stack : List (List UInt8)), (∀ c ∈ stack, PlainComp c) →
      (∀ t ∈ toks, t ≠ [] ∧ slash ∉ t ∧ t.length ≤ maxNameLen - 1) →
      ∀ c ∈ toks.foldl (pushComp depth) stack, PlainComp c
  | [], _, hstack, _ => hstack
  | t :: toks, stack, hstack, htoks =>
    foldl_pushComp_plain toks (pushComp depth stack t)
      (pushComp_plain hstack (htoks t List.mem_cons_self))
      fun t' ht' => htoks t' (List.mem_cons_of_mem _ ht')

/-- `..` never takes a component away that lies at most as deep as the root. -/
theorem foldl_pushComp_prefix {depth : Nat} {base : List (List UInt8)}
    (hbase : base.length ≤ depth) :
    ∀ (toks extra : List (List UInt8)),
      base <+: toks.foldl (pushComp depth) (base ++ extra)
  | [], extra => List.prefix_append base extra
  | t :: toks, extra => by
    have hpush : ∃ extra', pushComp depth (base ++ extra) t = base ++ extra' := by
      unfold pushComp
      split_ifs with hdot hdd hdepth hroom
      · exact ⟨extra, rfl⟩
      · refine ⟨extra.dropLast, List.dropLast_append_of_ne_nil ?_⟩
        rintro rfl
        simp only [List.append_nil] at hdepth
        omega
      · exact ⟨extra, rfl⟩
      · exact ⟨extra ++ [t], List.append_assoc ..⟩
      · exact ⟨extra, rfl⟩
    obtain ⟨extra', hextra⟩ := hpush
    rw [List.foldl_cons, hextra]
    exact foldl_pushComp_prefix hbase toks extra'

theorem rootComps_plain {root : Path} {c : List UInt8} (hc : c ∈ rootComps root) :
    PlainComp c :=
  foldl_pushComp_plain _ _ (fun _ h => absurd h (List.not_mem_nil))
    (fun _ ht => pathComps_mem ht) c hc

-- ---------------------------------------------------------------------------
-- The size of the root
-- ---------------------------------------------------------------------------

/-- The characters of components. -/
def compsChars (comps : List (List UInt8)) : Nat := (comps.map List.length).sum

theorem compsSize_eq (comps : List (List UInt8)) :
    compsSize comps = compsChars comps + comps.length := by
  induction comps with
  | nil => rfl
  | cons c comps ih =>
    simp only [compsSize, compsChars, List.map_cons, List.sum_cons, List.length_cons] at ih ⊢
    omega

theorem compsChars_compsFrom (comp p : List UInt8) :
    compsChars (compsFrom comp p) = comp.length + p.countP (· ≠ slash) := by
  have flush : ∀ c, compsChars (flushComp c) = c.length := by
    intro c
    unfold flushComp
    split
    · rename_i h
      rw [h]
      rfl
    · simp [compsChars]
  induction p generalizing comp with
  | nil => simpa [compsFrom] using flush comp
  | cons x p ih =>
    rw [compsFrom]
    split
    · rename_i hx
      have := ih []
      simp only [compsChars, List.map_append, List.sum_append] at this flush ⊢
      rw [this, flush]
      simp [hx]
    · rename_i hx
      rw [List.countP_cons_of_pos (by simpa using hx)]
      split
      · have := ih [x]
        simp only [compsChars, List.map_cons, List.sum_cons, List.length_singleton] at this ⊢
        omega
      · rw [ih]
        simp only [List.length_append, List.length_singleton]
        omega

theorem compsChars_foldl_le (depth : Nat) :
    ∀ toks stack : List (List UInt8),
      compsChars (toks.foldl (pushComp depth) stack) ≤ compsChars stack + compsChars toks
  | [], stack => Nat.le_add_right ..
  | t :: toks, stack => by
    have hpush : compsChars (pushComp depth stack t) ≤ compsChars stack + t.length := by
      have hdrop : compsChars stack.dropLast ≤ compsChars stack :=
        ((List.dropLast_sublist stack).map _).sum_le_sum fun _ _ => Nat.zero_le _
      unfold pushComp
      split_ifs
      · omega
      · omega
      · omega
      · simp [compsChars]
      · omega
    have := compsChars_foldl_le depth toks (pushComp depth stack t)
    rw [List.foldl_cons]
    simp only [compsChars, List.map_cons, List.sum_cons] at *
    omega

theorem rootDepth_le (root : Path) : rootDepth root ≤ root.countP (· = slash) + 1 := by
  refine (List.length_filter_le _ _).trans ?_
  induction root with
  | nil => simp
  | cons x p ih =>
    rw [List.splitOn_cons_eq_if_modifyHead]
    by_cases hx : x = slash
    · simp only [hx, beq_self_eq_true, if_true, List.length_cons, List.countP_cons]
      simp only [decide_true, if_true]
      omega
    · simp only [beq_iff_eq, hx, if_false, List.length_modifyHead]
      rw [List.countP_cons_of_neg (by simpa using hx)]
      exact ih

/-- The components of the root fit into `eff_path` where the root is not longer than a
path. -/
theorem compsSize_rootComps {root : Path} (hdepth : (rootComps root).length ≤ rootDepth root) :
    compsSize (rootComps root) ≤ root.length + 1 := by
  have hchars := compsChars_foldl_le (rootDepth root) (pathComps root) []
  have hpath := compsChars_compsFrom [] root
  have hslashes := rootDepth_le root
  have hsplit : root.length = root.countP (· = slash) + root.countP (· ≠ slash) := by
    have := List.length_eq_countP_add_countP (fun a => decide (a = slash)) (l := root)
    simpa using this
  rw [compsSize_eq]
  change compsChars (rootComps root) ≤ _ at hchars
  change compsChars (pathComps root) = _ at hpath
  simp only [compsChars, List.map_nil, List.sum_nil, List.length_nil, Nat.zero_add] at *
  omega

-- ---------------------------------------------------------------------------
-- The path that is walked
-- ---------------------------------------------------------------------------

theorem effPath_cons_cons (acc : Path) (c d : List UInt8) (stack : List (List UInt8)) :
    effPath acc (c :: d :: stack) =
      if maxPathLen ≤ acc.length + c.length then acc
      else if maxPathLen ≤ acc.length + c.length + 1 then acc ++ c
      else effPath (acc ++ c ++ [slash]) (d :: stack) :=
  rfl

/-- `eff_path` is its first components, as many as fit. -/
theorem effPath_comps :
    ∀ (stack : List (List UInt8)) (acc : Path), (∀ c ∈ stack, PlainComp c) →
      ∃ k t, effPath acc stack = acc ++ t ∧ pathComps t = stack.take k ∧
        ∀ b, b ≤ stack.length → acc.length + compsSize (stack.take b) ≤ maxPathLen → b ≤ k
  | [], acc, _ => ⟨0, [], by simp [effPath], rfl, fun b hb _ => hb⟩
  | [c], acc, hplain => by
    have hc := hplain c List.mem_cons_self
    have hone : ∀ b, b ≤ [c].length → 0 < b → [c].take b = [c] := fun b hb hpos => by
      rw [List.take_of_length_le (by simp only [List.length_singleton]; omega)]
    rw [effPath]
    by_cases hfull : maxPathLen ≤ acc.length + c.length
    · refine ⟨0, [], by rw [if_pos hfull, List.append_nil], rfl, fun b hb hsize => ?_⟩
      by_contra hpos
      rw [hone b hb (by omega)] at hsize
      simp [compsSize] at hsize
      omega
    · refine ⟨1, c, if_neg hfull, pathComps_comp hc.ne_nil hc.no_slash hc.short, ?_⟩
      exact fun b hb _ => hb
  | c :: d :: stack, acc, hplain => by
    have hc := hplain c List.mem_cons_self
    have hsize : ∀ b, 0 < b → compsSize ((c :: d :: stack).take b)
        = c.length + 1 + compsSize ((d :: stack).take (b - 1)) := by
      intro b hpos
      obtain ⟨b, rfl⟩ := Nat.exists_eq_succ_of_ne_zero hpos.ne'
      simp [compsSize]
    rw [effPath_cons_cons]
    by_cases hfull : maxPathLen ≤ acc.length + c.length
    · refine ⟨0, [], by rw [if_pos hfull, List.append_nil], rfl, fun b hb hle => ?_⟩
      by_contra hpos
      rw [hsize b (by omega)] at hle
      omega
    rw [if_neg hfull]
    by_cases hslash : maxPathLen ≤ acc.length + c.length + 1
    · refine ⟨1, c, if_pos hslash, pathComps_comp hc.ne_nil hc.no_slash hc.short,
        fun b hb hle => ?_⟩
      by_contra hgt
      rw [hsize b (by omega)] at hle
      obtain ⟨b, rfl⟩ : ∃ b', b = b' + 2 := ⟨b - 2, by omega⟩
      have hd : compsSize ((d :: stack).take (b + 1)) = d.length + 1 + compsSize (stack.take b) := by
        simp [compsSize]
      rw [show b + 2 - 1 = b + 1 from rfl, hd] at hle
      omega
    · obtain ⟨k, t, heq, hcomps, hfit⟩ := effPath_comps (d :: stack) (acc ++ c ++ [slash])
        fun x hx => hplain x (List.mem_cons_of_mem _ hx)
      refine ⟨k + 1, c ++ slash :: t, ?_, ?_, fun b hb hle => ?_⟩
      · rw [if_neg hslash, heq]
        simp
      · rw [pathComps, compsFrom_append_slash]
        change pathComps c ++ pathComps t = _
        rw [pathComps_comp hc.ne_nil hc.no_slash hc.short, hcomps]
        rfl
      · rcases Nat.eq_zero_or_pos b with rfl | hpos
        · omega
        · rw [hsize b hpos] at hle
          have := hfit (b - 1) (by simp at hb ⊢; omega) (by simp; omega)
          omega

theorem pathComps_combined {root path : Path} (hpath : path.Absolute) :
    pathComps (combinedPath root path) = pathComps root ++ pathComps path.tail := by
  obtain ⟨rest, rfl⟩ : ∃ rest, path = slash :: rest := by
    cases path with
    | nil => exact absurd hpath (by simp [Path.Absolute])
    | cons c rest => exact ⟨rest, by rw [Option.some.inj hpath]⟩
  unfold combinedPath
  split
  · rename_i hlast
    have hroot : root = root.dropLast ++ [slash] :=
      (List.dropLast_append_getLast? slash hlast).symm
    rw [pathComps, compsFrom_append_slash, List.tail_cons]
    conv_rhs => rw [hroot, pathComps, compsFrom_append_slash]
    simp [pathComps, compsFrom, flushComp]
  · rw [pathComps, compsFrom_append_slash, List.tail_cons]
    rfl

/-- The process has a root other than that of memfs. -/
def jailedRoot (root : Path) : Prop := root ≠ [] ∧ root ≠ [slash]

instance (root : Path) : Decidable (jailedRoot root) := inferInstanceAs (Decidable (_ ∧ _))

/-- **What a process in a chroot walks:** the components of its root, where the source
counts no fewer of them than there are, and then plain components. -/
theorem memfsResolvePath_jailed {files : MemFiles} {root path : Path} {i : Fin maxFiles}
    (hjail : jailedRoot root) (hdepth : (rootComps root).length ≤ rootDepth root)
    (h : memfsResolvePath files root path = some i) :
    ∃ rest : List (List UInt8), (∀ c ∈ rest, PlainComp c) ∧
      (rootComps root ++ rest).foldlM (resolveComp files) rootIdx = some i := by
  unfold memfsResolvePath at h
  split at h
  · exact absurd h (by simp)
  rename_i habs
  rw [if_neg (not_or.mpr hjail)] at h
  split at h
  · exact absurd h (by simp)
  rename_i hlen
  have hpath : path.Absolute := not_not.mp habs
  have hpos : 0 < path.length := by
    cases path with
    | nil => exact absurd hpath (by simp [Path.Absolute])
    | cons c rest => exact Nat.succ_pos _
  set stack := (pathComps (combinedPath root path)).foldl (pushComp (rootDepth root)) []
    with hstack
  have hplain : ∀ c ∈ stack, PlainComp c :=
    foldl_pushComp_plain _ _ (fun _ hm => absurd hm (List.not_mem_nil))
      fun _ ht => pathComps_mem ht
  have hbase : rootComps root <+: stack := by
    rw [hstack, pathComps_combined hpath, List.foldl_append]
    have := foldl_pushComp_prefix hdepth (pathComps path.tail) []
    rwa [List.append_nil] at this
  obtain ⟨k, t, heq, hcomps, hfit⟩ := effPath_comps stack [slash] hplain
  rw [memfsResolvePathRaw, heq, if_neg (by simp [Path.Absolute])] at h
  rw [show ([slash] ++ t : Path).tail = t from rfl, hcomps] at h
  have hk : (rootComps root).length ≤ k := by
    refine hfit _ hbase.length_le ?_
    rw [← List.prefix_iff_eq_take.mp hbase, List.length_singleton]
    have := compsSize_rootComps hdepth
    omega
  have htake : rootComps root <+: stack.take k := by
    rw [List.prefix_iff_eq_take.mp hbase]
    exact List.take_prefix_take_left hk
  obtain ⟨rest, hrest⟩ := htake
  refine ⟨rest, fun c hc => hplain c (List.mem_of_mem_take (hrest ▸ List.mem_append_right _ hc)), ?_⟩
  rw [hrest]
  exact h

end Lestra
