import Mathlib.Algebra.Group.Int.Defs
import Mathlib.Algebra.GroupWithZero.Nat
import Mathlib.Data.List.Forall2
import Lestra.Syscall.Argvec

/-!
# The arguments of execve

What `sys_execve` makes of `argv` and `envp`: strings in one buffer, as the user wrote them,
when no string is longer than `LESTRA_PATH_MAX`.
-/

namespace Lestra

open ByteMem Word64 Packed

variable {mem : BitVec 64 → UInt8} {vec p : BitVec 64} {ps qs : List (BitVec 64)} {kmem kmem' : Mem}
  {k n sz off : ℕ} {kPtrs : List ℕ} {s : List UInt8} {ss : List (List UInt8)}

-- ---------------------------------------------------------------------------
-- Measuring strings
-- ---------------------------------------------------------------------------

theorem ofNat_succ_add (p : BitVec 64) (i : ℕ) :
    p + BitVec.ofNat 64 (i + 1) = p + 1#64 + BitVec.ofNat 64 i := by
  rw [BitVec.ofNat_add, BitVec.add_comm (BitVec.ofNat 64 i), BitVec.add_assoc]

theorem userBytes_succ (mem : BitVec 64 → UInt8) (p : BitVec 64) (n : ℕ) :
    userBytes mem p (n + 1) = mem p :: userBytes mem (p + 1#64) n := by
  rw [userBytes, List.range_succ_eq_map, List.map_cons, List.map_map, userBytes]
  congr 1
  · simp
  · refine List.map_congr_left fun i _ => ?_
    rw [Function.comp, Nat.succ_eq_add_one, ofNat_succ_add]

/-- A string of at most `n` bytes is measured and copied with its terminator. -/
theorem userBytes_string (h : ∃ i ≤ n, mem (p + BitVec.ofNat 64 i) = 0) :
    ∃ s, UserString mem p s ∧ userBytes mem p (strnlenLoop mem n p + 1) = s ++ [0] := by
  induction n generalizing p with
  | zero =>
    obtain ⟨i, hi, h0⟩ := h
    obtain rfl := Nat.le_zero.mp hi
    have h0 : mem p = 0 := by simpa using h0
    exact ⟨[], h0, by rw [strnlenLoop, userBytes_succ, h0]; rfl⟩
  | succ n ih =>
    by_cases h0 : mem p = 0
    · exact ⟨[], h0, by rw [strnlenLoop, if_pos h0, userBytes_succ, h0]; rfl⟩
    · obtain ⟨i, hi, hmem⟩ := h
      cases i with
      | zero => exact absurd (by simpa using hmem) h0
      | succ i =>
        rw [ofNat_succ_add] at hmem
        obtain ⟨s, hs, heq⟩ := ih ⟨i, Nat.le_of_succ_le_succ hi, hmem⟩
        refine ⟨mem p :: s, ⟨h0, rfl, hs⟩, ?_⟩
        rw [strnlenLoop, if_neg h0, userBytes_succ, heq, List.cons_append]

theorem UserString.zero_notMem (h : UserString mem p s) : (0 : UInt8) ∉ s := by
  induction s generalizing p with
  | nil => simp
  | cons c s ih =>
    rw [List.mem_cons, not_or]
    exact ⟨h.1.symm, ih h.2.2⟩

theorem UserString.unique {t : List UInt8} (h : UserString mem p s) (h' : UserString mem p t) :
    s = t := by
  induction s generalizing p t with
  | nil =>
    cases t with
    | nil => rfl
    | cons d t =>
      have h0 : mem p = 0 := h
      exact absurd (h'.2.1.symm.trans h0) h'.1
  | cons c s ih =>
    cases t with
    | nil =>
      have h0 : mem p = 0 := h'
      exact absurd (h.2.1.symm.trans h0) h.1
    | cons d t => rw [← h.2.1, ← h'.2.1, ih h.2.2 h'.2.2]

theorem userStrings_zero (h : List.Forall₂ (UserString mem) ps ss) : ∀ s ∈ ss, (0 : UInt8) ∉ s := by
  induction h with
  | nil => simp
  | cons hs _ ih => exact List.forall_mem_cons.mpr ⟨hs.zero_notMem, ih⟩

/-- `strlen` of a terminated string. -/
theorem strlenLoop_string (hload : load kmem k (s.length + 1) = s ++ [0]) (h0 : (0 : UInt8) ∉ s)
    (hn : s.length < n) : strlenLoop kmem n k = some s.length := by
  induction s generalizing k n with
  | nil =>
    obtain ⟨n, rfl⟩ := Nat.exists_eq_succ_of_ne_zero (by omega : n ≠ 0)
    have hk : kmem k = 0 := by simpa [load] using hload
    rw [strlenLoop, if_pos hk]
    rfl
  | cons c s ih =>
    obtain ⟨n, rfl⟩ := Nat.exists_eq_succ_of_ne_zero (by omega : n ≠ 0)
    rw [List.length_cons, Nat.add_comm (s.length + 1), load_append] at hload
    obtain ⟨hc, hload⟩ : load kmem k 1 = [c] ∧ load kmem (k + 1) (s.length + 1) = s ++ [0] :=
      List.append_inj hload rfl
    have hk : kmem k = c := by simpa [load] using hc
    rw [List.mem_cons, not_or] at h0
    rw [strlenLoop, hk, if_neg (Ne.symm h0.1), ih hload h0.2 (Nat.lt_of_succ_lt_succ hn)]
    rfl

-- ---------------------------------------------------------------------------
-- The law
-- ---------------------------------------------------------------------------

/-- The string `s` with its terminator lies at `k`, inside `k_strings`. -/
def KString (kmem : Mem) (k : ℕ) (s : List UInt8) : Prop :=
  load kmem k (s.length + 1) = s ++ [0] ∧ k + s.length + 1 ≤ argBytesMax

/-- Two strings with their terminators share no byte. -/
def Apart (x y : ℕ × List UInt8) : Prop :=
  x.1 + x.2.length + 1 ≤ y.1 ∨ y.1 + y.2.length + 1 ≤ x.1

/-- The pointers of a vector; a null vector has none. -/
def PassedVec (mem : BitVec 64 → UInt8) (vec : BitVec 64) (ps : List (BitVec 64)) : Prop :=
  if vec = 0#64 then ps = [] else UserVec mem vec ps

/-- The strings of a vector. -/
def PassedStrings (mem : BitVec 64 → UInt8) (vec : BitVec 64) (ss : List (List UInt8)) : Prop :=
  ∃ ps, PassedVec mem vec ps ∧ List.Forall₂ (UserString mem) ps ss

/-- What the loaders find is what the user passed. -/
structure ArgsCopied (mem : BitVec 64 → UInt8) (argv envp : BitVec 64) (kmem : Mem)
    (a : ExecArgs) (args envs : List (List UInt8)) : Prop where
  argv : PassedStrings mem argv args
  envp : PassedStrings mem envp envs
  kArgv : List.Forall₂ (KString a.kmem) a.kArgv args
  kEnvp : List.Forall₂ (KString a.kmem) a.kEnvp envs
  apart : ((a.kArgv ++ a.kEnvp).zip (args ++ envs)).Pairwise Apart
  frame : ∀ x, argBytesMax ≤ x → a.kmem x = kmem x

/-- No NULL among the first pointers. -/
def TooMany (mem : BitVec 64 → UInt8) (vec : BitVec 64) : Prop :=
  vec ≠ 0#64 ∧ ∀ i ≤ argMax, userPtr mem (vec + BitVec.ofNat 64 (8 * i)) ≠ 0#64

/-- No terminator among the first bytes. -/
def Overlong (mem : BitVec 64 → UInt8) (p : BitVec 64) : Prop :=
  ∀ i ≤ argPathMax, mem (p + BitVec.ofNat 64 i) ≠ 0

def TooLong (mem : BitVec 64 → UInt8) (vec : BitVec 64) : Prop :=
  ∃ ps, PassedVec mem vec ps ∧ ∃ p ∈ ps, Overlong mem p

def TooMuch (mem : BitVec 64 → UInt8) (argv envp : BitVec 64) : Prop :=
  ∃ args envs, PassedStrings mem argv args ∧ PassedStrings mem envp envs ∧
    argBytesMax < ((args ++ envs).map fun s => s.length + 1).sum

/-- Some string, count or total is above its limit. -/
def ExceedsLimit (mem : BitVec 64 → UInt8) (argv envp : BitVec 64) : Prop :=
  (TooMany mem argv ∨ TooMany mem envp) ∨ (TooLong mem argv ∨ TooLong mem envp) ∨
    TooMuch mem argv envp

structure ExecArgsLaw (mem : BitVec 64 → UInt8) (argv envp : BitVec 64) (kmem : Mem) : Prop where
  copied : ∀ a, execArgs mem argv envp kmem = some (.ok a) →
    ∃ args envs, ArgsCopied mem argv envp kmem a args envs
  limits : ExceedsLimit mem argv envp → ∃ e < 0, execArgs mem argv envp kmem = some (.error e)

-- ---------------------------------------------------------------------------
-- When the copies are refused
-- ---------------------------------------------------------------------------

/-- The pointers of a vector that passes the checks. -/
def VecTaken (mem : BitVec 64 → UInt8) (vec : BitVec 64) (ps : List (BitVec 64)) : Prop :=
  if vec = 0#64 then ps = [] else VecPasses mem vec argMax argBytesMax ps

/-- The buffer with the strings of `ps` at its start. -/
def packed (mem : BitVec 64 → UInt8) (kmem : Mem) (ps : List (BitVec 64)) : Mem :=
  store kmem 0 (ps.map (measured mem)).flatten

/-- `argv` fails a check, or `envp` does with the room that is left by what `strlen` says of
the copied strings. -/
def Refused (mem : BitVec 64 → UInt8) (argv envp : BitVec 64) (kmem : Mem) : Prop :=
  (∀ ps, ¬ VecTaken mem argv ps) ∨
    envp ≠ 0#64 ∧ ∃ ps off, VecTaken mem argv ps ∧
      envOff (packed mem kmem ps) (starts 0 (ps.map (measured mem))) 0 = some off ∧
      ∀ qs, ¬ VecPasses mem envp argMax (sub argBytesMax off) qs

theorem copyArgvecFromUser_eq_ok :
    copyArgvecFromUser mem vec kmem k sz = .ok (kmem', kPtrs) ↔
      ∃ ps, VecPasses mem vec argMax sz ps ∧
        kmem' = store kmem k (ps.map (measured mem)).flatten ∧
        kPtrs = starts k (ps.map (measured mem)) := by
  rw [copyArgvecFromUser, copyArgvecLoop_eq_ok (Nat.zero_le sz)]
  simp only [Nat.zero_add, Nat.add_zero]
  constructor
  · rintro ⟨ps, hvec, hlen, hread, hroom, hmem, hptrs⟩
    exact ⟨ps, ⟨hvec, hlen, hread, hroom⟩, hmem, hptrs⟩
  · rintro ⟨ps, hps, hmem, hptrs⟩
    exact ⟨ps, hps.vec, hps.few, hps.readable, hps.room, hmem, hptrs⟩

theorem copyArgvecFromUser_error {e : Int} (h : copyArgvecFromUser mem vec kmem k sz = .error e) :
    e < 0 ∧ ∀ ps, ¬ VecPasses mem vec argMax sz ps := by
  refine ⟨copyArgvecLoop_error h, fun ps hps => ?_⟩
  have hok : copyArgvecFromUser mem vec kmem k sz = .ok _ :=
    copyArgvecFromUser_eq_ok.mpr ⟨ps, hps, rfl, rfl⟩
  rw [h] at hok
  cases hok

theorem copyArgv_cases (mem : BitVec 64 → UInt8) (argv : BitVec 64) (kmem : Mem) :
    (∃ e < 0, copyArgv mem argv kmem = .error e ∧ ∀ ps, ¬ VecTaken mem argv ps) ∨
      ∃ ps, VecTaken mem argv ps ∧ copyArgv mem argv kmem =
        .ok (packed mem kmem ps, starts 0 (ps.map (measured mem))) := by
  unfold copyArgv VecTaken
  by_cases h0 : argv = 0#64
  · simp only [if_pos h0]
    exact .inr ⟨[], rfl, by simp [packed]⟩
  · simp only [if_neg h0]
    cases hcopy : copyArgvecFromUser mem argv kmem 0 argBytesMax with
    | error e =>
      obtain ⟨he, hno⟩ := copyArgvecFromUser_error hcopy
      exact .inl ⟨e, he, rfl, hno⟩
    | ok r =>
      obtain ⟨ps, hps, hmem, hptrs⟩ := copyArgvecFromUser_eq_ok.mp hcopy
      exact .inr ⟨ps, hps, congrArg _ (Prod.ext hmem hptrs)⟩

theorem VecTaken.unique (h : VecTaken mem vec ps) (h' : VecTaken mem vec qs) : ps = qs := by
  unfold VecTaken at h h'
  split at h
  case isTrue h0 =>
    rw [if_pos h0] at h'
    rw [h, h']
  case isFalse h0 =>
    rw [if_neg h0] at h'
    exact h.vec.unique h'.vec

/-- The ways `sys_execve` can pack the arguments. -/
theorem execArgs_cases (mem : BitVec 64 → UInt8) (argv envp : BitVec 64) (kmem : Mem) :
    (Refused mem argv envp kmem ∧ ∃ e < 0, execArgs mem argv envp kmem = some (.error e)) ∨
    ∃ ps, VecTaken mem argv ps ∧
      (envp = 0#64 ∧ execArgs mem argv envp kmem =
          some (.ok ⟨packed mem kmem ps, starts 0 (ps.map (measured mem)), []⟩) ∨
        envp ≠ 0#64 ∧ envOff (packed mem kmem ps) (starts 0 (ps.map (measured mem))) 0 = none ∧
          execArgs mem argv envp kmem = none ∨
        envp ≠ 0#64 ∧ ∃ off qs,
          envOff (packed mem kmem ps) (starts 0 (ps.map (measured mem))) 0 = some off ∧
          VecPasses mem envp argMax (sub argBytesMax off) qs ∧
          execArgs mem argv envp kmem = some (.ok
            ⟨store (packed mem kmem ps) off (qs.map (measured mem)).flatten,
              starts 0 (ps.map (measured mem)), starts off (qs.map (measured mem))⟩)) := by
  unfold execArgs
  rcases copyArgv_cases mem argv kmem with ⟨e, he, hcopy, hno⟩ | ⟨ps, hps, hcopy⟩ <;>
    simp only [hcopy]
  · exact .inl ⟨.inl hno, e, he, rfl⟩
  by_cases h0 : envp = 0#64
  · exact .inr ⟨ps, hps, .inl ⟨h0, if_pos h0⟩⟩
  rw [if_neg h0]
  cases hoff : envOff (packed mem kmem ps) (starts 0 (ps.map (measured mem))) 0 with
  | none => exact .inr ⟨ps, hps, .inr (.inl ⟨h0, hoff, rfl⟩)⟩
  | some off =>
    rw [Option.map_some]
    cases henv : copyArgvecFromUser mem envp (packed mem kmem ps) off (sub argBytesMax off) with
    | error e =>
      obtain ⟨he, hno⟩ := copyArgvecFromUser_error henv
      exact .inl ⟨.inr ⟨h0, ps, off, hps, hoff, hno⟩, e, he, rfl⟩
    | ok r =>
      obtain ⟨kmem₁, kEnvp⟩ := r
      obtain ⟨qs, hqs, rfl, rfl⟩ := copyArgvecFromUser_eq_ok.mp henv
      exact .inr ⟨ps, hps, .inr (.inr ⟨h0, off, qs, hoff, hqs, rfl⟩)⟩

theorem execArgs_refused {argv envp : BitVec 64} :
    Refused mem argv envp kmem ↔ ∃ e < 0, execArgs mem argv envp kmem = some (.error e) := by
  rcases execArgs_cases mem argv envp kmem with ⟨hr, he⟩ | ⟨ps, hps, hrest⟩
  · exact iff_of_true hr he
  have hnot : ∀ off qs, (envp ≠ 0#64 →
      envOff (packed mem kmem ps) (starts 0 (ps.map (measured mem))) 0 = some off ∧
        VecPasses mem envp argMax (sub argBytesMax off) qs) →
      ¬ Refused mem argv envp kmem := by
    rintro off qs henv (hno | ⟨h0, ps', off', hps', hoff', hno⟩)
    · exact hno ps hps
    · obtain rfl := hps.unique hps'
      obtain ⟨hoff, hqs⟩ := henv h0
      obtain rfl : off = off' := by simpa [hoff] using hoff'
      exact hno qs hqs
  rcases hrest with ⟨h0, heq⟩ | ⟨h0, hoff, heq⟩ | ⟨h0, off, qs, hoff, hqs, heq⟩
  · exact iff_of_false (hnot 0 [] fun h => absurd h0 h) (by simp [heq])
  · refine iff_of_false ?_ (by simp [heq])
    rintro (hno | ⟨-, ps', off', hps', hoff', -⟩)
    · exact hno ps hps
    · obtain rfl := hps.unique hps'
      rw [hoff] at hoff'
      cases hoff'
  · exact iff_of_false (hnot off qs fun _ => ⟨hoff, hqs⟩) (by simp [heq])

-- ---------------------------------------------------------------------------
-- Strings within the limit
-- ---------------------------------------------------------------------------

/-- The string with its terminator. -/
def terminated (s : List UInt8) : List UInt8 := s ++ [0]

theorem measured_strings (h : ∀ p ∈ ps, ¬ Overlong mem p) :
    ∃ ss, List.Forall₂ (UserString mem) ps ss ∧ ps.map (measured mem) = ss.map terminated := by
  induction ps with
  | nil => exact ⟨[], .nil, rfl⟩
  | cons p ps ih =>
    obtain ⟨hp, hps⟩ := List.forall_mem_cons.mp h
    obtain ⟨ss, hss, heq⟩ := ih hps
    have hend : ∃ i ≤ argPathMax, mem (p + BitVec.ofNat 64 i) = 0 := by
      by_contra hno
      exact hp fun i hi h0 => hno ⟨i, hi, h0⟩
    obtain ⟨s, hs, hbytes⟩ := userBytes_string hend
    exact ⟨s :: ss, .cons hs hss, by rw [List.map_cons, List.map_cons, heq, measured, hbytes]; rfl⟩

theorem length_terminated (ss : List (List UInt8)) :
    (ss.map terminated).flatten.length = (ss.map fun s => s.length + 1).sum := by
  rw [List.length_flatten, List.map_map]
  congr 1
  refine List.map_congr_left fun s _ => ?_
  simp [terminated]

/-- Each string of a packed buffer with its address. -/
theorem mem_zip_starts {x : ℕ × List UInt8}
    (hx : x ∈ (starts k (ss.map terminated)).zip ss) :
    (x.1, terminated x.2) ∈ laidOut k (ss.map terminated) := by
  rw [← map_zip_starts]
  exact List.mem_map.mpr ⟨x, hx, rfl⟩

theorem kStrings_packed (hload : load kmem k (ss.map terminated).flatten.length =
      (ss.map terminated).flatten) (hroom : k + (ss.map terminated).flatten.length ≤ argBytesMax) :
    List.Forall₂ (KString kmem) (starts k (ss.map terminated)) ss := by
  refine List.forall₂_iff_zip.mpr ⟨by rw [length_starts, List.length_map], fun {a s} hx => ?_⟩
  have hx := mem_zip_starts hx
  have hstr := load_laidOut hload hx
  have hbound := laidOut_bounds hx
  have hlen : (terminated s).length = s.length + 1 := by simp [terminated]
  rw [hlen] at hstr hbound
  exact ⟨hstr, by omega⟩

theorem apart_packed (k : ℕ) (ss : List (List UInt8)) :
    ((starts k (ss.map terminated)).zip ss).Pairwise Apart := by
  have hapart := laidOut_apart k (ss.map terminated)
  rw [← map_zip_starts, List.pairwise_map] at hapart
  refine hapart.imp fun {x y} h => .inl ?_
  simpa [terminated, Nat.add_assoc] using h

/-- `strlen` of the copied strings adds up to the bytes that were used. -/
theorem envOff_packed (hptrs : List.Forall₂ (KString kmem) kPtrs ss)
    (h0 : ∀ s ∈ ss, (0 : UInt8) ∉ s) (hroom : off + (ss.map terminated).flatten.length < 2 ^ 64) :
    envOff kmem kPtrs off = some (off + (ss.map terminated).flatten.length) := by
  induction hptrs generalizing off with
  | nil => rfl
  | @cons k s kPtrs ss hk _ ih =>
    have hlen : (terminated s).length = s.length + 1 := by simp [terminated]
    rw [List.map_cons, List.flatten_cons, List.length_append, hlen] at hroom ⊢
    obtain ⟨hs, hss⟩ := List.forall_mem_cons.mp h0
    have hbound := hk.2
    unfold argBytesMax at hbound
    rw [envOff, strlen, strlenLoop_string hk.1 hs (by omega), Option.bind_some,
      add_of_lt (by omega), ih hss (by omega)]
    congr 1
    omega

/-- No string of a vector is too long. -/
theorem PassedVec.within (h : PassedVec mem vec ps) (hlong : ¬ TooLong mem vec) :
    ∀ p ∈ ps, ¬ Overlong mem p :=
  fun p hp ho => hlong ⟨ps, h, p, hp, ho⟩

theorem VecTaken.passed (h : VecTaken mem vec ps) : PassedVec mem vec ps := by
  unfold VecTaken at h
  unfold PassedVec
  split at h
  case isTrue h0 => rwa [if_pos h0]
  case isFalse h0 =>
    rw [if_neg h0]
    exact h.vec

theorem VecTaken.room (h : VecTaken mem vec ps) :
    (ps.map (measured mem)).flatten.length ≤ argBytesMax := by
  unfold VecTaken at h
  split at h
  · subst h
    exact Nat.zero_le _
  · exact VecPasses.room h

/-- What is known of `argv` once it is copied: its strings, and where the environment goes. -/
theorem VecTaken.strings (h : VecTaken mem vec ps) (hlong : ¬ TooLong mem vec) (kmem : Mem) :
    ∃ ss, List.Forall₂ (UserString mem) ps ss ∧ ps.map (measured mem) = ss.map terminated ∧
      (ss.map terminated).flatten.length ≤ argBytesMax ∧
      envOff (packed mem kmem ps) (starts 0 (ps.map (measured mem))) 0 =
        some (ss.map terminated).flatten.length := by
  obtain ⟨ss, hss, heq⟩ := measured_strings (h.passed.within hlong)
  have hroom := h.room
  rw [heq] at hroom
  refine ⟨ss, hss, heq, hroom, ?_⟩
  have hkstr : List.Forall₂ (KString (packed mem kmem ps)) (starts 0 (ss.map terminated)) ss := by
    refine kStrings_packed ?_ (by omega)
    rw [packed, heq, load_store]
  have hlt : 0 + (ss.map terminated).flatten.length < 2 ^ 64 := by
    unfold argBytesMax at hroom; omega
  have hoff := envOff_packed hkstr (userStrings_zero hss) hlt
  rw [heq, hoff, Nat.zero_add]

-- ---------------------------------------------------------------------------
-- Within the limits
-- ---------------------------------------------------------------------------

theorem not_tooMany_of_vec (h : UserVec mem vec ps) (hlen : ps.length ≤ n) :
    ∃ i ≤ n, userPtr mem (vec + BitVec.ofNat 64 (8 * i)) = 0#64 := by
  induction ps generalizing vec n with
  | nil => exact ⟨0, Nat.zero_le n, by simpa using h.2⟩
  | cons p ps ih =>
    obtain ⟨i, hi, h0⟩ := ih h.2.2.2 (Nat.le_sub_one_of_lt hlen)
    rw [List.length_cons] at hlen
    refine ⟨i + 1, by omega, ?_⟩
    rwa [Nat.mul_add, Nat.add_comm, BitVec.ofNat_add, ← BitVec.add_assoc]

theorem VecTaken.not_tooMany (h : VecTaken mem vec ps) : ¬ TooMany mem vec := by
  rintro ⟨h0, hmany⟩
  rw [VecTaken, if_neg h0] at h
  obtain ⟨i, hi, hnull⟩ := not_tooMany_of_vec h.vec h.few
  exact hmany i hi hnull

theorem PassedVec.unique (h : PassedVec mem vec ps) (h' : PassedVec mem vec qs) : ps = qs := by
  unfold PassedVec at h h'
  split at h
  case isTrue h0 =>
    rw [if_pos h0] at h'
    rw [h, h']
  case isFalse h0 =>
    rw [if_neg h0] at h'
    exact h.unique h'

theorem userStrings_unique {ts : List (List UInt8)} (h : List.Forall₂ (UserString mem) ps ss)
    (h' : List.Forall₂ (UserString mem) ps ts) : ss = ts := by
  induction h generalizing ts with
  | nil => cases h'; rfl
  | cons hs _ ih =>
    cases h' with
    | cons ht hts => rw [hs.unique ht, ih hts]

/-- The strings of a vector are determined. -/
theorem PassedStrings.eq {ts : List (List UInt8)} (h : PassedStrings mem vec ts)
    (hps : PassedVec mem vec ps) (hss : List.Forall₂ (UserString mem) ps ss) : ts = ss := by
  obtain ⟨qs, hqs, hts⟩ := h
  obtain rfl := hqs.unique hps
  exact userStrings_unique hts hss

/-- The environment behind the arguments. -/
theorem argsCopied_of_packed {argv envp : BitVec 64} {a : ExecArgs} {args envs : List (List UInt8)}
    (hargs : PassedStrings mem argv args) (henvs : PassedStrings mem envp envs)
    (hroom : ((args ++ envs).map terminated).flatten.length ≤ argBytesMax)
    (hmem : a.kmem = store kmem 0 ((args ++ envs).map terminated).flatten)
    (hptrs : a.kArgv = starts 0 (args.map terminated))
    (hptrs' : a.kEnvp = starts (args.map terminated).flatten.length (envs.map terminated)) :
    ArgsCopied mem argv envp kmem a args envs := by
  have hall : a.kArgv ++ a.kEnvp = starts 0 ((args ++ envs).map terminated) := by
    rw [hptrs, hptrs', List.map_append, starts_append, Nat.zero_add]
  have hload : load a.kmem 0 ((args ++ envs).map terminated).flatten.length =
      ((args ++ envs).map terminated).flatten := by
    rw [hmem, load_store]
  have hloads := hload
  rw [List.map_append, List.flatten_append, List.length_append] at hloads hroom
  rw [load_append, Nat.zero_add] at hloads
  obtain ⟨hloadA, hloadE⟩ := List.append_inj hloads (length_load _ _ _)
  refine ⟨hargs, henvs, ?_, ?_, ?_, fun x hx => ?_⟩
  · rw [hptrs]
    exact kStrings_packed hloadA (by omega)
  · rw [hptrs']
    exact kStrings_packed hloadE hroom
  · rw [hall]
    exact apart_packed 0 _
  · rw [hmem, store_out (.inr _)]
    rw [List.map_append, List.flatten_append, List.length_append]
    omega

/-- What a packing that is not refused does with strings within the limit. -/
theorem execArgs_within {argv envp : BitVec 64} (hargv : ¬ TooLong mem argv)
    (henvp : ¬ TooLong mem envp) (hno : ¬ Refused mem argv envp kmem) :
    ¬ ExceedsLimit mem argv envp ∧ ∃ a args envs, execArgs mem argv envp kmem = some (.ok a) ∧
      ArgsCopied mem argv envp kmem a args envs := by
  rcases execArgs_cases mem argv envp kmem with ⟨hr, -⟩ | ⟨ps, hps, hrest⟩
  · exact absurd hr hno
  obtain ⟨args, hargs, heqA, hroomA, hoff⟩ := hps.strings hargv kmem
  have hpassA : PassedStrings mem argv args := ⟨ps, hps.passed, hargs⟩
  -- the environment: nothing, or strings that fit behind the arguments
  obtain ⟨qs, envs, a, hqs, henvs, hmany, hroom, hok, hmem, hptrs, hptrs'⟩ :
      ∃ qs envs a, PassedVec mem envp qs ∧ List.Forall₂ (UserString mem) qs envs ∧
        ¬ TooMany mem envp ∧
        ((args ++ envs).map terminated).flatten.length ≤ argBytesMax ∧
        execArgs mem argv envp kmem = some (.ok a) ∧
        a.kmem = store kmem 0 ((args ++ envs).map terminated).flatten ∧
        a.kArgv = starts 0 (args.map terminated) ∧
        a.kEnvp = starts (args.map terminated).flatten.length (envs.map terminated) := by
    rcases hrest with ⟨h0, heq⟩ | ⟨-, hnone, -⟩ | ⟨h0, off, qs, hsome, hqs, heq⟩
    · refine ⟨[], [], _, by rw [PassedVec, if_pos h0], .nil, fun h => h.1 h0, by simpa using hroomA, heq, ?_, ?_, rfl⟩
      · rw [List.append_nil, ← heqA]
        rfl
      · rw [← heqA]
    · rw [hoff] at hnone
      cases hnone
    · rw [hoff] at hsome
      obtain rfl := Option.some.inj hsome
      have hpass : PassedVec mem envp qs := by
        rw [PassedVec, if_neg h0]
        exact hqs.vec
      obtain ⟨envs, henvs, heqE⟩ := measured_strings (hpass.within henvp)
      have hroomE := hqs.room
      have hbig : argBytesMax < 2 ^ 64 := by decide
      rw [heqE, sub_of_le hbig hroomA] at hroomE
      refine ⟨qs, envs, _, hpass, henvs, fun h => ?_, ?_, heq, ?_, ?_, ?_⟩
      · obtain ⟨i, hi, hnull⟩ := not_tooMany_of_vec hqs.vec hqs.few
        exact h.2 i hi hnull
      · rw [List.map_append, List.flatten_append, List.length_append]
        omega
      · have hstore := store_store kmem 0 (args.map terminated).flatten
          (envs.map terminated).flatten
        rw [Nat.zero_add] at hstore
        simp only [packed, heqA, heqE, hstore, List.map_append, List.flatten_append]
      · simp only [heqA]
      · simp only [heqE]
  have hpassE : PassedStrings mem envp envs := ⟨qs, hqs, henvs⟩
  refine ⟨?_, a, args, envs, hok,
    argsCopied_of_packed hpassA hpassE hroom hmem hptrs hptrs'⟩
  rintro ((hmanyA | hmanyE) | (hlong | hlong) | ⟨args', envs', hargs', henvs', htotal⟩)
  · exact hps.not_tooMany hmanyA
  · exact hmany hmanyE
  · exact hargv hlong
  · exact henvp hlong
  · rw [hargs'.eq hps.passed hargs, henvs'.eq hqs henvs, ← length_terminated] at htotal
    omega

/-- **The arguments of execve.** What the loaders get is what the user passed, and whatever
is above a limit is an error, exactly when no string of the two vectors is longer than
`LESTRA_PATH_MAX`, or a check that has nothing to do with that refuses the call. -/
theorem exec_args_law_iff (mem : BitVec 64 → UInt8) (argv envp : BitVec 64) (kmem : Mem) :
    ExecArgsLaw mem argv envp kmem ↔
      (¬ TooLong mem argv ∧ ¬ TooLong mem envp) ∨ Refused mem argv envp kmem := by
  constructor
  · intro hlaw
    by_contra hno
    rw [not_or] at hno
    have hlong : TooLong mem argv ∨ TooLong mem envp := by
      by_contra hnone
      exact hno.1 (not_or.mp hnone)
    exact hno.2 (execArgs_refused.mpr (hlaw.limits (.inr (.inl hlong))))
  · intro h
    by_cases hr : Refused mem argv envp kmem
    · obtain ⟨e, he, heq⟩ := execArgs_refused.mp hr
      refine ⟨fun a ha => ?_, fun _ => ⟨e, he, heq⟩⟩
      rw [heq] at ha
      cases ha
    · obtain ⟨hargv, henvp⟩ := h.resolve_right hr
      obtain ⟨hlimit, a, args, envs, hok, hcopied⟩ := execArgs_within hargv henvp hr
      refine ⟨fun a' ha' => ?_, fun hex => absurd hex hlimit⟩
      obtain rfl : a = a' := by simpa [hok] using ha'
      exact ⟨args, envs, hcopied⟩

-- ---------------------------------------------------------------------------
-- A string that is too long
-- ---------------------------------------------------------------------------

/-- A vector at 0x1000 with one pointer, to 0x2000, where a run of letters starts. -/
def longArg (a : BitVec 64) : UInt8 :=
  if a = 0x1001#64 then 0x20
  else if 0x1000#64 ≤ a ∧ a < 0x1010#64 then 0
  else 0x41

theorem longArg_vec : UserVec longArg 0x1000#64 [0x2000#64] := by
  unfold UserVec UserVec
  decide

theorem longArg_overlong : Overlong longArg 0x2000#64 := by
  intro i hi
  unfold argPathMax at hi
  have hnat : (0x2000#64 + BitVec.ofNat 64 i).toNat = 0x2000 + i := by
    rw [BitVec.toNat_add, BitVec.toNat_ofNat, BitVec.toNat_ofNat]
    omega
  have h1 : 0x2000#64 + BitVec.ofNat 64 i ≠ 0x1001#64 := by
    intro heq
    rw [heq] at hnat
    simp at hnat
    omega
  have h2 : ¬ 0x2000#64 + BitVec.ofNat 64 i < 0x1010#64 := by
    rw [BitVec.lt_def, hnat]
    simp
    omega
  rw [longArg, if_neg h1, if_neg (not_and_of_not_right _ h2)]
  decide

theorem strnlenLoop_le (mem : BitVec 64 → UInt8) (n : ℕ) (p : BitVec 64) :
    strnlenLoop mem n p ≤ n := by
  induction n generalizing p with
  | zero => exact Nat.le_refl 0
  | succ n ih =>
    rw [strnlenLoop]
    split
    · exact Nat.zero_le _
    · exact Nat.succ_le_succ (ih _)

/-- The string is cut after 4097 bytes, without a terminator, and the call goes on. -/
theorem long_argument_is_cut :
    ¬ ∀ mem argv envp kmem, ExecArgsLaw mem argv envp kmem := by
  intro hall
  have hpassed : PassedVec longArg 0x1000#64 [0x2000#64] := by
    rw [PassedVec, if_neg (by decide)]
    exact longArg_vec
  have htaken : VecTaken longArg 0x1000#64 [0x2000#64] := by
    rw [VecTaken, if_neg (by decide)]
    refine ⟨longArg_vec, by decide, by simp [accessOk], ?_⟩
    have hle := strnlenLoop_le longArg argPathMax 0x2000#64
    simp only [List.map_cons, List.map_nil, List.flatten_cons, List.flatten_nil,
      List.append_nil, length_measured]
    unfold argPathMax argBytesMax at *
    omega
  have hlimits := (hall longArg 0x1000#64 0#64 fun _ => 0).limits
    (.inr (.inl (.inl ⟨_, hpassed, 0x2000#64, by simp, longArg_overlong⟩)))
  rcases execArgs_refused.mpr hlimits with hno | ⟨h0, -⟩
  · exact hno _ htaken
  · exact h0 rfl

end Lestra
