import Lestra.Lib.Packed
import Lestra.Lib.Word64
import Lestra.Syscall.Uaccess

/-!
# Argument vectors

`strnlen_user` and `copy_argvec_from_user` of `kernel/include/lestra/uaccess.h`, and the part
of `sys_execve` that packs `argv` and `envp` into one buffer. Kernel memory is counted from
`k_strings`, so the buffer is `[0, LESTRA_ARG_BYTES_MAX)`.

* `copyArgvec_ok_iff` — when a copy succeeds and what it leaves behind
* `exec_args_law_iff` — a string of more than `LESTRA_PATH_MAX` bytes is cut without a
  terminator, and nothing tells
-/

namespace Lestra

open ByteMem Word64 Packed

/-- `LESTRA_ARG_MAX` -/
def argMax : ℕ := 128

/-- `LESTRA_ARG_BYTES_MAX` -/
def argBytesMax : ℕ := 32768

/-- `LESTRA_PATH_MAX` -/
def argPathMax : ℕ := 4096

def errTooManyArgs : Int := -7

def errNoArgRoom : Int := -12

-- ---------------------------------------------------------------------------
-- Reading user memory
-- ---------------------------------------------------------------------------

/-- The loop of `strnlen_user` with `max - i` bytes left. -/
def strnlenLoop (mem : BitVec 64 → UInt8) : ℕ → BitVec 64 → ℕ
  | 0, _ => 0
  | n + 1, str => if mem str = 0 then 0 else strnlenLoop mem n (str + 1#64) + 1

def strnlenUser (mem : BitVec 64 → UInt8) (str : BitVec 64) (max : ℕ) : Int :=
  if !accessOk str 1#64 then errBadAddress else strnlenLoop mem max str

/-- `copy_from_user` -/
def copyFromUser (mem : BitVec 64 → UInt8) (kmem : Mem) (dst : ℕ) (src : BitVec 64) (n : ℕ) :
    Option Mem :=
  if copyUserOk src then some (store kmem dst (userBytes mem src n)) else none

-- ---------------------------------------------------------------------------
-- copy_argvec_from_user
-- ---------------------------------------------------------------------------

/-- One pointer of the vector. -/
def argvecPtr (mem : BitVec 64 → UInt8) (vec : BitVec 64) : Except Int (BitVec 64) :=
  if !accessOk vec 8#64 then .error errBadAddress else .ok (userPtr mem vec)

/-- Measure the string at `ptr` and copy it to `k_strings[str_off]`: the memory and the bytes
used up. -/
def copyArgString (mem : BitVec 64 → UInt8) (kStrings stringsSz : ℕ) (ptr : BitVec 64)
    (strOff : ℕ) (kmem : Mem) : Except Int (Mem × ℕ) :=
  let slen := strnlenUser mem ptr argPathMax
  if slen < 0 then .error errBadAddress
  else if stringsSz < strOff + (slen.toNat + 1) then .error errNoArgRoom
  else
    match copyFromUser mem kmem (kStrings + strOff) ptr (slen.toNat + 1) with
    | none => .error errBadAddress
    | some kmem => .ok (kmem, slen.toNat + 1)

/-- The loop at the vector element `vec`, with `n` pointers left before `LESTRA_ARG_MAX` and
`strOff` bytes used. The result is the memory and what goes to `k_ptrs`. -/
def copyArgvecLoop (mem : BitVec 64 → UInt8) (kStrings stringsSz : ℕ) :
    ℕ → BitVec 64 → ℕ → Mem → Except Int (Mem × List ℕ)
  | 0, vec, _, kmem => do
    let ptr ← argvecPtr mem vec
    if ptr = 0#64 then .ok (kmem, []) else .error errTooManyArgs
  | n + 1, vec, strOff, kmem => do
    let ptr ← argvecPtr mem vec
    if ptr = 0#64 then .ok (kmem, [])
    else
      let (kmem, used) ← copyArgString mem kStrings stringsSz ptr strOff kmem
      let (kmem, kPtrs) ← copyArgvecLoop mem kStrings stringsSz n (vec + 8#64) (strOff + used) kmem
      .ok (kmem, (kStrings + strOff) :: kPtrs)

/-- `copy_argvec_from_user` -/
def copyArgvecFromUser (mem : BitVec 64 → UInt8) (userVec : BitVec 64) (kmem : Mem)
    (kStrings stringsSz : ℕ) : Except Int (Mem × List ℕ) :=
  copyArgvecLoop mem kStrings stringsSz argMax userVec 0 kmem

-- ---------------------------------------------------------------------------
-- sys_execve
-- ---------------------------------------------------------------------------

/-- `strlen` in kernel memory, for as many bytes as there are. -/
def strlenLoop (kmem : Mem) : ℕ → ℕ → Option ℕ
  | 0, _ => none
  | n + 1, str => if kmem str = 0 then some 0 else (strlenLoop kmem n (str + 1)).map (· + 1)

def strlen (kmem : Mem) (str : ℕ) : Option ℕ := strlenLoop kmem (2 ^ 64) str

/-- `env_off`, summed up over the copied strings. -/
def envOff (kmem : Mem) : List ℕ → ℕ → Option ℕ
  | [], off => some off
  | kPtr :: kPtrs, off => (strlen kmem kPtr).bind fun n => envOff kmem kPtrs (add off (n + 1))

/-- What the loaders get: `k_argv` and `k_envp` point into `kmem`. -/
structure ExecArgs where
  kmem : Mem
  kArgv : List ℕ
  kEnvp : List ℕ

/-- `if (argv) rc = copy_argvec_from_user(argv, k_argv, k_strings, ..)` -/
def copyArgv (mem : BitVec 64 → UInt8) (argv : BitVec 64) (kmem : Mem) :
    Except Int (Mem × List ℕ) :=
  if argv = 0#64 then .ok (kmem, []) else copyArgvecFromUser mem argv kmem 0 argBytesMax

/-- The packing of `sys_execve`; `none` when a `strlen` does not end. -/
def execArgs (mem : BitVec 64 → UInt8) (argv envp : BitVec 64) (kmem : Mem) :
    Option (Except Int ExecArgs) :=
  match copyArgv mem argv kmem with
  | .error e => some (.error e)
  | .ok (kmem, kArgv) =>
    if envp = 0#64 then some (.ok ⟨kmem, kArgv, []⟩)
    else
      (envOff kmem kArgv 0).map fun off =>
        match copyArgvecFromUser mem envp kmem off (sub argBytesMax off) with
        | .error e => .error e
        | .ok (kmem, kEnvp) => .ok ⟨kmem, kArgv, kEnvp⟩

-- ---------------------------------------------------------------------------
-- What the user passes
-- ---------------------------------------------------------------------------

/-- The readable vector at `vec` holds the pointers `ps` and then NULL. -/
def UserVec (mem : BitVec 64 → UInt8) : BitVec 64 → List (BitVec 64) → Prop
  | vec, [] => accessOk vec 8#64 = true ∧ userPtr mem vec = 0#64
  | vec, p :: ps =>
    accessOk vec 8#64 = true ∧ userPtr mem vec = p ∧ p ≠ 0#64 ∧ UserVec mem (vec + 8#64) ps

/-- The bytes that are copied for the pointer `p`. -/
def measured (mem : BitVec 64 → UInt8) (p : BitVec 64) : List UInt8 :=
  userBytes mem p (strnlenLoop mem argPathMax p + 1)

/-- The vector at `vec` holds `ps` and passes the checks of a copy with room for `sz` bytes. -/
structure VecPasses (mem : BitVec 64 → UInt8) (vec : BitVec 64) (n sz : ℕ)
    (ps : List (BitVec 64)) : Prop where
  vec : UserVec mem vec ps
  few : ps.length ≤ n
  readable : ∀ p ∈ ps, accessOk p 1#64 = true
  room : (ps.map (measured mem)).flatten.length ≤ sz

variable {mem : BitVec 64 → UInt8} {vec p : BitVec 64} {ps qs : List (BitVec 64)} {kmem kmem' : Mem}
  {k n sz off : ℕ} {kPtrs : List ℕ}

theorem UserVec.unique (h : UserVec mem vec ps) (h' : UserVec mem vec qs) : ps = qs := by
  induction ps generalizing vec qs with
  | nil =>
    cases qs with
    | nil => rfl
    | cons q qs => exact absurd (h'.2.1.symm.trans h.2) h'.2.2.1
  | cons p ps ih =>
    cases qs with
    | nil => exact absurd (h.2.1.symm.trans h'.2) h.2.2.1
    | cons q qs => rw [← h.2.1, ← h'.2.1, ih h.2.2.2 h'.2.2.2]

@[simp] theorem length_userBytes (mem : BitVec 64 → UInt8) (src : BitVec 64) (n : ℕ) :
    (userBytes mem src n).length = n := by simp [userBytes]

@[simp] theorem length_measured (mem : BitVec 64 → UInt8) (p : BitVec 64) :
    (measured mem p).length = strnlenLoop mem argPathMax p + 1 := length_userBytes _ _ _

/-- `access_ok` is stricter than the check of `copy_from_user`. -/
theorem copyUserOk_of_accessOk {size : BitVec 64} (h : accessOk p size = true) :
    copyUserOk p = true := by
  simp only [accessOk, copyUserOk, decide_eq_true_eq] at h ⊢
  exact ⟨h.1, h.2.1⟩

-- ---------------------------------------------------------------------------
-- One copy
-- ---------------------------------------------------------------------------

theorem strnlenUser_eq (hp : accessOk p 1#64 = true) (max : ℕ) :
    strnlenUser mem p max = strnlenLoop mem max p := by
  rw [strnlenUser, hp]
  rfl

theorem argvecPtr_eq_ok : argvecPtr mem vec = .ok p ↔
    accessOk vec 8#64 = true ∧ userPtr mem vec = p := by
  unfold argvecPtr
  cases accessOk vec 8#64 <;> simp

/-- A string is copied when it is readable and there is room for what was measured. -/
theorem copyArgString_eq_ok {r : Mem × ℕ} :
    copyArgString mem k sz p off kmem = .ok r ↔ accessOk p 1#64 = true ∧
      off + (measured mem p).length ≤ sz ∧
      r = (store kmem (k + off) (measured mem p), (measured mem p).length) := by
  unfold copyArgString
  by_cases hread : accessOk p 1#64 = true
  · have hcopy : ∀ n, copyFromUser mem kmem (k + off) p n =
        some (store kmem (k + off) (userBytes mem p n)) := fun n => by
      rw [copyFromUser, copyUserOk_of_accessOk hread, if_pos rfl]
    simp only [strnlenUser_eq hread, hread, Int.toNat_natCast, hcopy, length_measured, true_and]
    rw [if_neg (by omega)]
    by_cases hroom : sz < off + (strnlenLoop mem argPathMax p + 1)
    · rw [if_pos hroom]
      exact iff_of_false (by simp) fun h => by omega
    · rw [if_neg hroom, ← measured]
      refine ⟨fun h => ⟨by omega, (Except.ok.inj h).symm⟩, fun h => by rw [h.2]⟩
  · have hbad : strnlenUser mem p argPathMax = errBadAddress := by
      rw [strnlenUser, if_pos (by simpa using hread)]
    simp only [hbad]
    rw [if_pos (by decide)]
    exact iff_of_false (by simp) fun h => hread h.1

theorem bind_eq_ok {α β : Type} {e : Except Int α} {f : α → Except Int β} {b : β} :
    (e >>= f) = .ok b ↔ ∃ a, e = .ok a ∧ f a = .ok b := by
  cases e with
  | error _ => exact iff_of_false nofun fun ⟨_, h, _⟩ => nomatch h
  | ok a => exact ⟨fun h => ⟨a, rfl, h⟩, fun ⟨_, h, hb⟩ => by rwa [Except.ok.inj h]⟩

theorem bind_eq_error {α β : Type} {e : Except Int α} {f : α → Except Int β} {err : Int}
    (h : (e >>= f) = .error err) : e = .error err ∨ ∃ a, e = .ok a ∧ f a = .error err := by
  cases e with
  | error _ =>
    cases h
    exact .inl rfl
  | ok a => exact .inr ⟨a, rfl, h⟩

/-- **One copy.** It succeeds exactly when the vector passes the checks, and then the strings
lie one after another in the buffer, as they were measured. -/
theorem copyArgvecLoop_eq_ok (hoff : off ≤ sz) :
    copyArgvecLoop mem k sz n vec off kmem = .ok (kmem', kPtrs) ↔
      ∃ ps, UserVec mem vec ps ∧ ps.length ≤ n ∧ (∀ p ∈ ps, accessOk p 1#64 = true) ∧
        off + (ps.map (measured mem)).flatten.length ≤ sz ∧
        kmem' = store kmem (k + off) (ps.map (measured mem)).flatten ∧
        kPtrs = starts (k + off) (ps.map (measured mem)) := by
  induction n generalizing vec off kmem kmem' kPtrs with
  | zero =>
    rw [copyArgvecLoop, bind_eq_ok]
    constructor
    · rintro ⟨p, hp, h⟩
      obtain ⟨hvec, hp⟩ := argvecPtr_eq_ok.mp hp
      split at h
      case isTrue h0 =>
        cases h
        exact ⟨[], ⟨hvec, hp.trans h0⟩, Nat.le_refl 0, by simp, by simpa using hoff, by simp, rfl⟩
      case isFalse => cases h
    · rintro ⟨ps, hvec, hlen, -, -, rfl, rfl⟩
      obtain rfl := List.length_eq_zero_iff.mp (Nat.le_zero.mp hlen)
      refine ⟨0#64, argvecPtr_eq_ok.mpr hvec, ?_⟩
      simp
  | succ n ih =>
    rw [copyArgvecLoop, bind_eq_ok]
    constructor
    · rintro ⟨p, hp, h⟩
      obtain ⟨hvec, hp⟩ := argvecPtr_eq_ok.mp hp
      split at h
      case isTrue h0 =>
        cases h
        exact ⟨[], ⟨hvec, hp.trans h0⟩, Nat.zero_le _, by simp, by simpa using hoff, by simp, rfl⟩
      case isFalse h0 =>
        obtain ⟨⟨kmem₁, used⟩, hcopy, h⟩ := bind_eq_ok.mp h
        obtain ⟨⟨kmem₂, rest⟩, hrest, h⟩ := bind_eq_ok.mp h
        obtain ⟨hread, hroom, heq⟩ := copyArgString_eq_ok.mp hcopy
        obtain ⟨rfl, rfl⟩ := Prod.mk.inj heq
        obtain ⟨ps, hps, hlen, hreads, hrooms, rfl, rfl⟩ := (ih hroom).mp hrest
        cases h
        refine ⟨p :: ps, ⟨hvec, hp, h0, hps⟩, Nat.succ_le_succ hlen, ?_, ?_, ?_, ?_⟩
        · exact List.forall_mem_cons.mpr ⟨hread, hreads⟩
        · rw [List.map_cons, List.flatten_cons, List.length_append]
          omega
        · rw [← Nat.add_assoc, store_store, List.map_cons, List.flatten_cons]
        · rw [List.map_cons, starts_cons, Nat.add_assoc]
    · rintro ⟨ps, hvec, hlen, hreads, hrooms, rfl, rfl⟩
      cases ps with
      | nil =>
        refine ⟨0#64, argvecPtr_eq_ok.mpr hvec, ?_⟩
        simp
      | cons p ps =>
        obtain ⟨hacc, hp, h0, hps⟩ := hvec
        obtain ⟨hread, hreads⟩ := List.forall_mem_cons.mp hreads
        rw [List.map_cons, List.flatten_cons, List.length_append] at hrooms
        have hcopy : copyArgString mem k sz p off kmem = .ok _ := copyArgString_eq_ok.mpr
          ⟨hread, (by omega : off + (measured mem p).length ≤ sz), rfl⟩
        have hrest : copyArgvecLoop mem k sz n (vec + 8#64) (off + (measured mem p).length)
            (store kmem (k + off) (measured mem p)) = .ok _ := (ih (by omega)).mpr
          ⟨ps, hps, Nat.le_of_succ_le_succ hlen, hreads, by omega, rfl, rfl⟩
        refine ⟨p, argvecPtr_eq_ok.mpr ⟨hacc, hp⟩, ?_⟩
        rw [if_neg h0, hcopy]
        show (copyArgvecLoop mem k sz n _ _ _ >>= _) = _
        rw [hrest]
        show Except.ok _ = Except.ok _
        rw [← Nat.add_assoc, store_store, List.map_cons, List.flatten_cons, starts_cons,
          Nat.add_assoc]

theorem copyArgvecLoop_error {e : Int} (h : copyArgvecLoop mem k sz n vec off kmem = .error e) :
    e < 0 := by
  have hptr : ∀ {vec e}, argvecPtr mem vec = .error e → e < 0 := by
    intro vec e h
    unfold argvecPtr at h
    split at h
    · cases h
      decide
    · cases h
  induction n generalizing vec off kmem with
  | zero =>
    rw [copyArgvecLoop] at h
    rcases bind_eq_error h with h | ⟨p, -, h⟩
    · exact hptr h
    · split at h
      · cases h
      · cases h
        decide
  | succ n ih =>
    rw [copyArgvecLoop] at h
    rcases bind_eq_error h with h | ⟨p, -, h⟩
    · exact hptr h
    split at h
    · cases h
    rcases bind_eq_error h with h | ⟨⟨kmem₁, used⟩, -, h⟩
    · unfold copyArgString at h
      dsimp only at h
      split at h
      · cases h
        decide
      split at h
      · cases h
        decide
      · split at h
        · cases h
          decide
        · cases h
    · rcases bind_eq_error h with h | ⟨_, -, h⟩
      · exact ih h
      · cases h

end Lestra
