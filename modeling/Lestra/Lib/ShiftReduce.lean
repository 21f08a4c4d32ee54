import Lestra.Lib.BigEndian

/-!
# Reduction by shifted subtraction

The remainder of a number of `n + n` bytes modulo one of `n` bytes: the modulus is laid under
the number at one place after another, and subtracted there as long as it goes.

* `modMul_val` — the product of two numbers modulo a third
* `entries` — what each round of subtractions begins with
-/

namespace ShiftReduce

open BigEndian

/-- `q` is subtracted from `p` while it is not larger. With a zero `q` this does not end, which
is `none`. -/
def subWhile (n : ℕ) (q p : ℕ → UInt8) : Option (ℕ → UInt8) :=
  if memcmp p q n = .lt then some p
  else if val n q = 0 then none
  else subWhile n q (sub n p q)
termination_by val n p
decreasing_by
  rename_i hge hne
  rw [memcmp_eq, Nat.compare_eq_lt] at hge
  rw [sub_val (by omega)]
  omega

/-- The number of these subtractions. -/
def subTurns (n : ℕ) (q p : ℕ → UInt8) : ℕ :=
  if memcmp p q n = .lt then 0
  else if val n q = 0 then 0
  else subTurns n q (sub n p q) + 1
termination_by val n p
decreasing_by
  rename_i hge hne
  rw [memcmp_eq, Nat.compare_eq_lt] at hge
  rw [sub_val (by omega)]
  omega

/-- The modulus at byte `shift`. -/
def shifted (n : ℕ) (m : ℕ → UInt8) (shift : ℕ) : ℕ → UInt8 := fun k =>
  if shift ≤ k ∧ k < shift + n then m (k - shift) else 0

/-- The rounds from place `shift - 1` down to 0. -/
def reduceLoop (n : ℕ) (m : ℕ → UInt8) : ℕ → (ℕ → UInt8) → Option (ℕ → UInt8)
  | 0, p => some p
  | shift + 1, p => (subWhile (n + n) (shifted n m shift) p).bind (reduceLoop n m shift)

/-- The place of each round that begins, and the number that is left for it. -/
def entries (n : ℕ) (m : ℕ → UInt8) : ℕ → (ℕ → UInt8) → List (ℕ × (ℕ → UInt8))
  | 0, _ => []
  | shift + 1, p =>
    (shift, p) :: (subWhile (n + n) (shifted n m shift) p).elim [] (entries n m shift)

/-- The low half of what is left of the product. -/
def modMul (n : ℕ) (a b m : ℕ → UInt8) : Option (ℕ → UInt8) :=
  (reduceLoop n m (n + 1) (mul n a b)).map fun p i => p (n + i)

variable {n shift : ℕ} {m p q : ℕ → UInt8}

-- ---------------------------------------------------------------------------
-- One round
-- ---------------------------------------------------------------------------

theorem subWhile_val (hpos : 0 < val n q) (p : ℕ → UInt8) :
    ∃ r, subWhile n q p = some r ∧ val n r = val n p % val n q := by
  fun_induction subWhile n q p with
  | case1 p hlt =>
    rw [memcmp_eq, Nat.compare_eq_lt] at hlt
    exact ⟨p, rfl, (Nat.mod_eq_of_lt hlt).symm⟩
  | case2 p _ hzero => omega
  | case3 p hge _ ih =>
    rw [memcmp_eq, Nat.compare_eq_lt] at hge
    obtain ⟨r, hr, hval⟩ := ih
    exact ⟨r, hr, by rw [hval, sub_val (by omega), ← Nat.mod_eq_sub_mod (by omega)]⟩

theorem subWhile_zero (hzero : val n q = 0) (p : ℕ → UInt8) : subWhile n q p = none := by
  have hge : ¬ memcmp p q n = .lt := by
    rw [memcmp_eq, Nat.compare_eq_lt, hzero]
    exact Nat.not_lt_zero _
  rw [subWhile, if_neg hge, if_pos hzero]

theorem subTurns_eq (hpos : 0 < val n q) (p : ℕ → UInt8) : subTurns n q p = val n p / val n q := by
  fun_induction subTurns n q p with
  | case1 p hlt =>
    rw [memcmp_eq, Nat.compare_eq_lt] at hlt
    exact (Nat.div_eq_of_lt hlt).symm
  | case2 p _ hzero => omega
  | case3 p hge _ ih =>
    rw [memcmp_eq, Nat.compare_eq_lt] at hge
    rw [ih, sub_val (by omega), ← Nat.div_eq_sub_div hpos (by omega)]

theorem shifted_val (h : shift ≤ n) :
    val (n + n) (shifted n m shift) = val n m * 256 ^ (n - shift) := by
  obtain ⟨rest, hrest⟩ : ∃ rest, n + n = shift + (n + rest) := ⟨n - shift, by omega⟩
  have hlow : val shift (shifted n m shift) = 0 := val_zero fun i hi => if_neg (by omega)
  have hmid : val n (fun i => shifted n m shift (shift + i)) = val n m :=
    val_congr fun i hi => by
      rw [shifted, if_pos ⟨by omega, by omega⟩, Nat.add_sub_cancel_left]
  have hhigh : val rest (fun i => shifted n m shift (shift + (n + i))) = 0 :=
    val_zero fun i hi => if_neg (by omega)
  have hexp : n - shift = rest := by omega
  rw [hrest, val_add, val_add, hlow, hmid, hhigh, hexp, Nat.zero_mul, Nat.zero_add, Nat.add_zero]

theorem le_shifted_val (h : shift ≤ n) : val n m ≤ val (n + n) (shifted n m shift) := by
  rw [shifted_val h]
  exact Nat.le_mul_of_pos_right _ (Nat.pow_pos (by omega))

/-- At the last place the modulus is as it is. -/
theorem shifted_self_val : val (n + n) (shifted n m n) = val n m := by
  rw [shifted_val (Nat.le_refl n), Nat.sub_self, Nat.pow_zero, Nat.mul_one]

-- ---------------------------------------------------------------------------
-- All rounds
-- ---------------------------------------------------------------------------

/-- A number below the modulus stays as it is. -/
theorem reduceLoop_val (h : shift ≤ n) (hlt : val (n + n) p < val n m) :
    ∃ r, reduceLoop n m shift p = some r ∧ val (n + n) r = val (n + n) p := by
  induction shift generalizing p with
  | zero => exact ⟨p, rfl, rfl⟩
  | succ shift ih =>
    have hle : val n m ≤ val (n + n) (shifted n m shift) := le_shifted_val (by omega)
    obtain ⟨next, hnext, hval⟩ :=
      subWhile_val (show 0 < val (n + n) (shifted n m shift) by omega) p
    rw [Nat.mod_eq_of_lt (by omega)] at hval
    obtain ⟨r, hr, hrest⟩ := ih (by omega) (show val (n + n) next < val n m by omega)
    exact ⟨r, by rw [reduceLoop, hnext]; exact hr, hrest.trans hval⟩

/-- The first round leaves the remainder. -/
theorem first_round (hm : 0 < val n m) (p : ℕ → UInt8) :
    ∃ r, subWhile (n + n) (shifted n m n) p = some r ∧ val (n + n) r = val (n + n) p % val n m := by
  have hfirst : 0 < val (n + n) (shifted n m n) := by rwa [shifted_self_val]
  obtain ⟨r, hr, hval⟩ := subWhile_val hfirst p
  rw [shifted_self_val] at hval
  exact ⟨r, hr, hval⟩

theorem modMul_val (hm : 0 < val n m) (a b : ℕ → UInt8) :
    ∃ r, modMul n a b m = some r ∧ val n r = val n a * val n b % val n m := by
  obtain ⟨prod, hprod, hval⟩ := first_round hm (mul n a b)
  rw [mul_val n a b] at hval
  have hlt : val (n + n) prod < val n m := by
    rw [hval]
    exact Nat.mod_lt _ hm
  obtain ⟨r, hr, hsame⟩ := reduceLoop_val (Nat.le_refl n) hlt
  refine ⟨fun i => r (n + i), ?_, ?_⟩
  · rw [modMul, reduceLoop, hprod, Option.bind_some, hr]
    rfl
  · -- The high half of what is left is zero.
    have hsplit : val (n + n) r = _ := val_add n n r
    have hbound := val_lt n m
    have hhigh : val n r = 0 := by
      by_contra hne
      have hle := Nat.le_mul_of_pos_left (256 ^ n) (Nat.pos_of_ne_zero hne)
      omega
    rw [hhigh, Nat.zero_mul, Nat.zero_add] at hsplit
    rw [← hsplit, ← hval]
    exact hsame

theorem modMul_zero (hm : val n m = 0) (a b : ℕ → UInt8) : modMul n a b m = none := by
  have hfirst : val (n + n) (shifted n m n) = 0 := by rw [shifted_self_val, hm]
  rw [modMul, reduceLoop, subWhile_zero hfirst]
  rfl

/-- Once the number is below the modulus, it is so at every round that follows. -/
theorem entries_lt (h : shift ≤ n) (hlt : val (n + n) p < val n m) :
    ∀ e ∈ entries n m shift p, e.1 < shift ∧ val (n + n) e.2 < val n m := by
  induction shift generalizing p with
  | zero => exact nofun
  | succ shift ih =>
    have hle : val n m ≤ val (n + n) (shifted n m shift) := le_shifted_val (by omega)
    obtain ⟨next, hnext, hval⟩ :=
      subWhile_val (show 0 < val (n + n) (shifted n m shift) by omega) p
    rw [Nat.mod_eq_of_lt (by omega)] at hval
    rw [entries, hnext, List.forall_mem_cons]
    refine ⟨⟨Nat.lt_succ_self shift, hlt⟩, fun e he => ?_⟩
    obtain ⟨hshift, hsmall⟩ := ih (by omega) (show val (n + n) next < val n m by omega) e he
    exact ⟨by omega, hsmall⟩

/-- **What the rounds begin with.** The first round is at the modulus itself, and has all
subtractions to do: every other one begins below the modulus. -/
theorem entries_bound_iff (hm : 0 < val n m) {k : ℕ} (hk : 0 < k) (p : ℕ → UInt8) :
    (∀ e ∈ entries n m (n + 1) p, val (n + n) e.2 < k * val (n + n) (shifted n m e.1)) ↔
      val (n + n) p < k * val n m := by
  obtain ⟨r, hr, hval⟩ := first_round hm p
  rw [entries, hr, List.forall_mem_cons, shifted_self_val]
  refine ⟨fun h => h.1, fun h => ⟨h, fun e he => ?_⟩⟩
  have hlt : val (n + n) r < val n m := by
    rw [hval]
    exact Nat.mod_lt _ hm
  obtain ⟨hshift, hsmall⟩ := entries_lt (Nat.le_refl n) hlt e he
  have hle : val n m ≤ val (n + n) (shifted n m e.1) := le_shifted_val hshift.le
  calc val (n + n) e.2 < val n m := hsmall
    _ ≤ val (n + n) (shifted n m e.1) := hle
    _ ≤ k * val (n + n) (shifted n m e.1) := Nat.le_mul_of_pos_left _ hk

end ShiftReduce
