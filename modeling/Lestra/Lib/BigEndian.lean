import Mathlib.Logic.Function.Basic
import Mathlib.Tactic.Ring
import Mathlib.Tactic.Common

/-!
# Big-endian byte arrays

`val n p` is the number that the first `n` bytes of an array stand for, most significant
byte first. Here are the loops of schoolbook arithmetic on such arrays, each with the
equation that it keeps: comparison, addition with a carry, subtraction with a borrow, one row
of a product, and the carry that is left at its end.
-/

namespace BigEndian

def val : ℕ → (ℕ → UInt8) → ℕ
  | 0, _ => 0
  | n + 1, p => val n p * 256 + (p n).toNat

variable {p q : ℕ → UInt8} {n k : ℕ}

theorem val_congr (h : ∀ i < n, p i = q i) : val n p = val n q := by
  induction n with
  | zero => rfl
  | succ n ih => rw [val, val, ih fun i hi => h i (by omega), h n (by omega)]

theorem val_lt (n : ℕ) (p : ℕ → UInt8) : val n p < 256 ^ n := by
  induction n with
  | zero => exact Nat.one_pos
  | succ n ih =>
    have hlt : (p n).toNat < 256 := UInt8.toNat_lt _
    rw [val, Nat.pow_succ]
    omega

theorem val_zero (h : ∀ i < n, p i = 0) : val n p = 0 := by
  induction n with
  | zero => rfl
  | succ n ih => rw [val, ih fun i hi => h i (by omega), h n (by omega), Nat.zero_mul]; rfl

/-- The high part of the array, and the low part. -/
theorem val_add (a b : ℕ) (p : ℕ → UInt8) :
    val (a + b) p = val a p * 256 ^ b + val b fun i => p (a + i) := by
  induction b with
  | zero => rw [Nat.pow_zero, Nat.mul_one]; rfl
  | succ b ih =>
    rw [← Nat.add_assoc, val, ih, val, Nat.pow_succ]
    ring

theorem val_pos (hn : 0 < n) (h : p 0 ≠ 0) : 0 < val n p := by
  obtain ⟨k, rfl⟩ : ∃ k, n = 1 + k := ⟨n - 1, by omega⟩
  have hfirst : 0 < (p 0).toNat := Nat.pos_of_ne_zero fun hzero => h (UInt8.toNat_inj.mp hzero)
  have hone : val 1 p = (p 0).toNat := by rw [val, val, Nat.zero_mul, Nat.zero_add]
  have hle := Nat.le_mul_of_pos_right (val 1 p) (Nat.pow_pos (n := k) (show 0 < 256 by decide))
  rw [val_add]
  omega

theorem val_injective (h : val n p = val n q) : ∀ i < n, p i = q i := by
  induction n with
  | zero => exact fun _ hi => absurd hi (Nat.not_lt_zero _)
  | succ n ih =>
    rw [val, val] at h
    have hp : (p n).toNat < 256 := UInt8.toNat_lt _
    have hq : (q n).toNat < 256 := UInt8.toNat_lt _
    intro i hi
    rcases Nat.lt_succ_iff_lt_or_eq.mp hi with hlt | rfl
    · exact ih (by omega) i hlt
    · exact UInt8.toNat_inj.mp (by omega)

theorem val_update_ge {x : UInt8} (h : n ≤ k) : val n (Function.update p k x) = val n p :=
  val_congr fun i hi => Function.update_of_ne (by omega) ..

/-- A write of one byte. -/
theorem val_update {x : UInt8} (h : k < n) :
    val n (Function.update p k x) + (p k).toNat * 256 ^ (n - 1 - k) =
      val n p + x.toNat * 256 ^ (n - 1 - k) := by
  induction n with
  | zero => exact absurd h (Nat.not_lt_zero _)
  | succ n ih =>
    rcases Nat.lt_succ_iff_lt_or_eq.mp h with hlt | rfl
    · rw [val, val, Function.update_of_ne (by omega)]
      have hpow : 256 ^ (n + 1 - 1 - k) = 256 * 256 ^ (n - 1 - k) := by
        rw [← Nat.pow_succ']
        congr 1
        omega
      rw [hpow]
      have hstep := ih hlt
      calc val n (Function.update p k x) * 256 + (p n).toNat + (p k).toNat * (256 * 256 ^ (n - 1 - k))
          = (val n (Function.update p k x) + (p k).toNat * 256 ^ (n - 1 - k)) * 256 +
              (p n).toNat := by ring
        _ = val n p * 256 + (p n).toNat + x.toNat * (256 * 256 ^ (n - 1 - k)) := by
          rw [hstep]
          ring
    · rw [val, val, val_update_ge (Nat.le_refl k), Function.update_self]
      have hpow : k + 1 - 1 - k = 0 := by omega
      rw [hpow]
      omega

-- ---------------------------------------------------------------------------
-- Comparison
-- ---------------------------------------------------------------------------

/-- `memcmp`: the first byte that differs decides. -/
def memcmp (p q : ℕ → UInt8) : ℕ → Ordering
  | 0 => .eq
  | n + 1 => (memcmp p q n).then (compare (p n).toNat (q n).toNat)

theorem memcmp_eq (p q : ℕ → UInt8) (n : ℕ) : memcmp p q n = compare (val n p) (val n q) := by
  induction n with
  | zero => rfl
  | succ n ih =>
    have hp : (p n).toNat < 256 := UInt8.toNat_lt _
    have hq : (q n).toNat < 256 := UInt8.toNat_lt _
    rw [memcmp, ih, val, val]
    rcases Nat.lt_trichotomy (val n p) (val n q) with hlt | heq | hgt
    · have hlow : compare (val n p * 256 + (p n).toNat) (val n q * 256 + (q n).toNat) = .lt :=
        Nat.compare_eq_lt.mpr (by omega)
      rw [Nat.compare_eq_lt.mpr hlt, hlow]
      rfl
    · rw [heq, Nat.compare_eq_eq.mpr rfl, Ordering.then]
      rcases Nat.lt_trichotomy (p n).toNat (q n).toNat with h | h | h
      · rw [Nat.compare_eq_lt.mpr h, Nat.compare_eq_lt.mpr (by omega)]
      · rw [Nat.compare_eq_eq.mpr h, Nat.compare_eq_eq.mpr (by omega)]
      · rw [Nat.compare_eq_gt.mpr h, Nat.compare_eq_gt.mpr (by omega)]
    · have hhigh : compare (val n p * 256 + (p n).toNat) (val n q * 256 + (q n).toNat) = .gt :=
        Nat.compare_eq_gt.mpr (by omega)
      rw [Nat.compare_eq_gt.mpr hgt, hhigh]
      rfl

-- ---------------------------------------------------------------------------
-- Addition
-- ---------------------------------------------------------------------------

/-- The bytes `n - 1` to 0 of `p`, plus those of `q` and the carry. -/
def addLoop (q : ℕ → UInt8) : ℕ → (ℕ → UInt8) × ℕ → (ℕ → UInt8) × ℕ
  | 0, s => s
  | n + 1, (p, carry) =>
    addLoop q n (Function.update p n (UInt8.ofNat ((p n).toNat + (q n).toNat + carry)),
      ((p n).toNat + (q n).toNat + carry) / 256)

theorem addLoop_ge (s : (ℕ → UInt8) × ℕ) (h : n ≤ k) : (addLoop q n s).1 k = s.1 k := by
  induction n generalizing s with
  | zero => rfl
  | succ n ih =>
    obtain ⟨p, carry⟩ := s
    rw [addLoop]
    exact (ih _ (by omega)).trans (Function.update_of_ne (by omega) ..)

theorem addLoop_val {carry : ℕ} (hc : carry ≤ 1) :
    val n (addLoop q n (p, carry)).1 + (addLoop q n (p, carry)).2 * 256 ^ n =
      val n p + val n q + carry ∧ (addLoop q n (p, carry)).2 ≤ 1 := by
  induction n generalizing p carry with
  | zero =>
    refine ⟨?_, hc⟩
    simp only [addLoop, val, Nat.pow_zero]
    omega
  | succ n ih =>
    have hp : (p n).toNat < 256 := UInt8.toNat_lt _
    have hq : (q n).toNat < 256 := UInt8.toNat_lt _
    have hsplit := Nat.mod_add_div ((p n).toNat + (q n).toNat + carry) 256
    obtain ⟨hval, hle⟩ := ih (p := Function.update p n
      (UInt8.ofNat ((p n).toNat + (q n).toNat + carry)))
      (show ((p n).toNat + (q n).toNat + carry) / 256 ≤ 1 by omega)
    rw [addLoop]
    refine ⟨?_, hle⟩
    rw [val_update_ge (Nat.le_refl n)] at hval
    simp only [val, addLoop_ge _ (Nat.le_refl n), Function.update_self, UInt8.toNat_ofNat']
    rw [show 2 ^ 8 = 256 from rfl, Nat.pow_succ, ← Nat.mul_assoc]
    omega

-- ---------------------------------------------------------------------------
-- Subtraction
-- ---------------------------------------------------------------------------

/-- The bytes `n - 1` to 0 of `p`, less those of `q` and the borrow. -/
def subLoop (q : ℕ → UInt8) : ℕ → (ℕ → UInt8) × ℕ → (ℕ → UInt8) × ℕ
  | 0, s => s
  | n + 1, (p, borrow) =>
    if (p n).toNat < (q n).toNat + borrow then
      subLoop q n
        (Function.update p n (UInt8.ofNat ((p n).toNat + 256 - (q n).toNat - borrow)), 1)
    else subLoop q n (Function.update p n (UInt8.ofNat ((p n).toNat - (q n).toNat - borrow)), 0)

theorem subLoop_ge (s : (ℕ → UInt8) × ℕ) (h : n ≤ k) : (subLoop q n s).1 k = s.1 k := by
  induction n generalizing s with
  | zero => rfl
  | succ n ih =>
    obtain ⟨p, borrow⟩ := s
    have hne : k ≠ n := by omega
    rw [subLoop]
    split
    · exact (ih _ (by omega)).trans (Function.update_of_ne hne ..)
    · exact (ih _ (by omega)).trans (Function.update_of_ne hne ..)

theorem subLoop_val {borrow : ℕ} (hb : borrow ≤ 1) :
    val n (subLoop q n (p, borrow)).1 + val n q + borrow =
      val n p + (subLoop q n (p, borrow)).2 * 256 ^ n ∧ (subLoop q n (p, borrow)).2 ≤ 1 := by
  induction n generalizing p borrow with
  | zero =>
    refine ⟨?_, hb⟩
    simp only [subLoop, val, Nat.pow_zero]
    omega
  | succ n ih =>
    have hp : (p n).toNat < 256 := UInt8.toNat_lt _
    have hq : (q n).toNat < 256 := UInt8.toNat_lt _
    rw [subLoop]
    split
    · rename_i hlt
      obtain ⟨hval, hle⟩ := ih (p := Function.update p n
        (UInt8.ofNat ((p n).toNat + 256 - (q n).toNat - borrow))) (Nat.le_refl 1)
      refine ⟨?_, hle⟩
      rw [val_update_ge (Nat.le_refl n)] at hval
      simp only [val, subLoop_ge _ (Nat.le_refl n), Function.update_self, UInt8.toNat_ofNat']
      rw [Nat.mod_eq_of_lt (by omega), Nat.pow_succ, ← Nat.mul_assoc]
      omega
    · rename_i hge
      obtain ⟨hval, hle⟩ := ih (p := Function.update p n
        (UInt8.ofNat ((p n).toNat - (q n).toNat - borrow))) (Nat.zero_le 1)
      refine ⟨?_, hle⟩
      rw [val_update_ge (Nat.le_refl n)] at hval
      simp only [val, subLoop_ge _ (Nat.le_refl n), Function.update_self, UInt8.toNat_ofNat']
      rw [Nat.mod_eq_of_lt (by omega), Nat.pow_succ, ← Nat.mul_assoc]
      omega

def sub (n : ℕ) (p q : ℕ → UInt8) : ℕ → UInt8 := (subLoop q n (p, 0)).1

theorem sub_val (h : val n q ≤ val n p) : val n (sub n p q) = val n p - val n q := by
  obtain ⟨hval, hle⟩ := subLoop_val (q := q) (p := p) (n := n) (Nat.zero_le 1)
  have hlt := val_lt n (subLoop q n (p, 0)).1
  have hlt' : (subLoop q n (p, 0)).2 = 0 := by
    by_contra hne
    have hone : (subLoop q n (p, 0)).2 = 1 := by omega
    rw [hone] at hval
    omega
  rw [hlt'] at hval
  rw [sub]
  omega

-- ---------------------------------------------------------------------------
-- Multiplication
-- ---------------------------------------------------------------------------

/-- One row of the product: the bytes `j - 1` to 0 of `b` times `x`, added to `p` with the
byte at `i + j` as the last one, and the carry. -/
def mulRow (x : UInt8) (b : ℕ → UInt8) (i : ℕ) : ℕ → (ℕ → UInt8) × ℕ → (ℕ → UInt8) × ℕ
  | 0, s => s
  | j + 1, (p, carry) =>
    mulRow x b i j (Function.update p (i + j + 1)
      (UInt8.ofNat (x.toNat * (b j).toNat + (p (i + j + 1)).toNat + carry)),
      (x.toNat * (b j).toNat + (p (i + j + 1)).toNat + carry) / 256)

theorem mulRow_val {x : UInt8} {b : ℕ → UInt8} {N i j c : ℕ} (h : i + j < N) :
    val N (mulRow x b i j (p, c)).1 + (mulRow x b i j (p, c)).2 * 256 ^ (N - 1 - i) =
      val N p + (c + x.toNat * val j b) * 256 ^ (N - 1 - (i + j)) := by
  induction j generalizing p c with
  | zero => rw [mulRow, val, Nat.mul_zero, Nat.add_zero]; rfl
  | succ j ih =>
    have hw : 256 ^ (N - 1 - (i + j)) = 256 * 256 ^ (N - 1 - (i + (j + 1))) := by
      rw [← Nat.pow_succ']
      congr 1
      omega
    have hup := val_update (p := p) (k := i + j + 1) (n := N)
      (x := UInt8.ofNat (x.toNat * (b j).toNat + (p (i + j + 1)).toNat + c)) (by omega)
    have hsplit := Nat.mod_add_div (x.toNat * (b j).toNat + (p (i + j + 1)).toNat + c) 256
    rw [mulRow, ih (by omega), hw, val]
    rw [UInt8.toNat_ofNat', show 2 ^ 8 = 256 from rfl] at hup
    generalize 256 ^ (N - 1 - (i + (j + 1))) = w at hup ⊢
    generalize (x.toNat * (b j).toNat + (p (i + j + 1)).toNat + c) / 256 = high at hsplit ⊢
    generalize (x.toNat * (b j).toNat + (p (i + j + 1)).toNat + c) % 256 = low at hsplit hup ⊢
    refine Nat.add_right_cancel (m := (p (i + j + 1)).toNat * w) ?_
    calc _ = (val N (Function.update p (i + j + 1) _) + (p (i + j + 1)).toNat * w) +
            high * (256 * w) + x.toNat * val j b * (256 * w) := by ring
      _ = val N p + (low + 256 * high) * w + x.toNat * val j b * (256 * w) := by
        rw [hup]
        ring
      _ = _ := by
        rw [hsplit]
        ring

/-- The carry that is left is added from byte `k - 1` on upwards. -/
def carryUp : ℕ → (ℕ → UInt8) × ℕ → ℕ → UInt8
  | 0, (p, _) => p
  | k + 1, (p, carry) =>
    if carry = 0 then p
    else carryUp k (Function.update p k (UInt8.ofNat ((p k).toNat + carry)),
      ((p k).toNat + carry) / 256)

theorem carryUp_val {N carry : ℕ} (h : k ≤ N) (hfits : val N p + carry * 256 ^ (N - k) < 256 ^ N) :
    val N (carryUp k (p, carry)) = val N p + carry * 256 ^ (N - k) := by
  induction k generalizing p carry with
  | zero =>
    rw [Nat.sub_zero] at hfits ⊢
    have hzero : carry = 0 := by
      by_contra hne
      have hle := Nat.le_mul_of_pos_left (256 ^ N) (Nat.pos_of_ne_zero hne)
      omega
    rw [carryUp, hzero, Nat.zero_mul, Nat.add_zero]
  | succ k ih =>
    rw [carryUp]
    split
    · rename_i hzero
      rw [hzero, Nat.zero_mul, Nat.add_zero]
    · have hw : 256 ^ (N - k) = 256 * 256 ^ (N - (k + 1)) := by
        rw [← Nat.pow_succ']
        congr 1
        omega
      have hup := val_update (p := p) (k := k) (n := N) (x := UInt8.ofNat ((p k).toNat + carry))
        (by omega)
      have hsplit := Nat.mod_add_div ((p k).toNat + carry) 256
      have hexp : N - 1 - k = N - (k + 1) := by omega
      rw [UInt8.toNat_ofNat', show 2 ^ 8 = 256 from rfl, hexp] at hup
      have hsame : val N (Function.update p k (UInt8.ofNat ((p k).toNat + carry))) +
          ((p k).toNat + carry) / 256 * 256 ^ (N - k) =
            val N p + carry * 256 ^ (N - (k + 1)) := by
        rw [hw]
        generalize 256 ^ (N - (k + 1)) = w at hup ⊢
        generalize ((p k).toNat + carry) / 256 = high at hsplit ⊢
        generalize ((p k).toNat + carry) % 256 = low at hsplit hup
        refine Nat.add_right_cancel (m := (p k).toNat * w) ?_
        calc _ = (val N (Function.update p k _) + (p k).toNat * w) + high * (256 * w) := by ring
          _ = val N p + (low + 256 * high) * w := by
            rw [hup]
            ring
          _ = _ := by
            rw [hsplit]
            ring
      rw [ih (by omega) (by rw [hsame]; exact hfits), hsame]

/-- The product: the rows `i - 1` to 0 are added to `p`. -/
def mulRows (a b : ℕ → UInt8) (n : ℕ) : ℕ → (ℕ → UInt8) → ℕ → UInt8
  | 0, p => p
  | i + 1, p => mulRows a b n i (carryUp (i + 1) (mulRow (a i) b i n (p, 0)))

theorem mulRows_val {a b : ℕ → UInt8} {i : ℕ} (h : i ≤ n)
    (hfits : val (n + n) p + val i a * val n b * 256 ^ (n - i) < 256 ^ (n + n)) :
    val (n + n) (mulRows a b n i p) = val (n + n) p + val i a * val n b * 256 ^ (n - i) := by
  induction i generalizing p with
  | zero => rw [mulRows, val, Nat.zero_mul, Nat.zero_mul, Nat.add_zero]
  | succ i ih =>
    have hw : 256 ^ (n - i) = 256 * 256 ^ (n - (i + 1)) := by
      rw [← Nat.pow_succ']
      congr 1
      omega
    have hrow := mulRow_val (p := p) (x := a i) (b := b) (N := n + n) (i := i) (j := n) (c := 0)
      (by omega)
    have hexp : n + n - 1 - (i + n) = n - (i + 1) := by omega
    have hexp' : n + n - 1 - i = n + n - (i + 1) := by omega
    rw [hexp, hexp', Nat.zero_add] at hrow
    have hsplit : val (i + 1) a * val n b * 256 ^ (n - (i + 1)) =
        (a i).toNat * val n b * 256 ^ (n - (i + 1)) + val i a * val n b * 256 ^ (n - i) := by
      rw [val, hw]
      ring
    rw [hsplit] at hfits ⊢
    have hcarry : val (n + n) (carryUp (i + 1) (mulRow (a i) b i n (p, 0))) = _ :=
      (carryUp_val (by omega) (by rw [hrow]; omega)).trans hrow
    rw [mulRows, ih (by omega) (by rw [hcarry]; omega), hcarry, Nat.add_assoc]

/-- Schoolbook multiplication of two numbers of `n` bytes. -/
def mul (n : ℕ) (a b : ℕ → UInt8) : ℕ → UInt8 := mulRows a b n n fun _ => 0

theorem mul_val (n : ℕ) (a b : ℕ → UInt8) : val (n + n) (mul n a b) = val n a * val n b := by
  have hzero : val (n + n) (fun _ => 0) = 0 := val_zero fun _ _ => rfl
  have hfits : val n a * val n b < 256 ^ (n + n) := by
    rw [Nat.pow_add]
    exact Nat.mul_lt_mul'' (val_lt n a) (val_lt n b)
  have hrows := mulRows_val (a := a) (b := b) (p := fun _ => 0) (Nat.le_refl n)
    (by rw [hzero, Nat.sub_self, Nat.pow_zero, Nat.mul_one, Nat.zero_add]; exact hfits)
  rw [mul, hrows, hzero, Nat.sub_self, Nat.pow_zero, Nat.mul_one, Nat.zero_add]

end BigEndian
