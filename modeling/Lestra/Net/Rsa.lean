import Mathlib.Data.Nat.ModEq
import Mathlib.Data.Nat.Bitwise
import Lestra.Lib.FirstFit
import Lestra.Lib.ShiftReduce

/-!
# RSA signature verification

`kernel/net/rsa.c`: modular arithmetic on numbers of 256 bytes, most significant byte
first, and the check of a PKCS#1 v1.5 signature. The exponent is walked from byte 0 on as
if that were its least significant byte, so what is computed is a power of the base, but
in general another one.
-/

namespace Lestra

open BigEndian

-- ---------------------------------------------------------------------------
-- Modular multiplication
-- ---------------------------------------------------------------------------

/-- `while (memcmp(prod, mshift, 512) >= 0)`. With a zero `mshift` the loop does not end,
which is `none`. -/
def subWhile (mshift prod : ℕ → UInt8) : Option (ℕ → UInt8) :=
  if memcmp prod mshift 512 = .lt then some prod
  else if val 512 mshift = 0 then none
  else subWhile mshift (sub 512 prod mshift)
termination_by val 512 prod
decreasing_by
  rename_i hge hne
  rw [memcmp_eq, Nat.compare_eq_lt] at hge
  rw [sub_val (by omega)]
  omega

/-- The modulus at byte `shift` of an array of 512 bytes. -/
def mshift (m : ℕ → UInt8) (shift : ℕ) : ℕ → UInt8 := fun k =>
  if shift ≤ k ∧ k < shift + 256 then m (k - shift) else 0

/-- The loop over `shift`, from `shift - 1` down to 0. -/
def reduceLoop (m : ℕ → UInt8) : ℕ → (ℕ → UInt8) → Option (ℕ → UInt8)
  | 0, prod => some prod
  | shift + 1, prod => (subWhile (mshift m shift) prod).bind (reduceLoop m shift)

def bnModMul (a b m : ℕ → UInt8) : Option (ℕ → UInt8) :=
  (reduceLoop m 257 (mul 256 a b)).map fun prod i => prod (256 + i)

theorem subWhile_eq (mshift prod : ℕ → UInt8) :
    subWhile mshift prod = ShiftReduce.subWhile 512 mshift prod := by
  fun_induction subWhile mshift prod with
  | case1 prod hlt => rw [ShiftReduce.subWhile, if_pos hlt]
  | case2 prod hge hzero => rw [ShiftReduce.subWhile, if_neg hge, if_pos hzero]
  | case3 prod hge hzero ih => rw [ih, ShiftReduce.subWhile.eq_def 512 mshift prod, if_neg hge, if_neg hzero]

theorem reduceLoop_eq (m : ℕ → UInt8) (shift : ℕ) (prod : ℕ → UInt8) :
    reduceLoop m shift prod = ShiftReduce.reduceLoop 256 m shift prod := by
  induction shift generalizing prod with
  | zero => rfl
  | succ shift ih =>
    rw [reduceLoop, ShiftReduce.reduceLoop, subWhile_eq, funext ih]
    rfl

theorem bnModMul_eq (a b m : ℕ → UInt8) : bnModMul a b m = ShiftReduce.modMul 256 a b m := by
  rw [bnModMul, ShiftReduce.modMul, reduceLoop_eq]

theorem bnModMul_val {m : ℕ → UInt8} (hm : 0 < val 256 m) (a b : ℕ → UInt8) :
    ∃ r, bnModMul a b m = some r ∧ val 256 r = val 256 a * val 256 b % val 256 m := by
  rw [bnModMul_eq]
  exact ShiftReduce.modMul_val hm a b

-- ---------------------------------------------------------------------------
-- Modular exponentiation
-- ---------------------------------------------------------------------------

def bnIsZero (a : ℕ → UInt8) : Bool := (List.range 256).all fun i => a i == 0

def bnOne : ℕ → UInt8 := fun i => if i = 255 then 1 else 0

/-- `(exp[pos / 8] >> (pos % 8)) & 1`. -/
def expBit (exp : ℕ → UInt8) (pos : ℕ) : Bool := (exp (pos / 8)).toNat.testBit (pos % 8)

/-- The first byte that is not zero, and the highest bit that is set in it. -/
def expStart (exp : ℕ → UInt8) : Option ℕ :=
  (List.range 256).findSome? fun i =>
    (List.range 8).findSome? fun k =>
      if expBit exp (i * 8 + (7 - k)) then some (i * 8 + (7 - k)) else none

/-- The loop over `pos`, from `pos - 1` down to 0. -/
def expLoop (base exp m : ℕ → UInt8) : ℕ → (ℕ → UInt8) → Option (ℕ → UInt8)
  | 0, result => some result
  | pos + 1, result =>
    (bnModMul result result m).bind fun square =>
      if expBit exp pos then (bnModMul square base m).bind (expLoop base exp m pos)
      else expLoop base exp m pos square

def bnModExp (base exp m : ℕ → UInt8) : Option (ℕ → UInt8) :=
  if bnIsZero exp then some bnOne
  else
    match expStart exp with
    | none => some bnOne
    | some start => expLoop base exp m (start + 1) bnOne

/-- The number of the bits that the loop tests from position `n - 1` down. -/
def walked (exp : ℕ → UInt8) : ℕ → ℕ
  | 0 => 0
  | n + 1 => walked exp n + (expBit exp n).toNat * 2 ^ n

/-- The power that the base is raised to: the first byte that is not zero, as the digit of
its own index. -/
def walkedExp (exp : ℕ → UInt8) : ℕ :=
  match (List.range 256).findSome? fun i => if exp i = 0 then none else some i with
  | none => 0
  | some i => (exp i).toNat * 256 ^ i

theorem expBit_byte (exp : ℕ → UInt8) {i k : ℕ} (hk : k < 8) :
    expBit exp (i * 8 + k) = (exp i).toNat.testBit k := by
  have hdiv : (i * 8 + k) / 8 = i := by omega
  have hmod : (i * 8 + k) % 8 = k := by omega
  rw [expBit, hdiv, hmod]

theorem byte_lt_of_bits {x : UInt8} {n : ℕ} (h : ∀ k, n ≤ k → k < 8 → x.toNat.testBit k = false) :
    x.toNat < 2 ^ n := by
  refine Nat.lt_pow_two_of_testBit x.toNat fun k hk => ?_
  by_cases hlt : k < 8
  · exact h k hk hlt
  · have hx : x.toNat < 2 ^ 8 := UInt8.toNat_lt x
    exact Nat.testBit_lt_two_pow (hx.trans_le (Nat.pow_le_pow_right (by omega) (by omega)))

theorem byte_eq_zero_of_bits {exp : ℕ → UInt8} {i : ℕ}
    (h : ∀ k < 8, expBit exp (i * 8 + k) = false) : exp i = 0 := by
  have hlt := byte_lt_of_bits (x := exp i) (n := 0) fun k _ hk => expBit_byte exp hk ▸ h k hk
  exact UInt8.toNat_inj.mp (by simpa using hlt)

theorem walked_zero {exp : ℕ → UInt8} {i : ℕ} (h : ∀ j < i, exp j = 0) : walked exp (i * 8) = 0 := by
  have hbits : ∀ n ≤ i * 8, walked exp n = 0 := fun n => by
    induction n with
    | zero => exact fun _ => rfl
    | succ n ih =>
      intro hn
      rw [walked, ih (by omega), expBit, h (n / 8) (by omega), UInt8.toNat_zero, Nat.zero_testBit,
        Bool.toNat_false, Nat.zero_mul]
  exact hbits _ (Nat.le_refl _)

theorem walked_byte (exp : ℕ → UInt8) {i k : ℕ} (hk : k ≤ 8) :
    walked exp (i * 8 + k) = walked exp (i * 8) + (exp i).toNat % 2 ^ k * 2 ^ (i * 8) := by
  induction k with
  | zero => rw [Nat.add_zero, Nat.pow_zero, Nat.mod_one, Nat.zero_mul, Nat.add_zero]
  | succ k ih =>
    rw [← Nat.add_assoc, walked, ih (by omega), expBit_byte exp (by omega), Nat.mod_pow_succ,
      Nat.toNat_testBit, Nat.pow_add]
    ring

/-- What the search for the first bit finds. -/
theorem expStart_some {exp : ℕ → UInt8} {start : ℕ} (h : expStart exp = some start) :
    walked exp (start + 1) = walkedExp exp := by
  obtain ⟨i, hi, hfound, hbefore⟩ := FirstFit.findSome_range_some.mp h
  obtain ⟨k, hk, hbit, habove⟩ := FirstFit.findSome_range_some.mp hfound
  have hzero : ∀ j < i, exp j = 0 := fun j hj => by
    refine byte_eq_zero_of_bits fun l hl => ?_
    have hnone := FirstFit.findSome_range_none.mp (hbefore j hj) (7 - l) (by omega)
    rw [ite_eq_right_iff] at hnone
    have hl' : 7 - (7 - l) = l := by omega
    rw [hl'] at hnone
    exact Bool.eq_false_iff.mpr fun hset => Option.some_ne_none _ (hnone hset)
  have hbit' : expBit exp (i * 8 + (7 - k)) = true ∧ i * 8 + (7 - k) = start := by
    split at hbit
    · exact ⟨by assumption, Option.some.inj hbit⟩
    · exact absurd hbit (by simp)
  have hne : exp i ≠ 0 := by
    intro hexp
    have hset := hbit'.1
    rw [expBit_byte exp (by omega), hexp, UInt8.toNat_zero, Nat.zero_testBit] at hset
    exact Bool.false_ne_true hset
  have hlt : (exp i).toNat < 2 ^ (8 - k) := by
    refine byte_lt_of_bits fun l hl hl8 => ?_
    have hnone := habove (7 - l) (by omega)
    rw [ite_eq_right_iff] at hnone
    have hl' : 7 - (7 - l) = l := by omega
    rw [hl'] at hnone
    rw [← expBit_byte exp hl8]
    exact Bool.eq_false_iff.mpr fun hset => Option.some_ne_none _ (hnone hset)
  have hfirst : ((List.range 256).findSome? fun i => if exp i = 0 then none else some i) =
      some i :=
    FirstFit.findSome_range_some.mpr
      ⟨i, hi, if_neg hne, fun j hj => if_pos (hzero j hj)⟩
  have hpos : start + 1 = i * 8 + (8 - k) := by omega
  have hpow : 2 ^ (i * 8) = 256 ^ i := by
    rw [Nat.mul_comm, Nat.pow_mul]
  rw [walkedExp, hfirst, hpos, walked_byte exp (by omega), walked_zero hzero, Nat.zero_add,
    Nat.mod_eq_of_lt hlt, hpow]

theorem expStart_none {exp : ℕ → UInt8} (h : expStart exp = none) : ∀ i < 256, exp i = 0 := by
  intro i hi
  refine byte_eq_zero_of_bits fun l hl => ?_
  have hnone := FirstFit.findSome_range_none.mp
    (FirstFit.findSome_range_none.mp h i hi) (7 - l) (by omega)
  rw [ite_eq_right_iff] at hnone
  have hl' : 7 - (7 - l) = l := by omega
  rw [hl'] at hnone
  exact Bool.eq_false_iff.mpr fun hset => Option.some_ne_none _ (hnone hset)

theorem walkedExp_zero {exp : ℕ → UInt8} (h : ∀ i < 256, exp i = 0) : walkedExp exp = 0 := by
  have hnone : ((List.range 256).findSome? fun i => if exp i = 0 then none else some i) = none :=
    FirstFit.findSome_range_none.mpr fun i hi => if_pos (h i hi)
  rw [walkedExp, hnone]

/-- One turn squares, and multiplies where the bit is set. -/
theorem expLoop_val {m : ℕ → UInt8} (hm : 0 < val 256 m) (base exp : ℕ → UInt8) (n : ℕ)
    (result : ℕ → UInt8) : ∃ r, expLoop base exp m n result = some r ∧
      val 256 r ≡ val 256 result ^ 2 ^ n * val 256 base ^ walked exp n [MOD val 256 m] ∧
      (val 256 result < val 256 m → val 256 r < val 256 m) := by
  induction n generalizing result with
  | zero =>
    refine ⟨result, rfl, ?_, id⟩
    rw [walked, Nat.pow_zero, Nat.pow_zero, Nat.pow_one, Nat.mul_one]
  | succ n ih =>
    obtain ⟨square, hsquare, hsval⟩ := bnModMul_val hm result result
    have hsq : val 256 square ≡ val 256 result ^ 2 [MOD val 256 m] := by
      rw [hsval, Nat.pow_two]
      exact Nat.mod_modEq ..
    rw [expLoop, hsquare, Option.bind_some]
    cases hbit : expBit exp n with
    | false =>
      obtain ⟨r, hr, hval, hlt⟩ := ih square
      refine ⟨r, hr, hval.trans ?_, fun _ => hlt ?_⟩
      · rw [walked, hbit, Bool.toNat_false, Nat.zero_mul, Nat.add_zero, Nat.pow_succ', Nat.pow_mul]
        exact (hsq.pow _).mul_right _
      · rw [hsval]
        exact Nat.mod_lt _ hm
    | true =>
      obtain ⟨next, hnext, hnval⟩ := bnModMul_val hm square base
      obtain ⟨r, hr, hval, hlt⟩ := ih next
      have hstep : val 256 next ≡ val 256 result ^ 2 * val 256 base [MOD val 256 m] := by
        rw [hnval]
        exact (Nat.mod_modEq ..).trans (hsq.mul_right _)
      refine ⟨r, ?_, hval.trans ?_, fun _ => hlt ?_⟩
      · rw [if_pos rfl, hnext]
        exact hr
      · have hpow : val 256 result ^ 2 ^ (n + 1) * val 256 base ^ walked exp (n + 1) =
            (val 256 result ^ 2 * val 256 base) ^ 2 ^ n * val 256 base ^ walked exp n := by
          rw [walked, hbit, Bool.toNat_true, Nat.one_mul, Nat.mul_pow, ← Nat.pow_mul,
            ← Nat.pow_succ', Nat.pow_add]
          ring
        rw [hpow]
        exact (hstep.pow _).mul_right _
      · rw [hnval]
        exact Nat.mod_lt _ hm

theorem bnOne_val : val 256 bnOne = 1 := by
  have hlow : val 255 bnOne = 0 := val_zero fun i hi => if_neg (by omega)
  rw [val, hlow]
  rfl

theorem bnModExp_val {m : ℕ → UInt8} (hm : 1 < val 256 m) (base exp : ℕ → UInt8) :
    ∃ r, bnModExp base exp m = some r ∧
      val 256 r = val 256 base ^ walkedExp exp % val 256 m := by
  have hone : val 256 bnOne < val 256 m := by rw [bnOne_val]; exact hm
  have hpow0 : val 256 base ^ 0 % val 256 m = val 256 bnOne := by
    rw [Nat.pow_zero, bnOne_val, Nat.mod_eq_of_lt hm]
  rw [bnModExp]
  split
  · rename_i hzero
    have hall : ∀ i < 256, exp i = 0 := by simpa [bnIsZero] using hzero
    exact ⟨bnOne, rfl, by rw [walkedExp_zero hall, hpow0]⟩
  · split
    · rename_i hstart
      exact ⟨bnOne, rfl, by rw [walkedExp_zero (expStart_none hstart), hpow0]⟩
    · rename_i start hstart
      obtain ⟨r, hr, hval, hlt⟩ := expLoop_val (Nat.zero_lt_of_lt hm) base exp (start + 1) bnOne
      refine ⟨r, hr, ?_⟩
      rw [bnOne_val, Nat.one_pow, Nat.one_mul, expStart_some hstart] at hval
      rw [← Nat.mod_eq_of_lt (hlt hone)]
      exact hval

-- ---------------------------------------------------------------------------
-- The signature
-- ---------------------------------------------------------------------------

/-- The four bytes of a public exponent, at the end of a number. -/
def exponentBytes (e : UInt32) : ℕ → UInt8 :=
  Function.update (Function.update (Function.update (Function.update (fun _ => 0)
    255 (e &&& 0xFF).toUInt8) 254 ((e >>> 8) &&& 0xFF).toUInt8)
    253 ((e >>> 16) &&& 0xFF).toUInt8) 252 ((e >>> 24) &&& 0xFF).toUInt8

def digestInfoSha256 : List UInt8 :=
  [0x30, 0x31, 0x30, 0x0D, 0x06, 0x09, 0x60, 0x86, 0x48, 0x01, 0x65, 0x03, 0x04, 0x02, 0x01, 0x05,
    0x00, 0x04, 0x20]

/-- The buffer `expected`. -/
def expectedBytes (hash : ℕ → UInt8) : ℕ → UInt8 := fun i =>
  if i = 0 then 0x00
  else if i = 1 then 0x01
  else if i < 204 then 0xFF
  else if i = 204 then 0x00
  else if i < 224 then digestInfoSha256.getD (i - 205) 0
  else hash (i - 224)

/-- The bits in which two numbers differ, of all bytes together. -/
def bnDiff (m expected : ℕ → UInt8) (n : ℕ) : UInt8 :=
  (List.range n).foldl (fun diff i => diff ||| (m i ^^^ expected i)) 0

def rsaVerifyPkcs1V15 (hash sig n : ℕ → UInt8) (e : UInt32) : Option ℕ :=
  (bnModExp sig (exponentBytes e) n).map fun m =>
    if bnDiff m (expectedBytes hash) 256 = 0 then 1 else 0

/-- What stands before the hash in EMSA-PKCS1-v1_5 of 256 bytes: 00 01, the padding, 00 and
the `DigestInfo`. -/
def emsaHead : List UInt8 :=
  [0x00, 0x01] ++ List.replicate (256 - (digestInfoSha256.length + 32) - 3) 0xFF ++ [0x00] ++
    digestInfoSha256

def emsaPkcs1 (hash : ℕ → UInt8) : List UInt8 := emsaHead ++ (List.range 32).map hash

/-- The number that the encoded message stands for. -/
def emsaNumber (hash : ℕ → UInt8) : ℕ := val 256 fun i => (emsaPkcs1 hash).getD i 0

theorem exponentBytes_val (e : UInt32) : val 256 (exponentBytes e) = e.toNat := by
  have hlow : val 252 (exponentBytes e) = 0 := val_zero fun i hi => by
    simp only [exponentBytes]
    rw [Function.update_of_ne (by omega), Function.update_of_ne (by omega),
      Function.update_of_ne (by omega), Function.update_of_ne (by omega)]
  have he : e.toNat < 2 ^ 32 := UInt32.toNat_lt e
  have hsplit : val 256 (exponentBytes e) = _ := val_add 252 4 (exponentBytes e)
  rw [hsplit, hlow]
  have hand : ∀ x : ℕ, x &&& 255 = x % 256 := fun x => Nat.and_two_pow_sub_one_eq_mod x 8
  simp [val, exponentBytes, UInt32.toNat_shiftRight, hand, Nat.shiftRight_eq_div_pow]
  omega

theorem expectedBytes_eq (hash : ℕ → UInt8) {i : ℕ} (hi : i < 256) :
    expectedBytes hash i = (emsaPkcs1 hash).getD i 0 := by
  -- The bytes before the hash are the same for every hash.
  have hall : (List.range 224).map (expectedBytes fun _ => 0) = emsaHead := by decide +kernel
  have hlen : emsaHead.length = 224 := rfl
  have hhead : ∀ i < 224, expectedBytes (fun _ => 0) i = emsaHead.getD i 0 := fun i hlt => by
    rw [← hall, List.getD_eq_getElem?_getD, List.getElem?_map, List.getElem?_range hlt]
    rfl
  rcases Nat.lt_or_ge i 224 with hlt | hge
  · have hsame : expectedBytes hash i = expectedBytes (fun _ => 0) i := by
      simp only [expectedBytes, if_pos hlt]
    rw [hsame, hhead i hlt, emsaPkcs1, List.getD_append _ _ _ _ (by rw [hlen]; exact hlt)]
  · have hhash : expectedBytes hash i = hash (i - 224) := by
      rw [expectedBytes, if_neg (by omega), if_neg (by omega), if_neg (by omega),
        if_neg (by omega), if_neg (by omega)]
    rw [hhash, emsaPkcs1, List.getD_append_right _ _ _ _ (by rw [hlen]; exact hge), hlen,
      List.getD_eq_getElem?_getD, List.getElem?_map, List.getElem?_range (by omega)]
    rfl

theorem bnDiff_eq_zero {m expected : ℕ → UInt8} {n : ℕ} :
    bnDiff m expected n = 0 ↔ ∀ i < n, m i = expected i := by
  induction n with
  | zero => simp [bnDiff]
  | succ n ih =>
    have hstep : bnDiff m expected (n + 1) = bnDiff m expected n ||| (m n ^^^ expected n) := by
      rw [bnDiff, List.range_succ, List.foldl_append]
      rfl
    rw [hstep, UInt8.or_eq_zero_iff, ih, UInt8.xor_eq_zero_iff]
    constructor
    · rintro ⟨hall, hlast⟩ i hi
      rcases Nat.lt_succ_iff_lt_or_eq.mp hi with hlt | rfl
      · exact hall i hlt
      · exact hlast
    · exact fun hall => ⟨fun i hi => hall i (by omega), hall n (by omega)⟩

theorem rsaVerify_val {n : ℕ → UInt8} (hn : 1 < val 256 n) (hash sig : ℕ → UInt8) (e : UInt32) :
    ∃ v, rsaVerifyPkcs1V15 hash sig n e = some v ∧
      (v = 1 ↔ val 256 sig ^ walkedExp (exponentBytes e) % val 256 n = emsaNumber hash) := by
  obtain ⟨m, hm, hval⟩ := bnModExp_val hn sig (exponentBytes e)
  have hsame : (∀ i < 256, m i = expectedBytes hash i) ↔ val 256 m = emsaNumber hash := by
    rw [emsaNumber, ← val_congr fun i hi => expectedBytes_eq hash hi]
    exact ⟨val_congr, val_injective⟩
  refine ⟨_, by rw [rsaVerifyPkcs1V15, hm]; rfl, ?_⟩
  rw [← hval, ← hsame, ← bnDiff_eq_zero]
  dsimp only
  split
  · next h => simp [h]
  · next h => simp [h]

-- ---------------------------------------------------------------------------
-- When the power is the one that is asked for
-- ---------------------------------------------------------------------------

/-- `bn_mod_exp` gives `base ^ exp` modulo `m`. -/
def ModExpRight (base exp m : ℕ → UInt8) : Prop :=
  ∃ r, bnModExp base exp m = some r ∧ val 256 r = val 256 base ^ val 256 exp % val 256 m

/-- The check of a signature returns 1 exactly when `sig ^ e` modulo `n` is the encoded
message. -/
def VerifyRight (hash sig n : ℕ → UInt8) (e : UInt32) : Prop :=
  ∃ v, rsaVerifyPkcs1V15 hash sig n e = some v ∧
    (v = 1 ↔ val 256 sig ^ e.toNat % val 256 n = emsaNumber hash)

/--
**The exponent counts from its first byte.** What is computed is the power whose exponent
is the first byte that is not zero, times 256 to its index: the result is right exactly
when that power and the one that is asked for agree modulo `m`, and a signature is judged
rightly exactly when both or neither of the two powers is the encoded message.
-/
theorem rsa_right_iff {base exp m sig n : ℕ → UInt8} (hm : 1 < val 256 m) (hn : 1 < val 256 n)
    (hash : ℕ → UInt8) (e : UInt32) :
    (ModExpRight base exp m ↔
      val 256 base ^ walkedExp exp ≡ val 256 base ^ val 256 exp [MOD val 256 m]) ∧
    (VerifyRight hash sig n e ↔
      (val 256 sig ^ walkedExp (exponentBytes e) % val 256 n = emsaNumber hash ↔
        val 256 sig ^ e.toNat % val 256 n = emsaNumber hash)) := by
  constructor
  · obtain ⟨r, hr, hval⟩ := bnModExp_val hm base exp
    constructor
    · rintro ⟨r', hr', hright⟩
      have hsame : r = r' := Option.some.inj (hr.symm.trans hr')
      rw [← hsame, hval] at hright
      exact hright
    · exact fun hmod => ⟨r, hr, hval.trans hmod⟩
  · obtain ⟨v, hv, hval⟩ := rsaVerify_val hn hash sig e
    constructor
    · rintro ⟨v', hv', hright⟩
      have hsame : v = v' := Option.some.inj (hv.symm.trans hv')
      rw [← hsame] at hright
      exact hval.symm.trans hright
    · exact fun hiff => ⟨v, hv, hval.trans hiff⟩

/-- A number of one byte. -/
def smallNumber (x : UInt8) : ℕ → UInt8 := fun i => if i = 255 then x else 0

theorem smallNumber_val (x : UInt8) : val 256 (smallNumber x) = x.toNat := by
  have hlow : val 255 (smallNumber x) = 0 := val_zero fun i hi => if_neg (by omega)
  rw [val, hlow, Nat.zero_mul, Nat.zero_add]
  rfl

/-- 2 to the third modulo 5 comes out as 1. -/
theorem rsa_small_power_wrong :
    ¬ ModExpRight (smallNumber 2) (smallNumber 3) (smallNumber 5) := by
  rintro ⟨r, hr, hright⟩
  have hfive : val 256 (smallNumber 5) = 5 := smallNumber_val 5
  obtain ⟨r', hr', hval⟩ := bnModExp_val (m := smallNumber 5) (by omega) (smallNumber 2)
    (smallNumber 3)
  obtain ⟨k, hwalk⟩ : ∃ k, walkedExp (smallNumber 3) = 4 * k :=
    ⟨3 * 64 * 256 ^ 254, by decide⟩
  have hsame : r = r' := Option.some.inj (hr.symm.trans hr')
  have hbase : val 256 (smallNumber 2) = 2 := smallNumber_val 2
  have hexp : val 256 (smallNumber 3) = 3 := smallNumber_val 3
  have hone : 2 ^ 4 % 5 = 1 := rfl
  rw [hwalk, hbase, hfive, Nat.pow_mul, Nat.pow_mod, hone, Nat.one_pow] at hval
  rw [hsame, hval, hbase, hexp, hfive] at hright
  exact absurd hright (by decide)

theorem rsa_right_small :
    (ModExpRight (smallNumber 2) (smallNumber 0) (smallNumber 5) ↔
      val 256 (smallNumber 2) ^ walkedExp (smallNumber 0) ≡
        val 256 (smallNumber 2) ^ val 256 (smallNumber 0) [MOD val 256 (smallNumber 5)]) ∧
    (VerifyRight (fun _ => 0) (smallNumber 2) (smallNumber 5) 3 ↔
      (val 256 (smallNumber 2) ^ walkedExp (exponentBytes 3) % val 256 (smallNumber 5) =
          emsaNumber (fun _ => 0) ↔
        val 256 (smallNumber 2) ^ (3 : UInt32).toNat % val 256 (smallNumber 5) =
          emsaNumber (fun _ => 0))) :=
  rsa_right_iff (by rw [smallNumber_val]; decide) (by rw [smallNumber_val]; decide) _ 3

end Lestra
