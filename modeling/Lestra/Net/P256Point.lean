import Mathlib.Data.Int.ModEq
import Lestra.Net.P256

/-!
# Points of P-256

The points of `kernel/net/p256.c`, and the check that `p256_ecdh` makes of a peer's point. The
constants `p256_p` and `p256_b` are not those of P-256, the polynomial that is evaluated is of
degree 4, and coordinates are not compared with the modulus.

* `p256PointOnCurve_eq` — what is checked
* `p256_protects_iff` — for which coordinates that is the right answer
-/

namespace Lestra

open BigEndian

-- ---------------------------------------------------------------------------
-- Constants
-- ---------------------------------------------------------------------------

/-- The bytes of a constant. -/
def feBytes (bs : List UInt8) : ℕ → UInt8 := fun i => bs.getD i 0

def p256P : ℕ → UInt8 := feBytes [
  0xFF, 0xFF, 0xFF, 0xFF, 0x00, 0x00, 0x00, 0x01, 0x00, 0x00, 0x00, 0x00, 0x00, 0x00, 0x00, 0x00,
  0x00, 0x00, 0x00, 0xFF, 0xFF, 0xFF, 0xFF, 0xFF, 0xFF, 0xFF, 0xFF, 0xFF, 0xFF, 0xFF, 0xFF, 0xFF]

/-- `a = -3 mod p` -/
def p256A : ℕ → UInt8 := feBytes [
  0xFF, 0xFF, 0xFF, 0xFF, 0x00, 0x00, 0x00, 0x01, 0x00, 0x00, 0x00, 0x00, 0x00, 0x00, 0x00, 0x00,
  0x00, 0x00, 0x00, 0xFF, 0xFF, 0xFF, 0xFF, 0xFF, 0xFF, 0xFF, 0xFF, 0xFF, 0xFF, 0xFF, 0xFF, 0xFC]

def p256B : ℕ → UInt8 := feBytes [
  0x5A, 0xC6, 0x35, 0xD8, 0xAA, 0x3A, 0x93, 0xE7, 0xB3, 0xEB, 0xBD, 0x55, 0x76, 0x98, 0x86, 0xBC,
  0x65, 0x1D, 0x06, 0xB0, 0xCC, 0x53, 0xB0, 0xF6, 0x3B, 0xCE, 0x3C, 0xE2, 0x7D, 0x26, 0x04, 0x4B]

def p256Gx : ℕ → UInt8 := feBytes [
  0x6B, 0x17, 0xD1, 0xF2, 0xE1, 0x2C, 0x42, 0x47, 0xF8, 0xBC, 0xE6, 0xE5, 0x63, 0xA4, 0x40, 0xF2,
  0x77, 0x03, 0x7D, 0x81, 0x2D, 0xEB, 0x33, 0xA0, 0xF4, 0xA1, 0x39, 0x45, 0xD8, 0x98, 0xC2, 0x96]

def p256Gy : ℕ → UInt8 := feBytes [
  0x4F, 0xE3, 0x42, 0xE2, 0xFE, 0x1A, 0x7F, 0x9B, 0x8E, 0xE7, 0xEB, 0x4A, 0x7C, 0x0F, 0x9E, 0x16,
  0x2B, 0xCE, 0x33, 0x57, 0x6B, 0x31, 0x5E, 0xCE, 0xCB, 0xB6, 0x40, 0x68, 0x37, 0xBF, 0x51, 0xF5]

-- ---------------------------------------------------------------------------
-- Points
-- ---------------------------------------------------------------------------

/-- `struct p256_point`: a point, or the point at infinity. -/
structure P256Point where
  x : ℕ → UInt8
  y : ℕ → UInt8
  isInfinity : Bool

/-- `memcmp(a, b, 32) == 0` -/
def feSame (a b : ℕ → UInt8) : Bool := memcmp a b 32 == .eq

/-- `p256_double`; `R` is what the result's place held before. -/
def p256Double (P R : P256Point) : Option P256Point :=
  if P.isInfinity || feSame P.y (fun _ => 0) then some { R with isInfinity := true }
  else do
    let t1 ← feMul P.x P.x p256P
    let t2 := feAdd t1 t1 p256P
    let t2 := feAdd t2 t1 p256P
    let t2 := feAdd t2 p256A p256P
    let t1 := feAdd P.y P.y p256P
    let t1 ← feInv t1 p256P
    let slope ← feMul t2 t1 p256P
    let xR ← feMul slope slope p256P
    let xR := feSub xR P.x p256P
    let xR := feSub xR P.x p256P
    let tmp := feSub P.x xR p256P
    let yR ← feMul slope tmp p256P
    let yR := feSub yR P.y p256P
    some ⟨xR, yR, false⟩

/-- `p256_add` -/
def p256Add (P Q R : P256Point) : Option P256Point :=
  if P.isInfinity then some Q
  else if Q.isInfinity then some P
  else if feSame P.x Q.x then
    if feSame P.y Q.y then p256Double P R else some { R with isInfinity := true }
  else do
    let dx := feSub Q.x P.x p256P
    let dy := feSub Q.y P.y p256P
    let dx ← feInv dx p256P
    let slope ← feMul dy dx p256P
    let xR ← feMul slope slope p256P
    let xR := feSub xR P.x p256P
    let xR := feSub xR Q.x p256P
    let tmp := feSub P.x xR p256P
    let yR ← feMul slope tmp p256P
    let yR := feSub yR P.y p256P
    some ⟨xR, yR, false⟩

/-- The bits of a scalar, the highest bit of the first byte first. -/
def scalarBits (k : ℕ → UInt8) : List Bool :=
  (List.range 32).flatMap fun i => (List.range 8).reverse.map fun bit => (k i).toNat.testBit bit

/-- Double-and-add. -/
def p256ScalarLoop (P : P256Point) : List Bool → P256Point → Option P256Point
  | [], Q => some Q
  | bit :: bits, Q => do
    let Q ← p256Double Q Q
    let Q ← if bit then p256Add Q P Q else some Q
    p256ScalarLoop P bits Q

/-- `Q` begins as the point at infinity; its coordinates, which are not initialized, are never
read. -/
def p256ScalarMult (k : ℕ → UInt8) (P : P256Point) : Option P256Point :=
  p256ScalarLoop P (scalarBits k) ⟨fun _ => 0, fun _ => 0, true⟩

-- ---------------------------------------------------------------------------
-- The check of a peer's point
-- ---------------------------------------------------------------------------

def p256PointOnCurve (x y : ℕ → UInt8) : Option Bool := do
  let lhs ← feMul y y p256P
  let t1 ← feMul x x p256P
  let t2 ← feMul t1 x p256P
  let t1 := feAdd t2 p256A p256P
  let t1 ← feMul t1 x p256P
  let rhs := feAdd t1 p256B p256P
  some (feSame lhs rhs)

/-- What `p256_ecdh` does with a point that it takes: the result, and `shared_x`. -/
def p256Shared (secret x y : ℕ → UInt8) : Option (ℕ × (ℕ → UInt8)) := do
  let R ← p256ScalarMult secret ⟨x, y, false⟩
  if R.isInfinity then some (0, fun _ => 0) else some (1, R.x)

def p256Ecdh (secret x y : ℕ → UInt8) : Option (ℕ × (ℕ → UInt8)) := do
  let onCurve ← p256PointOnCurve x y
  if onCurve then p256Shared secret x y else some (0, fun _ => 0)

-- ---------------------------------------------------------------------------
-- What is checked
-- ---------------------------------------------------------------------------

/-- The prime of P-256. -/
def nistP : ℕ := 2 ^ 256 - 2 ^ 224 + 2 ^ 192 + 2 ^ 96 - 1

/-- The coefficient of P-256, as at the top of the file. -/
def nistB : ℕ := 0x5AC635D8AA3A93E7B3EBBD55769886BC651D06B0CC53B0F63BCE3C3E27D2604B

/-- A point of P-256, with both coordinates below the prime. -/
structure IsP256Point (x y : ℕ → UInt8) : Prop where
  xLt : val 32 x < nistP
  yLt : val 32 y < nistP
  curve : (val 32 y : ℤ) ^ 2 ≡ (val 32 x : ℤ) ^ 3 - 3 * val 32 x + nistB [ZMOD nistP]

/-- The modulus that stands in `p256_p`: a byte of the last zeros is 0xFF. -/
def codeP : ℕ := 2 ^ 256 - 2 ^ 224 + 2 ^ 192 + 2 ^ 104 - 1

/-- The coefficient that stands in `p256_b`. -/
def codeB : ℕ := 0x5AC635D8AA3A93E7B3EBBD55769886BC651D06B0CC53B0F63BCE3CE27D26044B

/-- The equation that the code tests. -/
def PassesCheck (x y : ℕ → UInt8) : Prop :=
  (val 32 y : ℤ) ^ 2 ≡ (val 32 x : ℤ) ^ 4 - 3 * val 32 x + codeB [ZMOD codeP]

variable {a b x y : ℕ → UInt8}

theorem p256P_val : val 32 p256P = codeP := by decide

theorem p256A_val : val 32 p256A = codeP - 3 := by decide

theorem p256B_val : val 32 p256B = codeB := by decide

theorem codeP_pos : 3 < codeP := by decide

theorem feSame_iff : feSame a b = true ↔ val 32 a = val 32 b := by
  rw [feSame, beq_iff_eq, memcmp_eq, Nat.compare_eq_eq]

theorem feMul_p256 (a b : ℕ → UInt8) : ∃ r, feMul a b p256P = some r ∧ val 32 r < codeP ∧
    (val 32 r : ℤ) ≡ val 32 a * val 32 b [ZMOD codeP] := by
  have hpos := codeP_pos
  obtain ⟨r, hr, hval⟩ := feMul_val (m := p256P) (by rw [p256P_val]; omega) a b
  rw [p256P_val] at hval
  refine ⟨r, hr, by rw [hval]; exact Nat.mod_lt _ (by omega), ?_⟩
  rw [hval, Int.natCast_mod, Nat.cast_mul]
  exact Int.mod_modEq ..

theorem feAdd_p256 (ha : val 32 a < codeP) (hb : val 32 b < codeP) :
    val 32 (feAdd a b p256P) < codeP ∧
      (val 32 (feAdd a b p256P) : ℤ) ≡ val 32 a + val 32 b [ZMOD codeP] := by
  have hval := feAdd_val (a := a) (b := b) (m := p256P) (ha.trans_eq p256P_val.symm)
    (hb.trans_eq p256P_val.symm)
  rw [p256P_val] at hval
  refine ⟨by rw [hval]; exact Nat.mod_lt _ (by omega), ?_⟩
  rw [hval, Int.natCast_mod, Nat.cast_add]
  exact Int.mod_modEq ..

/-- The polynomial is `(x ^ 3 + a) * x + b`. -/
theorem p256PointOnCurve_eq (x y : ℕ → UInt8) :
    ∃ ret, p256PointOnCurve x y = some ret ∧ (ret = true ↔ PassesCheck x y) := by
  have hpos := codeP_pos
  have hA : val 32 p256A < codeP := by
    rw [p256A_val]
    omega
  have hB : val 32 p256B < codeP := by
    rw [p256B_val]
    decide
  obtain ⟨lhs, hlhs, hlhsLt, hlhsVal⟩ := feMul_p256 y y
  obtain ⟨sq, hsq, -, hsqVal⟩ := feMul_p256 x x
  obtain ⟨cube, hcube, hcubeLt, hcubeVal⟩ := feMul_p256 sq x
  obtain ⟨-, hsumVal⟩ := feAdd_p256 hcubeLt hA
  obtain ⟨prod, hprod, hprodLt, hprodVal⟩ := feMul_p256 (feAdd cube p256A p256P) x
  obtain ⟨hrhsLt, hrhsVal⟩ := feAdd_p256 hprodLt hB
  refine ⟨feSame lhs (feAdd prod p256B p256P), ?_, ?_⟩
  · rw [p256PointOnCurve, hlhs, Option.bind_eq_bind, Option.bind_some, hsq, Option.bind_some,
      hcube, Option.bind_some]
    dsimp only
    rw [hprod, Option.bind_some]
  · have hminus : (val 32 p256A : ℤ) ≡ -3 [ZMOD codeP] := by
      rw [p256A_val, Nat.cast_sub hpos.le]
      exact Int.modEq_iff_dvd.mpr ⟨-1, by ring⟩
    have hcubed : (val 32 cube : ℤ) ≡ (val 32 x : ℤ) ^ 3 [ZMOD codeP] := by
      calc (val 32 cube : ℤ) ≡ val 32 sq * val 32 x [ZMOD codeP] := hcubeVal
        _ ≡ val 32 x * val 32 x * val 32 x [ZMOD codeP] := hsqVal.mul_right _
        _ = (val 32 x : ℤ) ^ 3 := by ring
    have hfourth : (val 32 (feAdd prod p256B p256P) : ℤ) ≡
        (val 32 x : ℤ) ^ 4 - 3 * val 32 x + codeB [ZMOD codeP] := by
      rw [p256B_val] at hrhsVal
      calc (val 32 (feAdd prod p256B p256P) : ℤ) ≡ val 32 prod + codeB [ZMOD codeP] := hrhsVal
        _ ≡ val 32 (feAdd cube p256A p256P) * val 32 x + codeB [ZMOD codeP] :=
          hprodVal.add_right _
        _ ≡ ((val 32 x : ℤ) ^ 3 + -3) * val 32 x + codeB [ZMOD codeP] :=
          ((hsumVal.trans (hcubed.add hminus)).mul_right _).add_right _
        _ = (val 32 x : ℤ) ^ 4 - 3 * val 32 x + codeB := by ring
    have hsquare : (val 32 lhs : ℤ) ≡ (val 32 y : ℤ) ^ 2 [ZMOD codeP] := by
      rw [pow_two]
      exact hlhsVal
    rw [feSame_iff, PassesCheck]
    constructor
    · intro hsame
      rw [← hsame] at hfourth
      exact hsquare.symm.trans hfourth
    · intro hpass
      have hmod := (hsquare.trans hpass).trans hfourth.symm
      exact Nat.ModEq.eq_of_lt_of_lt (Int.natCast_modEq_iff.mp hmod) hlhsLt hrhsLt

-- ---------------------------------------------------------------------------
-- When that is right
-- ---------------------------------------------------------------------------

/-- The check tells the points of the curve from all others, and what fails it is turned away
before the secret is used. -/
structure P256Protects (x y : ℕ → UInt8) : Prop where
  exactly : p256PointOnCurve x y = some true ↔ IsP256Point x y
  rejects : ¬ IsP256Point x y → ∀ secret, p256Ecdh secret x y = some (0, fun _ => 0)
  accepts : IsP256Point x y → ∀ secret, p256Ecdh secret x y = p256Shared secret x y

theorem pointOnCurve_iff : p256PointOnCurve x y = some true ↔ PassesCheck x y := by
  obtain ⟨ret, hret, hiff⟩ := p256PointOnCurve_eq x y
  rw [hret, Option.some.injEq]
  exact hiff

theorem p256Ecdh_passed (h : p256PointOnCurve x y = some true) (secret : ℕ → UInt8) :
    p256Ecdh secret x y = p256Shared secret x y := by
  rw [p256Ecdh, h]
  rfl

theorem p256Ecdh_refused (h : ¬ p256PointOnCurve x y = some true) (secret : ℕ → UInt8) :
    p256Ecdh secret x y = some (0, fun _ => 0) := by
  obtain ⟨ret, hret, -⟩ := p256PointOnCurve_eq x y
  rw [hret, Option.some.injEq, Bool.not_eq_true] at h
  rw [p256Ecdh, hret, h]
  rfl

/-- **The check of a point.** It is right exactly for the coordinates that are a point of P-256 and
pass the equation of the code, and for those that are neither. -/
theorem p256_protects_iff (x y : ℕ → UInt8) :
    P256Protects x y ↔ (PassesCheck x y ↔ IsP256Point x y) := by
  constructor
  · exact fun h => pointOnCurve_iff.symm.trans h.exactly
  · intro h
    have hexactly := pointOnCurve_iff.trans h
    exact ⟨hexactly, fun hnot => p256Ecdh_refused fun hpass => hnot (hexactly.mp hpass),
      fun hpoint => p256Ecdh_passed (hexactly.mpr hpoint)⟩

/-- The base point of the curve is turned away. -/
theorem base_point_refused : IsP256Point p256Gx p256Gy ∧ p256PointOnCurve p256Gx p256Gy = some false := by
  have hx : val 32 p256Gx = 0x6B17D1F2E12C4247F8BCE6E563A440F277037D812DEB33A0F4A13945D898C296 := by
    decide
  have hy : val 32 p256Gy = 0x4FE342E2FE1A7F9B8EE7EB4A7C0F9E162BCE33576B315ECECBB6406837BF51F5 := by
    decide
  have hfails : ¬ PassesCheck p256Gx p256Gy := by
    rw [PassesCheck, hx, hy]
    decide
  obtain ⟨ret, hret, hiff⟩ := p256PointOnCurve_eq p256Gx p256Gy
  refine ⟨⟨?_, ?_, ?_⟩, ?_⟩
  · rw [hx]
    decide
  · rw [hy]
    decide
  · rw [hx, hy]
    decide
  · rw [hret, Bool.eq_false_iff.mpr fun hpass => hfails (hiff.mp hpass)]

end Lestra
