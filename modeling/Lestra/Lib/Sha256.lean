import Mathlib.Data.Nat.NthRoot.Defs
import Mathlib.Data.Nat.Prime.Basic
import Mathlib.Tactic.IntervalCases
import Mathlib.Tactic.NormNum.Prime
import Mathlib.Data.List.GetD
import Mathlib.Tactic.Common

/-!
# SHA-256

The hash function of FIPS 180-4: padding, message schedule and compression, on byte
strings as lists. The constants are computed from the roots of the first primes, as the
standard defines them.
-/

namespace Sha256

-- ---------------------------------------------------------------------------
-- Constants
-- ---------------------------------------------------------------------------

def primes (n : ℕ) : List ℕ :=
  ((List.range 312).filter fun p => 2 ≤ p ∧ ∀ d ∈ List.range p, 2 ≤ d → ¬ d ∣ p).take n

/-- The first 32 bits of the fractional part of the `r`-th root of `p`. -/
def fracRoot (r p : ℕ) : UInt32 := UInt32.ofNat (Nat.nthRoot r (p * 2 ^ (32 * r)))

def k : List UInt32 := (primes 64).map (fracRoot 3)

-- ---------------------------------------------------------------------------
-- Compression
-- ---------------------------------------------------------------------------

def rotr (n : ℕ) (x : UInt32) : UInt32 := ⟨x.toBitVec.rotateRight n⟩

def bigSigma0 (x : UInt32) : UInt32 := rotr 2 x ^^^ rotr 13 x ^^^ rotr 22 x

def bigSigma1 (x : UInt32) : UInt32 := rotr 6 x ^^^ rotr 11 x ^^^ rotr 25 x

def smallSigma0 (x : UInt32) : UInt32 := rotr 7 x ^^^ rotr 18 x ^^^ (x >>> 3)

def smallSigma1 (x : UInt32) : UInt32 := rotr 17 x ^^^ rotr 19 x ^^^ (x >>> 10)

def ch (x y z : UInt32) : UInt32 := (x &&& y) ^^^ (~~~x &&& z)

def maj (x y z : UInt32) : UInt32 := (x &&& y) ^^^ (x &&& z) ^^^ (y &&& z)

/-- The eight words of the hash value, which are also the working variables. -/
structure Words where
  a : UInt32
  b : UInt32
  c : UInt32
  d : UInt32
  e : UInt32
  f : UInt32
  g : UInt32
  h : UInt32
deriving DecidableEq

def Words.ofList (l : List UInt32) : Words :=
  ⟨l.getD 0 0, l.getD 1 0, l.getD 2 0, l.getD 3 0, l.getD 4 0, l.getD 5 0, l.getD 6 0, l.getD 7 0⟩

def Words.toList (v : Words) : List UInt32 := [v.a, v.b, v.c, v.d, v.e, v.f, v.g, v.h]

def h0 : Words := Words.ofList ((primes 8).map (fracRoot 2))

/-- The word of four bytes, most significant first. -/
def word (b₀ b₁ b₂ b₃ : UInt8) : UInt32 :=
  b₀.toUInt32 <<< 24 ||| b₁.toUInt32 <<< 16 ||| b₂.toUInt32 <<< 8 ||| b₃.toUInt32

/-- The next word of the schedule, from the words before it, latest first. -/
def nextWord (ws : List UInt32) : UInt32 :=
  smallSigma1 (ws.getD 1 0) + ws.getD 6 0 + smallSigma0 (ws.getD 14 0) + ws.getD 15 0

def extend : ℕ → List UInt32 → List UInt32
  | 0, ws => ws
  | n + 1, ws => extend n (nextWord ws :: ws)

/-- The 64 words of the schedule of one block. -/
def schedule (block : ℕ → UInt8) : List UInt32 :=
  (extend 48 ((List.range 16).map fun t =>
    word (block (4 * t)) (block (4 * t + 1)) (block (4 * t + 2)) (block (4 * t + 3))).reverse).reverse

def round (v : Words) (kw : UInt32 × UInt32) : Words :=
  let t1 := v.h + bigSigma1 v.e + ch v.e v.f v.g + kw.1 + kw.2
  let t2 := bigSigma0 v.a + maj v.a v.b v.c
  ⟨t1 + t2, v.a, v.b, v.c, v.d + t1, v.e, v.f, v.g⟩

def Words.add (v w : Words) : Words :=
  ⟨v.a + w.a, v.b + w.b, v.c + w.c, v.d + w.d, v.e + w.e, v.f + w.f, v.g + w.g, v.h + w.h⟩

def compress (v : Words) (block : ℕ → UInt8) : Words :=
  v.add ((k.zip (schedule block)).foldl round v)

-- ---------------------------------------------------------------------------
-- Padding and the hash
-- ---------------------------------------------------------------------------

/-- The bytes of a word, most significant first. -/
def wordBytes (w : UInt32) : List UInt8 :=
  [(w >>> 24).toUInt8, (w >>> 16).toUInt8, (w >>> 8).toUInt8, w.toUInt8]

/-- A length in 64 bits, most significant byte first. -/
def lengthBytes (n : ℕ) : List UInt8 :=
  (List.range 8).map fun i => UInt8.ofNat (n / 256 ^ (7 - i))

/-- The bit 1, the least number of zeros that completes a block, and the length in bits. -/
def pad (m : List UInt8) : List UInt8 :=
  m ++ 0x80 :: List.replicate ((119 - m.length % 64) % 64) 0 ++ lengthBytes (8 * m.length)

/-- The first `n` blocks of a byte string, one after another. -/
def absorb (v : Words) (bytes : ℕ → UInt8) : ℕ → Words
  | 0 => v
  | n + 1 => compress (absorb v bytes n) fun i => bytes (64 * n + i)

/-- SHA-256 of a byte string of less than 2^61 bytes. -/
def sha256 (m : List UInt8) : List UInt8 :=
  (absorb h0 (fun i => (pad m).getD i 0) ((pad m).length / 64)).toList.flatMap wordBytes

-- ---------------------------------------------------------------------------
-- Lemmas
-- ---------------------------------------------------------------------------

/-- Below 18^2 it is enough to divide by the primes up to 17. -/
theorem primes_eq (n : ℕ) : primes n = ((List.range 312).filter fun p =>
    2 ≤ p ∧ ∀ d ∈ [2, 3, 5, 7, 11, 13, 17], p = d ∨ ¬ d ∣ p).take n := by
  refine congrArg (List.take n) (List.filter_congr fun p hp => ?_)
  have hlt := List.mem_range.mp hp
  refine decide_eq_decide.mpr
    (and_congr_right fun htwo => ⟨fun h d hd => ?_, fun h d hd hge hdvd => ?_⟩)
  · have hge : 2 ≤ d := by
      simp only [List.mem_cons, List.not_mem_nil, or_false] at hd
      omega
    by_cases hdvd : d ∣ p
    · refine .inl (Nat.le_antisymm ?_ (Nat.le_of_dvd (by omega) hdvd))
      exact not_lt.mp fun hd' => h d (List.mem_range.mpr hd') hge hdvd
    · exact .inr hdvd
  · have hdp := List.mem_range.mp hd
    have hprime : p.minFac.Prime := Nat.minFac_prime (by omega)
    have hmin : p.minFac ≤ d := Nat.minFac_le_of_dvd hge hdvd
    have hle : p.minFac ≤ 17 := by
      by_contra hcon
      have hsq := Nat.minFac_sq_le_self (by omega) (Nat.not_prime_of_dvd_of_lt hdvd hge hdp)
      have hbig := Nat.pow_le_pow_left (show 18 ≤ p.minFac by omega) 2
      omega
    have hmem : p.minFac ∈ [2, 3, 5, 7, 11, 13, 17] := by
      generalize p.minFac = q at hprime hle
      interval_cases q <;> first | decide | exact absurd hprime (by norm_num)
    rcases h _ hmem with heq | hndvd
    · omega
    · exact hndvd (Nat.minFac_dvd p)

theorem extend_succ (n : ℕ) (ws : List UInt32) :
    extend (n + 1) ws = nextWord (extend n ws) :: extend n ws := by
  induction n generalizing ws with
  | zero => rfl
  | succ n ih => rw [extend, ih, extend]

theorem schedule_congr {p q : ℕ → UInt8} (h : ∀ i < 64, p i = q i) : schedule p = schedule q := by
  have hwords : ((List.range 16).map fun t =>
      word (p (4 * t)) (p (4 * t + 1)) (p (4 * t + 2)) (p (4 * t + 3))) =
      (List.range 16).map fun t =>
        word (q (4 * t)) (q (4 * t + 1)) (q (4 * t + 2)) (q (4 * t + 3)) := by
    refine List.map_congr_left fun t ht => ?_
    have hlt := List.mem_range.mp ht
    rw [h _ (by omega), h _ (by omega), h _ (by omega), h _ (by omega)]
  rw [schedule, schedule, hwords]

theorem compress_congr {p q : ℕ → UInt8} (v : Words) (h : ∀ i < 64, p i = q i) :
    compress v p = compress v q := by
  rw [compress, compress, schedule_congr h]

theorem absorb_congr {p q : ℕ → UInt8} {n : ℕ} (v : Words) (h : ∀ i < 64 * n, p i = q i) :
    absorb v p n = absorb v q n := by
  induction n with
  | zero => rfl
  | succ n ih =>
    rw [absorb, absorb, ih fun i hi => h i (by omega)]
    exact compress_congr _ fun i hi => h _ (by omega)

/-- What has been absorbed of a string of whole blocks is not changed by what follows. -/
theorem absorb_append (v : Words) {m : List UInt8} (block : List UInt8)
    (hm : m.length % 64 = 0) :
    absorb v (fun i => (m ++ block).getD i 0) (m.length / 64 + 1) =
      compress (absorb v (fun i => m.getD i 0) (m.length / 64)) fun i => block.getD i 0 := by
  have hlen : 64 * (m.length / 64) = m.length := by omega
  rw [absorb, absorb_congr v (q := fun i => m.getD i 0)]
  · refine compress_congr _ fun i hi => ?_
    rw [hlen, List.getD_append_right _ _ _ _ (by omega), Nat.add_sub_cancel_left]
  · intro i hi
    rw [List.getD_append _ _ _ _ (by omega)]

theorem length_lengthBytes (n : ℕ) : (lengthBytes n).length = 8 := by
  rw [lengthBytes, List.length_map, List.length_range]

/-- A string of whole blocks is padded by one block. -/
theorem pad_whole {m : List UInt8} (hm : m.length % 64 = 0) :
    pad m = m ++ (0x80 :: List.replicate 55 0 ++ lengthBytes (8 * m.length)) := by
  rw [pad, hm, List.append_assoc]

theorem sha256_whole {m : List UInt8} (hm : m.length % 64 = 0) :
    sha256 m = (compress (absorb h0 (fun i => m.getD i 0) (m.length / 64)) fun i =>
      (0x80 :: List.replicate 55 0 ++ lengthBytes (8 * m.length)).getD i 0).toList.flatMap
        wordBytes := by
  have hlen : (pad m).length / 64 = m.length / 64 + 1 := by
    rw [pad_whole hm]
    simp only [List.length_append, List.length_cons, List.length_replicate, length_lengthBytes]
    omega
  rw [sha256, hlen, pad_whole hm, absorb_append h0 _ hm]

/-- A message that is padded to a single block. -/
theorem sha256_block {m : List UInt8} (h : (pad m).length / 64 = 1) :
    sha256 m = (compress h0 fun i => (pad m).getD i 0).toList.flatMap wordBytes := by
  rw [sha256, h, absorb, absorb]
  simp only [Nat.mul_zero, Nat.zero_add]

end Sha256
