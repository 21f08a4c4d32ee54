import Lestra.Net.Rsa
import Lestra.Net.X509Bounds

/-!
# Keys of certificates

`x509_parse` does not look at what `x509_parse_rsa_pubkey` returns: a certificate is accepted
without a key, with the modulus 0 and the exponent 65537. `bn_mod_mul` with the modulus 0 does not
end.
-/

namespace Lestra

open BigEndian

/-- The array as `rsa_verify_pkcs1_v15` reads it. -/
def bnOf (v : Vector UInt8 256) : ℕ → UInt8 := fun i => v.toList.getD i 0

theorem bnModMul_zero {m : ℕ → UInt8} (hm : val 256 m = 0) (a b : ℕ → UInt8) :
    bnModMul a b m = none := by
  rw [bnModMul_eq]
  exact ShiftReduce.modMul_zero hm a b

theorem bnIsZero_iff {a : ℕ → UInt8} : bnIsZero a = true ↔ val 256 a = 0 := by
  have hall : bnIsZero a = true ↔ ∀ i < 256, a i = 0 := by simp [bnIsZero]
  rw [hall]
  constructor
  · exact val_zero
  · intro hzero i hi
    exact val_injective (q := fun _ => 0) (hzero.trans (val_zero fun _ _ => rfl).symm) i hi

/-- The first square already does not end. -/
theorem bnModExp_none {m exp : ℕ → UInt8} (hm : val 256 m = 0) (hexp : val 256 exp ≠ 0)
    (base : ℕ → UInt8) : bnModExp base exp m = none := by
  have hnot : ¬ bnIsZero exp = true := fun h => hexp (bnIsZero_iff.mp h)
  rw [bnModExp, if_neg hnot]
  cases hstart : expStart exp with
  | none => exact absurd (val_zero (expStart_none hstart)) hexp
  | some start =>
    dsimp only
    rw [expLoop, bnModMul_zero hm]
    rfl

theorem bnModExp_some {m : ℕ → UInt8} (hm : 0 < val 256 m) (base exp : ℕ → UInt8) :
    ∃ r, bnModExp base exp m = some r := by
  rw [bnModExp]
  split
  · exact ⟨bnOne, rfl⟩
  · split
    · exact ⟨bnOne, rfl⟩
    · rename_i start _
      obtain ⟨r, hr, -⟩ := expLoop_val hm base exp (start + 1) bnOne
      exact ⟨r, hr⟩

theorem bnModExp_zero {exp : ℕ → UInt8} (hexp : val 256 exp = 0) (base m : ℕ → UInt8) :
    bnModExp base exp m = some bnOne := by
  rw [bnModExp, if_pos (bnIsZero_iff.mpr hexp)]

theorem rsaVerify_ends_iff (hash sig n : ℕ → UInt8) (e : UInt32) :
    (∃ v, rsaVerifyPkcs1V15 hash sig n e = some v) ↔ 0 < val 256 n ∨ e = 0 := by
  have hmap : (∃ v, rsaVerifyPkcs1V15 hash sig n e = some v) ↔
      ∃ m, bnModExp sig (exponentBytes e) n = some m := by
    rw [← Option.isSome_iff_exists, ← Option.isSome_iff_exists, rsaVerifyPkcs1V15, Option.isSome_map]
  have hval : val 256 (exponentBytes e) = 0 ↔ e = 0 := by
    rw [exponentBytes_val, ← UInt32.toNat_zero, UInt32.toNat_inj]
  rw [hmap]
  by_cases hn : 0 < val 256 n
  · exact iff_of_true (bnModExp_some hn _ _) (.inl hn)
  · by_cases he : e = 0
    · exact iff_of_true ⟨bnOne, bnModExp_zero (hval.mpr he) _ _⟩ (.inr he)
    · refine iff_of_false ?_ (not_or_intro hn he)
      rw [bnModExp_none (by omega) fun hzero => he (hval.mp hzero)]
      rintro ⟨m, hm⟩
      cases hm

theorem bnOf_get (v : Vector UInt8 256) {i : ℕ} (hi : i < 256) : bnOf v i = v[i] := by
  rw [bnOf, List.getD_eq_getElem _ _ (by rw [Vector.length_toList]; exact hi), Vector.getElem_toList]

theorem bnOf_val_pos (v : Vector UInt8 256) : 0 < val 256 (bnOf v) ↔ v ≠ Vector.replicate 256 0 := by
  rw [Nat.pos_iff_ne_zero, Ne, ← bnIsZero_iff, Ne, not_iff_not]
  have hall : bnIsZero (bnOf v) = true ↔ ∀ i < 256, bnOf v i = 0 := by simp [bnIsZero]
  rw [hall]
  constructor
  · intro hzero
    apply Vector.ext
    intro i hi
    rw [Vector.getElem_replicate, ← bnOf_get v hi, hzero i hi]
  · rintro rfl i hi
    rw [bnOf_get _ hi, Vector.getElem_replicate]

/-- **Keys on which verification ends.** With the key in a certificate it ends exactly when the
modulus is not zero or the exponent is. -/
theorem verify_ends_iff (cert : X509Cert) (hash sig : ℕ → UInt8) :
    (∃ v, rsaVerifyPkcs1V15 hash sig (bnOf cert.pubkeyN) cert.pubkeyE = some v) ↔
      cert.pubkeyN ≠ Vector.replicate 256 0 ∨ cert.pubkeyE = 0 := by
  rw [rsaVerify_ends_iff, bnOf_val_pos]

theorem emptyCert_key :
    (x509Parse [] 9 emptyCert).map (fun r => (r.1, r.2.pubkeyN.toList, r.2.pubkeyE)) =
      some (0, List.replicate 256 0, 65537) := by decide +kernel

/-- Nine bytes are accepted, and no signature is ever judged with their key. -/
theorem verify_never_ends : ∃ cert, x509Parse [] 9 emptyCert = some (0, cert) ∧
    ∀ hash sig, rsaVerifyPkcs1V15 hash sig (bnOf cert.pubkeyN) cert.pubkeyE = none := by
  obtain ⟨⟨ret, cert⟩, hparse, hkey⟩ := Option.map_eq_some_iff.mp emptyCert_key
  obtain ⟨rfl, hmodulus, hexp⟩ : ret = 0 ∧ cert.pubkeyN = Vector.replicate 256 0 ∧
      cert.pubkeyE = 65537 := by
    rw [Prod.mk.injEq, Prod.mk.injEq, ← Vector.toList_replicate, Vector.toList_inj] at hkey
    exact hkey
  refine ⟨cert, hparse, fun hash sig => ?_⟩
  have hzero : ¬ 0 < val 256 (bnOf cert.pubkeyN) := fun hpos => (bnOf_val_pos _).mp hpos hmodulus
  have hodd : ¬ cert.pubkeyE = 0 := by
    rw [hexp]
    decide
  have hnot := (rsaVerify_ends_iff hash sig (bnOf cert.pubkeyN) cert.pubkeyE).not.mpr
    (not_or_intro hzero hodd)
  exact Option.eq_none_iff_forall_ne_some.mpr fun v hv => hnot ⟨v, hv⟩

end Lestra
