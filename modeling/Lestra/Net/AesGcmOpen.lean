import Lestra.Lib.ByteBuf
import Lestra.Net.AesGcm

/-!
# Opening an AES-128-GCM message

`aes128_gcm_decrypt` (`kernel/net/tls.c`) and the round trip with `aes128_gcm_encrypt`. Lengths
and positions are 32-bit numbers, and `i + 16` in `ghash_update` is one too: on the last 16
lengths the loop never ends.

* `ghashLoop` — `ghash_update` in 32 bits
* `aes128GcmEncryptU32`, `aes128GcmDecrypt` — what they compute, if they return
* `gcm_round_trip` — decryption takes back what encryption made, and nothing else
-/

namespace Lestra

open Aes (Block)

-- ---------------------------------------------------------------------------
-- The two functions
-- ---------------------------------------------------------------------------

/-- The loop of `ghash_update` from byte `i` on, and what follows it. -/
def ghashLoop (H : Block) (data : List UInt8) : ℕ → Block → ℕ → Option Block
  | 0, _, _ => none
  | fuel + 1, Y, i =>
    if (i + 16) % 2 ^ 32 ≤ data.length then
      ghashLoop H data fuel (ghashMult (ghashXor Y ((data.drop i).take 16)) H) ((i + 16) % 2 ^ 32)
    else if i < data.length then some (ghashMult (ghashXor Y (data.drop i)) H)
    else some Y

/-- `if (len > 0) ghash_update(Y, data, len, H)` -/
def ghashUpdateU32 (fuel : ℕ) (H Y : Block) (data : List UInt8) : Option Block :=
  if 0 < data.length then ghashLoop H data fuel Y 0 else some Y

/-- `aes128_gcm_encrypt` into a buffer of its own. -/
def aes128GcmEncryptU32 (fuel : ℕ) (key : Block) (iv : Vector UInt8 12) (aad plaintext : List UInt8) :
    Option (List UInt8 × Block) :=
  let roundKeys := aes128KeyExpansion key
  let H := aesEncryptBlock (Vector.replicate 16 0) roundKeys
  let J0 := gcmJ0 iv
  let ciphertext := ctrLoop roundKeys J0 plaintext
  (ghashUpdateU32 fuel H (Vector.replicate 16 0) aad).bind fun Y =>
    (ghashUpdateU32 fuel H Y ciphertext).bind fun Y =>
      let Y := Y.zipWith (· ^^^ ·) (gcmLenBlock aad.length plaintext.length)
      let Y := ghashMult Y H
      let EJ0 := aesEncryptBlock J0 roundKeys
      some (ciphertext, EJ0.zipWith (· ^^^ ·) Y)

/-- `diff`, over all bytes. -/
def tagDiff (computedTag tag : Block) : UInt8 :=
  (List.range 16).foldl
    (fun diff j => diff ||| (computedTag.toList.getD j 0 ^^^ tag.toList.getD j 0)) 0

/-- What is returned, and the buffer `plaintext`. -/
def aes128GcmDecrypt (fuel : ℕ) (key : Block) (iv : Vector UInt8 12) (aad ciphertext : List UInt8)
    (tag : Block) (plaintext : List UInt8) : Option (ℕ × List UInt8) :=
  let roundKeys := aes128KeyExpansion key
  let H := aesEncryptBlock (Vector.replicate 16 0) roundKeys
  let J0 := gcmJ0 iv
  (ghashUpdateU32 fuel H (Vector.replicate 16 0) aad).bind fun Y =>
    (ghashUpdateU32 fuel H Y ciphertext).bind fun Y =>
      let Y := Y.zipWith (· ^^^ ·) (gcmLenBlock aad.length ciphertext.length)
      let Y := ghashMult Y H
      let EJ0 := aesEncryptBlock J0 roundKeys
      if tagDiff (EJ0.zipWith (· ^^^ ·) Y) tag ≠ 0 then some (0, plaintext)
      else some (1, ByteBuf.store plaintext 0 (ctrLoop roundKeys J0 ciphertext))

-- ---------------------------------------------------------------------------
-- The loop in 32 bits
-- ---------------------------------------------------------------------------

variable {H Y r : Block} {data : List UInt8} {fuel i : ℕ}

/-- The lengths that the loop can count to. -/
def GhashLen (data : List UInt8) : Prop := data.length < 2 ^ 32 - 16

/-- As long as the position does not wrap around, the loop is `ghashUpdate`. -/
theorem ghashLoop_short (h : GhashLen data) (hi : i ≤ data.length)
    (hfuel : data.length < i + 16 * fuel) :
    ghashLoop H data fuel Y i = some (ghashUpdate H Y (data.drop i)) := by
  induction fuel generalizing Y i with
  | zero => exact absurd hfuel (by omega)
  | succ fuel ih =>
    have hlen : data.length < 2 ^ 32 - 16 := h
    have hwrap : (i + 16) % 2 ^ 32 = i + 16 := Nat.mod_eq_of_lt (by omega)
    rw [ghashLoop, hwrap, ghashUpdate, List.length_drop]
    by_cases hblock : i + 16 ≤ data.length
    · rw [if_pos hblock, if_pos (by omega), ih hblock (by omega), List.drop_drop]
    · have hshort : ¬ 16 ≤ data.length - i := by omega
      rw [if_neg hblock, if_neg hshort]
      by_cases hrest : i < data.length
      · rw [if_pos hrest, if_neg (by omega)]
      · rw [if_neg hrest, if_pos (by omega)]

/-- At the last lengths it goes round for ever. -/
theorem ghashLoop_long (h : ¬ GhashLen data) (hi : 16 ∣ i) : ghashLoop H data fuel Y i = none := by
  induction fuel generalizing Y i with
  | zero => rfl
  | succ fuel ih =>
    have hlen : ¬ data.length < 2 ^ 32 - 16 := h
    have hnext : 16 ∣ (i + 16) % 2 ^ 32 := by omega
    have hle : (i + 16) % 2 ^ 32 ≤ data.length := by omega
    rw [ghashLoop, if_pos hle, ih hnext]

theorem ghashLoop_mono {fuel' : ℕ} (h : ghashLoop H data fuel Y i = some r) (hle : fuel ≤ fuel') :
    ghashLoop H data fuel' Y i = some r := by
  induction fuel generalizing Y i fuel' with
  | zero => cases h
  | succ fuel ih =>
    obtain ⟨fuel', rfl⟩ : ∃ n, fuel' = n + 1 := ⟨fuel' - 1, by omega⟩
    rw [ghashLoop] at h ⊢
    split at h
    · rename_i hgo
      rw [if_pos hgo]
      exact ih h (by omega)
    · rename_i hstop
      rwa [if_neg hstop]

/-- `ghash_update` returns for the lengths that it can count to, and computes the hash. -/
theorem ghashUpdateU32_some : ghashUpdateU32 fuel H Y data = some r →
    GhashLen data ∧ r = ghashUpdate H Y data := by
  intro h
  rw [ghashUpdateU32] at h
  split at h
  · rename_i hpos
    by_cases hlen : GhashLen data
    · have hmore := ghashLoop_mono h (Nat.le_max_left fuel (data.length + 1))
      rw [ghashLoop_short hlen (Nat.zero_le _) (by omega), List.drop_zero] at hmore
      exact ⟨hlen, (Option.some.inj hmore).symm⟩
    · rw [ghashLoop_long hlen (Nat.dvd_zero _)] at h
      cases h
  · rename_i hzero
    have hlen : data.length = 0 := by omega
    refine ⟨?_, ?_⟩
    · show data.length < 2 ^ 32 - 16
      omega
    · rw [ghashUpdate, hlen, if_neg (by decide), if_pos rfl]
      exact (Option.some.inj h).symm

theorem ghashUpdateU32_enough (h : GhashLen data) (hfuel : data.length < fuel) :
    ghashUpdateU32 fuel H Y data = some (ghashUpdate H Y data) := by
  rw [ghashUpdateU32]
  split
  · rw [ghashLoop_short h (Nat.zero_le _) (by omega), List.drop_zero]
  · rw [ghashUpdate, if_neg (by omega), if_pos (by omega)]

-- ---------------------------------------------------------------------------
-- What they compute
-- ---------------------------------------------------------------------------

theorem tagDiff_eq_zero (computedTag tag : Block) : tagDiff computedTag tag = 0 ↔ computedTag = tag := by
  have hfold : ∀ n, (List.range n).foldl (fun diff j => diff |||
      (computedTag.toList.getD j 0 ^^^ tag.toList.getD j 0)) 0 = 0 ↔
        ∀ j < n, computedTag.toList.getD j 0 = tag.toList.getD j 0 := by
    intro n
    induction n with
    | zero => exact iff_of_true rfl nofun
    | succ n ih =>
      rw [List.range_succ, List.foldl_append, List.foldl_cons, List.foldl_nil, UInt8.or_eq_zero_iff, ih,
        UInt8.xor_eq_zero_iff, Nat.forall_lt_succ_right]
  rw [tagDiff, hfold]
  constructor
  · intro hall
    apply Vector.ext
    intro j hj
    have hbyte := hall j hj
    rw [List.getD_eq_getElem _ _ (by rw [Vector.length_toList]; exact hj),
      List.getD_eq_getElem _ _ (by rw [Vector.length_toList]; exact hj)] at hbyte
    exact hbyte
  · rintro rfl j _
    rfl

/-- The block cipher that the code keys. -/
def gcmCiph (key : Block) (b : Block) : Block := aesEncryptBlock b (aes128KeyExpansion key)

/-- The hash key times a block, as the code multiplies. -/
def gcmMulH (key : Block) (x : Block) : Block := ghashMult x (gcmCiph key (Vector.replicate 16 0))

/-- What the two functions compute when they return. -/
def gcmSeal (key : Block) (iv : Vector UInt8 12) (aad plaintext : List UInt8) : List UInt8 × Block :=
  Gcm.encrypt (gcmCiph key) (gcmMulH key) (gcmJ0 iv) aad plaintext

def gcmOpen (key : Block) (iv : Vector UInt8 12) (aad ciphertext : List UInt8) (tag : Block) :
    Option (List UInt8) :=
  Gcm.decrypt (gcmCiph key) (gcmMulH key) (gcmJ0 iv) aad ciphertext tag

theorem gcmOpen_seal (key : Block) (iv : Vector UInt8 12) (aad plaintext : List UInt8) (tag : Block) :
    gcmOpen key iv aad (gcmSeal key iv aad plaintext).1 tag =
      if (gcmSeal key iv aad plaintext).2 = tag then some plaintext else none :=
  Gcm.decrypt_encrypt (gcmCiph key) (gcmMulH key) (gcmJ0 iv) aad plaintext tag

theorem length_gcmSeal (key : Block) (iv : Vector UInt8 12) (aad plaintext : List UInt8) :
    (gcmSeal key iv aad plaintext).1.length = plaintext.length := Gcm.length_gctr _ _ _

variable {key tag : Block} {iv : Vector UInt8 12} {aad plaintext ciphertext out : List UInt8}

/-- The tag, in the words of the code. -/
theorem gcmTag_eq (key : Block) (iv : Vector UInt8 12) (aad ciphertext : List UInt8) :
    (gcmCiph key (gcmJ0 iv)).zipWith (· ^^^ ·) (gcmMulH key
      ((ghashUpdate (gcmCiph key (Vector.replicate 16 0)) (ghashUpdate
        (gcmCiph key (Vector.replicate 16 0)) (Vector.replicate 16 0) aad) ciphertext).zipWith
          (· ^^^ ·) (gcmLenBlock aad.length ciphertext.length))) =
      Gcm.tag (gcmCiph key) (gcmMulH key) (gcmJ0 iv) aad ciphertext := by
  rw [ghashUpdate_eq, ghashUpdate_eq, gcmLenBlock_eq]
  rfl

theorem length_ctrLoop (roundKeys : List UInt8) (counter : Block) (data : List UInt8) :
    (ctrLoop roundKeys counter data).length = data.length := by rw [ctrLoop_eq, Gcm.length_gctr]

/-- What `aes128_gcm_encrypt` returns, if it does. -/
theorem encryptU32_some {c : List UInt8} {t : Block}
    (h : aes128GcmEncryptU32 fuel key iv aad plaintext = some (c, t)) :
    GhashLen aad ∧ GhashLen c ∧ (c, t) = gcmSeal key iv aad plaintext := by
  rw [aes128GcmEncryptU32] at h
  obtain ⟨Y, hY, h⟩ := Option.bind_eq_some_iff.mp h
  obtain ⟨Y', hY', h⟩ := Option.bind_eq_some_iff.mp h
  obtain ⟨haad, rfl⟩ := ghashUpdateU32_some hY
  obtain ⟨hct, rfl⟩ := ghashUpdateU32_some hY'
  obtain ⟨rfl, rfl⟩ := Prod.mk.inj (Option.some.inj h)
  refine ⟨haad, hct, ?_⟩
  have hctr : ctrLoop (aes128KeyExpansion key) (gcmJ0 iv) plaintext =
      Gcm.gctr (gcmCiph key) (Gcm.inc32 (gcmJ0 iv)) plaintext := ctrLoop_eq _ _ _
  have htag := gcmTag_eq key iv aad (ctrLoop (aes128KeyExpansion key) (gcmJ0 iv) plaintext)
  rw [length_ctrLoop] at htag
  rw [gcmSeal, Gcm.encrypt, ← hctr, ← htag]
  rfl

/-- Encryption returns when both lengths can be counted to. -/
theorem encryptU32_enough (haad : GhashLen aad) (hpt : GhashLen plaintext)
    (hfuel : aad.length < fuel ∧ plaintext.length < fuel) :
    ∃ c t, aes128GcmEncryptU32 fuel key iv aad plaintext = some (c, t) := by
  have hct : GhashLen (ctrLoop (aes128KeyExpansion key) (gcmJ0 iv) plaintext) := by
    rwa [GhashLen, length_ctrLoop]
  rw [aes128GcmEncryptU32]
  dsimp only
  rw [ghashUpdateU32_enough haad hfuel.1, Option.bind_some,
    ghashUpdateU32_enough hct (by rw [length_ctrLoop]; exact hfuel.2), Option.bind_some]
  exact ⟨_, _, rfl⟩

/-- What `aes128_gcm_decrypt` returns, and what it writes. -/
theorem decrypt_enough (haad : GhashLen aad) (hct : GhashLen ciphertext)
    (hfuel : aad.length < fuel ∧ ciphertext.length < fuel) :
    aes128GcmDecrypt fuel key iv aad ciphertext tag out =
      match gcmOpen key iv aad ciphertext tag with
      | none => some (0, out)
      | some plaintext => some (1, ByteBuf.store out 0 plaintext) := by
  have hctr : ctrLoop (aes128KeyExpansion key) (gcmJ0 iv) ciphertext =
      Gcm.gctr (gcmCiph key) (Gcm.inc32 (gcmJ0 iv)) ciphertext := ctrLoop_eq _ _ _
  have htag := gcmTag_eq key iv aad ciphertext
  rw [aes128GcmDecrypt]
  dsimp only
  rw [ghashUpdateU32_enough haad hfuel.1, Option.bind_some, ghashUpdateU32_enough hct hfuel.2,
    Option.bind_some, hctr, gcmOpen, Gcm.decrypt]
  by_cases hsame : Gcm.tag (gcmCiph key) (gcmMulH key) (gcmJ0 iv) aad ciphertext = tag
  · rw [if_pos hsame]
    exact if_neg (not_not.mpr ((tagDiff_eq_zero _ _).mpr (htag.trans hsame)))
  · rw [if_neg hsame]
    exact if_pos fun hdiff => hsame (htag.symm.trans ((tagDiff_eq_zero _ _).mp hdiff))

/-- **The round trip.** When `aes128_gcm_encrypt` returns a ciphertext and a tag, then
`aes128_gcm_decrypt` returns 1 on them and writes the plaintext; under every other tag it returns
0 and leaves the buffer as it is. -/
theorem gcm_round_trip (key : Block) (iv : Vector UInt8 12) (aad plaintext out : List UInt8)
    (fuel : ℕ) (c : List UInt8) (t : Block)
    (h : aes128GcmEncryptU32 fuel key iv aad plaintext = some (c, t)) :
    (∃ n, ∀ fuel ≥ n, aes128GcmDecrypt fuel key iv aad c t out =
      some (1, ByteBuf.store out 0 plaintext)) ∧
    ∀ t', t' ≠ t → ∃ n, ∀ fuel ≥ n, aes128GcmDecrypt fuel key iv aad c t' out = some (0, out) := by
  obtain ⟨haad, hct, heq⟩ := encryptU32_some h
  have hopen (t' : Block) : gcmOpen key iv aad c t' = if t = t' then some plaintext else none := by
    have hlaw := gcmOpen_seal key iv aad plaintext t'
    rwa [← heq] at hlaw
  have hreturns (t' : Block) (fuel : ℕ) (hfuel : fuel ≥ aad.length + c.length + 1) :
      aes128GcmDecrypt fuel key iv aad c t' out =
        match if t = t' then some plaintext else none with
        | none => some (0, out)
        | some plaintext => some (1, ByteBuf.store out 0 plaintext) := by
    rw [decrypt_enough haad hct ⟨by omega, by omega⟩, hopen]
  refine ⟨⟨aad.length + c.length + 1, fun fuel hfuel => ?_⟩,
    fun t' hne => ⟨aad.length + c.length + 1, fun fuel hfuel => ?_⟩⟩
  · rw [hreturns t fuel hfuel, if_pos rfl]
  · rw [hreturns t' fuel hfuel, if_neg hne.symm]

/-- A message of two bytes, under the zero key. -/
theorem gcm_round_trip_hi : ∃ c t,
    (∃ n, ∀ fuel ≥ n, aes128GcmDecrypt fuel (Vector.replicate 16 0) (Vector.replicate 12 0) [] c t [] =
      some (1, ByteBuf.store [] 0 [0x68, 0x69])) ∧
    ∀ t', t' ≠ t → ∃ n, ∀ fuel ≥ n,
      aes128GcmDecrypt fuel (Vector.replicate 16 0) (Vector.replicate 12 0) [] c t' [] = some (0, []) := by
  have hlen (data : List UInt8) (h : data.length ≤ 2) : GhashLen data := by
    show data.length < 2 ^ 32 - 16
    omega
  have hencrypt : ∃ c t, aes128GcmEncryptU32 3 (Vector.replicate 16 0) (Vector.replicate 12 0) []
      [0x68, 0x69] = some (c, t) :=
    encryptU32_enough (hlen _ (by decide)) (hlen _ (by decide)) ⟨by decide, by decide⟩
  obtain ⟨c, t, h⟩ := hencrypt
  exact ⟨c, t, gcm_round_trip _ _ [] [0x68, 0x69] [] 3 c t h⟩

end Lestra
