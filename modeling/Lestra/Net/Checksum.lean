import Lestra.Lib.ByteBuf
import Lestra.Lib.OnesComplement
import Lestra.Net.Firewall

/-!
# The Internet checksums

`inet_checksum`, `l4_pseudo_checksum` and `ipv6_l4_checksum` (`kernel/net/net.c`), and
`tcp_checksum` and `tcp_checksum6` (`kernel/net/tcp.c`). A segment has at most 65535 bytes,
the values of a `uint16_t`.

* `Sum32` — a 32-bit sum that notes an overflow
* `Seals` — with the checksum in its field the segment sums up to 0xFFFF
* `checksum_law` — all of them seal the segment, and none overflows
-/

namespace Lestra

open OnesComplement

-- ---------------------------------------------------------------------------
-- The loops
-- ---------------------------------------------------------------------------

/-- A `uint32_t` that is added to, and whether an addition did not fit. -/
structure Sum32 where
  sum : ℕ
  overflow : Bool
deriving DecidableEq

/-- `sum += x` -/
def Sum32.add (s : Sum32) (x : ℕ) : Sum32 :=
  ⟨(s.sum + x) % 2 ^ 32, s.overflow || decide (2 ^ 32 ≤ s.sum + x)⟩

/-- `((uint16_t)a << 8) | b` -/
def beWord (a b : UInt8) : ℕ := a.toNat <<< 8 ||| b.toNat

/-- `for (int i = 0; i < 2 * n; i += 2)` over the bytes of an address or a pseudo-header. -/
def sumPairs (bytes : List UInt8) (n : ℕ) (s : Sum32) : Sum32 :=
  (List.range n).foldl (fun s k =>
    s.add (beWord (ByteBuf.get bytes (2 * k)) (ByteBuf.get bytes (2 * k + 1)))) s

/-- `for (uint16_t i = 0; i + 1 < len; i += 2)`, from a turn on; `none` while it has not
come to its end. -/
def sumWords (seg : List UInt8) : ℕ → ℕ → Sum32 → Option Sum32
  | 0, _, _ => none
  | fuel + 1, i, s =>
    if i + 1 < seg.length then
      sumWords seg fuel ((i + 2) % 2 ^ 16)
        (s.add (beWord (ByteBuf.get seg i) (ByteBuf.get seg (i + 1))))
    else some s

/-- `if (len & 1) sum += (uint16_t)p[len-1] << 8;` -/
def sumOdd (seg : List UInt8) (s : Sum32) : Sum32 :=
  if seg.length &&& 1 ≠ 0 then s.add ((ByteBuf.get seg (seg.length - 1)).toNat <<< 8) else s

/-- `while (sum >> 16) sum = (sum & 0xFFFF) + (sum >> 16);` -/
def foldCarries (s : Sum32) : Sum32 :=
  if s.sum >>> 16 = 0 then s
  else foldCarries (Sum32.add ⟨s.sum &&& 0xFFFF, s.overflow⟩ (s.sum >>> 16))
termination_by s.sum
decreasing_by
  have hand : s.sum &&& 65535 = s.sum % 65536 := Nat.and_two_pow_sub_one_eq_mod s.sum 16
  have hshift : s.sum >>> 16 = s.sum / 65536 := Nat.shiftRight_eq_div_pow s.sum 16
  simp only [Sum32.add, hand, hshift] at *
  exact lt_of_le_of_lt (Nat.mod_le _ _) (by omega)

/-- `(uint16_t)(~sum)` -/
def Sum32.complement (s : Sum32) : Sum32 := ⟨(2 ^ 32 - 1 - s.sum) % 2 ^ 16, s.overflow⟩

-- ---------------------------------------------------------------------------
-- The checksums
-- ---------------------------------------------------------------------------

/-- `htons16` -/
def htons16 (v : ℕ) : ℕ := (v >>> 8 ||| v <<< 8) % 2 ^ 16

/-- A `uint16_t` in memory. -/
def le16 (v : ℕ) : List UInt8 := [UInt8.ofNat v, UInt8.ofNat (v >>> 8)]

/-- The turns of the loop are at most the bytes of the segment. -/
def inetChecksum (data : List UInt8) (initSum : Sum32) : Option Sum32 :=
  (sumWords data (data.length + 1) 0 initSum).map fun s => (foldCarries (sumOdd data s)).complement

/-- The checksum, and whether a sum overflowed on the way. -/
def l4PseudoChecksum (src dst : Fin 4 → UInt8) (proto : UInt8) (l4 : List UInt8) : Option Sum32 :=
  let sum : Sum32 := ⟨0, false⟩
  let sum := sum.add (beWord (src 0) (src 1))
  let sum := sum.add (beWord (src 2) (src 3))
  let sum := sum.add (beWord (dst 0) (dst 1))
  let sum := sum.add (beWord (dst 2) (dst 3))
  let sum := sum.add proto.toNat
  let sum := sum.add l4.length
  inetChecksum l4 sum

def ipv6L4Checksum (src dst : Fin 16 → UInt8) (proto : UInt8) (l4 : List UInt8) : Option Sum32 :=
  let sum := sumPairs (List.ofFn src) 8 ⟨0, false⟩
  let sum := sumPairs (List.ofFn dst) 8 sum
  let sum := sum.add proto.toNat
  let sum := sum.add l4.length
  inetChecksum l4 sum

/-- `struct tcp_pseudo` -/
def tcpPseudo (src dst : Fin 4 → UInt8) (segLen : ℕ) : List UInt8 :=
  List.ofFn src ++ List.ofFn dst ++ [0, 6] ++ le16 (htons16 segLen)

def tcpChecksum (src dst : Fin 4 → UInt8) (seg : List UInt8) : Option Sum32 :=
  let sum := sumPairs (tcpPseudo src dst seg.length) 6 ⟨0, false⟩
  (sumWords seg (seg.length + 1) 0 sum).map fun s => (foldCarries (sumOdd seg s)).complement

def tcpChecksum6 (src dst : Fin 16 → UInt8) (seg : List UInt8) : Option Sum32 :=
  let sum := sumPairs (List.ofFn src) 8 ⟨0, false⟩
  let sum := sumPairs (List.ofFn dst) 8 sum
  let sum := sum.add 6
  let sum := sum.add seg.length
  (sumWords seg (seg.length + 1) 0 sum).map fun s => (foldCarries (sumOdd seg s)).complement

-- ---------------------------------------------------------------------------
-- The law
-- ---------------------------------------------------------------------------

/-- The pseudo-header of IPv4. -/
def ipv4Pseudo (src dst : Fin 4 → UInt8) (proto : UInt8) (len : ℕ) : List UInt8 :=
  List.ofFn src ++ List.ofFn dst ++ [0, proto, UInt8.ofNat (len / 256), UInt8.ofNat len]

/-- The pseudo-header of IPv6. -/
def ipv6Pseudo (src dst : Fin 16 → UInt8) (next : UInt8) (len : ℕ) : List UInt8 :=
  List.ofFn src ++ List.ofFn dst ++
    [UInt8.ofNat (len / 2 ^ 24), UInt8.ofNat (len / 2 ^ 16), UInt8.ofNat (len / 256),
      UInt8.ofNat len, 0, 0, 0, next]

/-- The field of a checksum that has not been computed yet. -/
structure EmptyField (seg : List UInt8) (off : ℕ) : Prop where
  even : off % 2 = 0
  fits : off + 2 ≤ seg.length
  zero : ∀ i, off ≤ i → i < off + 2 → ByteBuf.get seg i = 0

/-- The sum of a pseudo-header and the segment, folded. -/
def onesSum (pseudo seg : List UInt8) : ℕ := fold (sum (pseudo ++ seg))

/-- No sum overflows, and with the checksum in its field the segment is right. -/
def Seals (pseudo seg : List UInt8) (checksum : Option Sum32) : Prop :=
  ∃ c, checksum = some ⟨c, false⟩ ∧ ∀ off, EmptyField seg off →
    onesSum pseudo (ByteBuf.store seg off (le16 (htons16 c))) = 0xFFFF

structure ChecksumLaw (seg : List UInt8) : Prop where
  inet : Seals [] seg (inetChecksum seg ⟨0, false⟩)
  l4 : ∀ src dst proto,
    Seals (ipv4Pseudo src dst proto seg.length) seg (l4PseudoChecksum src dst proto seg)
  tcp : ∀ src dst, Seals (ipv4Pseudo src dst 6 seg.length) seg (tcpChecksum src dst seg)
  l4v6 : ∀ src dst proto,
    Seals (ipv6Pseudo src dst proto seg.length) seg (ipv6L4Checksum src dst proto seg)
  tcp6 : ∀ src dst, Seals (ipv6Pseudo src dst 6 seg.length) seg (tcpChecksum6 src dst seg)
  same : ∀ src dst, tcpChecksum src dst seg = l4PseudoChecksum src dst 6 seg
  same6 : ∀ src dst, tcpChecksum6 src dst seg = ipv6L4Checksum src dst 6 seg

-- ---------------------------------------------------------------------------
-- The exact sums
-- ---------------------------------------------------------------------------

variable {seg pseudo : List UInt8} {i x y fuel : ℕ}

theorem beWord_eq (a b : UInt8) : beWord a b = a.toNat * 256 + b.toNat := by
  rw [beWord, ← Nat.shiftLeft_add_eq_or_of_lt b.toNat_lt, Nat.shiftLeft_eq]

theorem beWord_lt (a b : UInt8) : beWord a b < 65536 := by
  have ha := a.toNat_lt
  have hb := b.toNat_lt
  rw [beWord_eq]
  omega

/-- An addition that fits is exact. -/
theorem add_exact (h : x + y < 2 ^ 32) : Sum32.add ⟨x, false⟩ y = ⟨x + y, false⟩ := by
  rw [Sum32.add]
  dsimp only
  rw [Nat.mod_eq_of_lt h, decide_eq_false (by omega)]
  rfl

theorem foldCarries_exact (h : x < 2 ^ 32) : foldCarries ⟨x, false⟩ = ⟨fold x, false⟩ := by
  have hand (x : ℕ) : x &&& 0xFFFF = x % 65536 := Nat.and_two_pow_sub_one_eq_mod x 16
  have hshift (x : ℕ) : x >>> 16 = x / 65536 := Nat.shiftRight_eq_div_pow x 16
  induction x using fold.induct with
  | case1 x hlt =>
    have hzero : x / 65536 = 0 := by omega
    rw [foldCarries]
    dsimp only
    rw [hshift, if_pos hzero, fold_of_lt hlt]
  | case2 x hle ih =>
    have hcarry : x / 65536 ≠ 0 := by omega
    rw [foldCarries]
    dsimp only
    rw [hshift, hand, if_neg hcarry, add_exact (by omega), ih (by omega), fold_of_le (x := x) (by omega)]

theorem complement_exact (h : x < 65536) : Sum32.complement ⟨x, false⟩ = ⟨65535 - x, false⟩ := by
  have hmod : (2 ^ 32 - 1 - x) % 2 ^ 16 = 65535 - x := by omega
  rw [Sum32.complement]
  dsimp only
  rw [hmod]

theorem getD_drop_cons {a : UInt8} {rest : List UInt8} (h : seg.drop i = a :: rest) :
    ByteBuf.get seg i = a := by
  have hget : (seg.drop i)[0]? = some a := by rw [h]; rfl
  rw [List.getElem?_drop, Nat.add_zero] at hget
  rw [ByteBuf.get, List.getD_eq_getElem?_getD, hget, Option.getD_some]

/-- From an even place on, the loop and the odd byte add the words that are left. -/
theorem sumWords_exact (hlen : seg.length < 2 ^ 16) (hi : i % 2 = 0) (hle : i ≤ seg.length)
    (hfuel : seg.length < i + fuel) (hfits : x + sum (seg.drop i) < 2 ^ 32) :
    (sumWords seg fuel i ⟨x, false⟩).map (sumOdd seg) = some ⟨x + sum (seg.drop i), false⟩ := by
  induction fuel generalizing i x with
  | zero => omega
  | succ fuel ih =>
    have hdrop := List.length_drop (i := i) (l := seg)
    cases hrest : seg.drop i with
    | nil =>
      rw [hrest, List.length_nil] at hdrop
      have heven : ¬ seg.length &&& 1 ≠ 0 := by rw [Nat.and_one_is_mod]; omega
      rw [sumWords, if_neg (by omega), Option.map_some, sumOdd, if_neg heven]
      rfl
    | cons a rest =>
      cases rest with
      | nil =>
        rw [hrest, List.length_singleton] at hdrop
        rw [hrest, sum] at hfits
        have hodd : seg.length &&& 1 ≠ 0 := by rw [Nat.and_one_is_mod]; omega
        have hend : seg.length - 1 = i := by omega
        have hlast : ByteBuf.get seg (seg.length - 1) = a := getD_drop_cons (hend ▸ hrest)
        rw [sumWords, if_neg (by omega), Option.map_some, sumOdd, if_pos hodd, hlast,
          Nat.shiftLeft_eq, add_exact hfits]
        rfl
      | cons b rest =>
        rw [hrest, List.length_cons, List.length_cons] at hdrop
        rw [hrest, sum] at hfits
        have htail : seg.drop (i + 1) = b :: rest := by
          rw [← List.drop_drop, hrest, List.drop_one, List.tail_cons]
        have hnext : seg.drop (i + 2) = rest := by
          rw [← List.drop_drop (i := 1) (j := i + 1), htail, List.drop_one, List.tail_cons]
        have hindex : (i + 2) % 2 ^ 16 = i + 2 := Nat.mod_eq_of_lt (by omega)
        have hin : i + 1 < seg.length := by omega
        rw [← Nat.add_assoc] at hfits
        have hword : x + (a.toNat * 256 + b.toNat) < 2 ^ 32 :=
          lt_of_le_of_lt (Nat.le_add_right _ _) hfits
        have hroom : x + (a.toNat * 256 + b.toNat) + sum (seg.drop (i + 2)) < 2 ^ 32 := by rwa [hnext]
        rw [sumWords, if_pos hin, getD_drop_cons hrest, getD_drop_cons htail, beWord_eq,
          add_exact hword, hindex, ih (by omega) (by omega) (by omega) hroom, hnext, sum, Nat.add_assoc]

/-- What the addresses and the length can sum up to leaves room for any segment. -/
theorem segment_room (hlen : seg.length < 2 ^ 16) (hx : x < 2 ^ 22) : x + sum seg < 2 ^ 32 := by
  have hle := sum_le seg
  omega

theorem checksum_exact (hlen : seg.length < 2 ^ 16) (hx : x < 2 ^ 22) :
    ((sumWords seg (seg.length + 1) 0 ⟨x, false⟩).map fun s =>
      (foldCarries (sumOdd seg s)).complement) = some ⟨65535 - fold (x + sum seg), false⟩ := by
  have hroom := segment_room hlen hx
  have hfuel : seg.length < 0 + (seg.length + 1) := by omega
  have hwords := sumWords_exact hlen rfl (Nat.zero_le _) hfuel hroom
  obtain ⟨s, hs, hodd⟩ := Option.map_eq_some_iff.mp hwords
  rw [hs, Option.map_some, hodd, List.drop_zero, foldCarries_exact hroom,
    complement_exact (fold_lt _)]

-- ---------------------------------------------------------------------------
-- The checksum of the headers
-- ---------------------------------------------------------------------------

theorem inetSum_toNat {data : List UInt8} (h : sum data < 2 ^ 32) :
    (inetSum data).toNat = sum data := by
  have hword (a b : BitVec 8) : ((a ++ b).setWidth 32).toNat = a.toNat * 256 + b.toNat := by
    have hb := b.isLt
    rw [BitVec.toNat_setWidth_of_le (by decide), BitVec.toNat_append,
      ← Nat.shiftLeft_add_eq_or_of_lt hb, Nat.shiftLeft_eq]
  induction data using sum.induct with
  | case1 a b rest ih =>
    rw [sum] at h
    have hrest : sum rest < 2 ^ 32 := lt_of_le_of_lt (Nat.le_add_left _ _) h
    rw [inetSum, BitVec.toNat_add, hword, ih hrest, UInt8.toNat_toBitVec, UInt8.toNat_toBitVec,
      Nat.mod_eq_of_lt h, sum]
  | case2 a =>
    rw [inetSum, sum, hword, UInt8.toNat_toBitVec]
    simp
  | case3 => rfl

/-- Two turns are enough. -/
theorem inetFold_toNat (x : BitVec 32) : (inetFold (inetFold x)).toNat = fold x.toNat := by
  have hstep (x : BitVec 32) : (inetFold x).toNat = x.toNat % 65536 + x.toNat / 65536 := by
    have hx := x.isLt
    have hand : x.toNat &&& 65535 = x.toNat % 65536 := Nat.and_two_pow_sub_one_eq_mod x.toNat 16
    have hshift : x.toNat >>> 16 = x.toNat / 65536 := Nat.shiftRight_eq_div_pow x.toNat 16
    have hmask : ((65535 : ℕ) : BitVec 32).toNat = 65535 := rfl
    rw [inetFold, BitVec.toNat_add, BitVec.toNat_and, BitVec.toNat_ushiftRight, hshift, hmask, hand]
    exact Nat.mod_eq_of_lt (by omega)
  have hx := x.isLt
  rw [hstep, hstep]
  rcases Nat.lt_or_ge x.toNat 65536 with hlt | hge
  · rw [fold_of_lt hlt]
    omega
  · rw [fold_of_le hge]
    rcases Nat.lt_or_ge (x.toNat % 65536 + x.toNat / 65536) 65536 with hlt | hge
    · rw [fold_of_lt hlt]
      omega
    · rw [fold_of_le hge, fold_of_lt (by omega)]

/-- The checksum that the headers get is that of `inet_checksum`. -/
theorem inetChecksum_header {data : List UInt8} (h : data.length < 2 ^ 16) :
    inetChecksum data ⟨0, false⟩ = some ⟨(ipChecksum data).toNat, false⟩ := by
  have hroom : sum data < 2 ^ 32 := Nat.zero_add (sum data) ▸ segment_room h (Nat.two_pow_pos 22)
  have hlt := fold_lt (sum data)
  have hvalue : (ipChecksum data).toNat = 65535 - fold (sum data) := by
    rw [ipChecksum, BitVec.toNat_not, BitVec.toNat_setWidth, inetFold_toNat, inetSum_toNat hroom,
      Nat.mod_eq_of_lt hlt]
  rw [hvalue, ← Nat.zero_add (sum data)]
  exact checksum_exact h (Nat.two_pow_pos 22)

-- ---------------------------------------------------------------------------
-- The field
-- ---------------------------------------------------------------------------

/-- In memory the bytes of `htons16(c)` are those of `c`, the high one first. -/
theorem le16_htons16 {c : ℕ} (h : c < 65536) :
    le16 (htons16 c) = [UInt8.ofNat (c / 256), UInt8.ofNat c] := by
  have hshift : c <<< 8 = c * 256 := Nat.shiftLeft_eq c 8
  have hor : c >>> 8 ||| c <<< 8 = c * 256 + c / 256 := by
    have hlow : c >>> 8 < 2 ^ 8 := by rw [Nat.shiftRight_eq_div_pow]; omega
    rw [Nat.or_comm, ← Nat.shiftLeft_add_eq_or_of_lt hlow, hshift, Nat.shiftRight_eq_div_pow]
  have hmod : htons16 c = c % 256 * 256 + c / 256 := by
    rw [htons16, hor]
    omega
  rw [le16, hmod, Nat.shiftRight_eq_div_pow, show 2 ^ 8 = 256 from rfl, List.cons.injEq,
    List.cons.injEq]
  have hhigh : c / 256 < 256 := by omega
  have hdiv : (c % 256 * 256 + c / 256) / 256 = c % 256 := by omega
  refine ⟨UInt8.toNat_inj.mp ?_, UInt8.toNat_inj.mp ?_, rfl⟩
  · rw [UInt8.toNat_ofNat', UInt8.toNat_ofNat']
    omega
  · rw [hdiv, UInt8.toNat_ofNat', UInt8.toNat_ofNat']
    omega

/-- The segment with a word in its field. -/
theorem store_field {off : ℕ} (a b : UInt8) (hfits : off + 2 ≤ seg.length) :
    ByteBuf.store seg off [a, b] = seg.take off ++ a :: b :: seg.drop (off + 2) := by
  have hnone : off - seg.length = 0 := by omega
  rw [ByteBuf.store, hnone]
  simp

theorem EmptyField.split {off : ℕ} (h : EmptyField seg off) :
    seg = seg.take off ++ 0 :: 0 :: seg.drop (off + 2) := by
  have hfits := h.fits
  have hfirst : seg.drop off = 0 :: seg.drop (off + 1) := by
    rw [List.drop_eq_getElem_cons (by omega)]
    have hget := h.zero off le_rfl (by omega)
    rw [ByteBuf.get, List.getD_eq_getElem _ _ (by omega)] at hget
    rw [hget]
  have hsecond : seg.drop (off + 1) = 0 :: seg.drop (off + 2) := by
    rw [List.drop_eq_getElem_cons (by omega)]
    have hget := h.zero (off + 1) (by omega) (by omega)
    rw [ByteBuf.get, List.getD_eq_getElem _ _ (by omega)] at hget
    rw [hget]
  rw [← hsecond, ← hfirst, List.take_append_drop]

theorem onesSum_sealed {off c : ℕ} (heven : pseudo.length % 2 = 0) (h : EmptyField seg off)
    (hc : c < 65536) : onesSum pseudo (ByteBuf.store seg off (le16 (htons16 c))) =
      fold (sum pseudo + sum seg + c) := by
  have htake : (seg.take off).length % 2 = 0 := by
    have hfits := h.fits
    rw [List.length_take, Nat.min_eq_left (by omega)]
    exact h.even
  have hseg : sum seg = sum (seg.take off) + sum (seg.drop (off + 2)) := by
    conv_lhs => rw [h.split, sum_word htake]
    rfl
  rw [onesSum, le16_htons16 hc, store_field _ _ h.fits, sum_append heven, sum_word htake, hseg]
  congr 1
  rw [UInt8.toNat_ofNat', UInt8.toNat_ofNat']
  omega

theorem seals (heven : pseudo.length % 2 = 0) {checksum : Option Sum32}
    (h : checksum = some ⟨65535 - fold (sum pseudo + sum seg), false⟩) :
    Seals pseudo seg checksum :=
  ⟨_, h, fun off hfield => by rw [onesSum_sealed heven hfield (by omega), fold_complement]⟩

-- ---------------------------------------------------------------------------
-- The pseudo-headers
-- ---------------------------------------------------------------------------

theorem take_pair {bytes : List UInt8} {n : ℕ} (h : n + 2 ≤ bytes.length) :
    bytes.take (n + 2) = bytes.take n ++ [ByteBuf.get bytes n, ByteBuf.get bytes (n + 1)] := by
  rw [List.take_succ_eq_append_getElem (by omega), List.take_succ_eq_append_getElem (by omega),
    ByteBuf.get, ByteBuf.get, List.getD_eq_getElem _ _ (by omega),
    List.getD_eq_getElem _ _ (by omega), List.append_assoc]
  rfl

theorem sumPairs_take {bytes : List UInt8} {n : ℕ} (h : 2 * n ≤ bytes.length)
    (hx : x + sum (bytes.take (2 * n)) < 2 ^ 32) :
    sumPairs bytes n ⟨x, false⟩ = ⟨x + sum (bytes.take (2 * n)), false⟩ := by
  induction n with
  | zero => rfl
  | succ n ih =>
    have heven : (bytes.take (2 * n)).length % 2 = 0 := by
      rw [List.length_take]
      omega
    have hsum : sum (bytes.take (2 * (n + 1))) = sum (bytes.take (2 * n)) +
        beWord (ByteBuf.get bytes (2 * n)) (ByteBuf.get bytes (2 * n + 1)) := by
      rw [Nat.mul_succ, take_pair (by omega), sum_append heven, sum, sum, Nat.add_zero, beWord_eq]
    have hprev := ih (by omega) (by omega)
    rw [sumPairs] at hprev
    rw [sumPairs, List.range_succ, List.foldl_append, hprev, List.foldl_cons, List.foldl_nil,
      add_exact (by omega), hsum, Nat.add_assoc]

theorem sumPairs_exact {bytes : List UInt8} {n : ℕ} (h : bytes.length = 2 * n)
    (hx : x + sum bytes < 2 ^ 32) : sumPairs bytes n ⟨x, false⟩ = ⟨x + sum bytes, false⟩ := by
  have htake := @sumPairs_take x bytes n (by omega)
  rw [← h, List.take_length] at htake
  exact htake hx

section Addresses

variable {src dst : Fin 4 → UInt8} {src6 dst6 : Fin 16 → UInt8} {proto : UInt8} {len : ℕ}

theorem ofFn_four (f : Fin 4 → UInt8) : List.ofFn f = [f 0, f 1, f 2, f 3] := rfl

theorem length_ipv4Pseudo : (ipv4Pseudo src dst proto len).length = 12 := by
  rw [ipv4Pseudo, List.length_append, List.length_append, List.length_ofFn, List.length_ofFn]
  rfl

theorem length_ipv6Pseudo : (ipv6Pseudo src6 dst6 proto len).length = 40 := by
  rw [ipv6Pseudo, List.length_append, List.length_append, List.length_ofFn, List.length_ofFn]
  rfl

theorem sum_ofFn_lt (f : Fin 16 → UInt8) : sum (List.ofFn f) < 2 ^ 20 := by
  have hle := sum_le (List.ofFn f)
  rw [List.length_ofFn] at hle
  omega

theorem sum_ipv4Pseudo (h : len < 2 ^ 16) : sum (ipv4Pseudo src dst proto len) =
    beWord (src 0) (src 1) + beWord (src 2) (src 3) + beWord (dst 0) (dst 1) +
      beWord (dst 2) (dst 3) + proto.toNat + len := by
  rw [ipv4Pseudo, ofFn_four, ofFn_four]
  simp only [List.cons_append, List.nil_append, sum, beWord_eq, UInt8.toNat_ofNat',
    UInt8.toNat_zero]
  omega

theorem sum_ipv6Pseudo (h : len < 2 ^ 16) : sum (ipv6Pseudo src6 dst6 proto len) =
    sum (List.ofFn src6) + sum (List.ofFn dst6) + proto.toNat + len := by
  rw [ipv6Pseudo, List.append_assoc, sum_append (by rw [List.length_ofFn]),
    sum_append (by rw [List.length_ofFn])]
  simp only [sum, UInt8.toNat_ofNat', UInt8.toNat_zero]
  omega

theorem l4PseudoChecksum_exact (h : seg.length < 2 ^ 16) : l4PseudoChecksum src dst proto seg =
    some ⟨65535 - fold (sum (ipv4Pseudo src dst proto seg.length) + sum seg), false⟩ := by
  have h₁ := beWord_lt (src 0) (src 1)
  have h₂ := beWord_lt (src 2) (src 3)
  have h₃ := beWord_lt (dst 0) (dst 1)
  have h₄ := beWord_lt (dst 2) (dst 3)
  have hproto := proto.toNat_lt
  rw [l4PseudoChecksum, sum_ipv4Pseudo h]
  simp (disch := omega) only [add_exact, Nat.zero_add]
  exact checksum_exact h (by omega)

theorem ipv6L4Checksum_exact (h : seg.length < 2 ^ 16) : ipv6L4Checksum src6 dst6 proto seg =
    some ⟨65535 - fold (sum (ipv6Pseudo src6 dst6 proto seg.length) + sum seg), false⟩ := by
  have hsrc := sum_ofFn_lt src6
  have hdst := sum_ofFn_lt dst6
  have hproto := proto.toNat_lt
  have hlen (f : Fin 16 → UInt8) : (List.ofFn f).length = 2 * 8 := List.length_ofFn
  rw [ipv6L4Checksum, sum_ipv6Pseudo h, sumPairs_exact (hlen src6) (by omega),
    sumPairs_exact (hlen dst6) (by omega), add_exact (by omega), add_exact (by omega), Nat.zero_add]
  exact checksum_exact h (by omega)

/-- The pseudo-header of TCP has the words that `l4_pseudo_checksum` adds. -/
theorem tcpChecksum_eq (h : seg.length < 2 ^ 16) :
    tcpChecksum src dst seg = l4PseudoChecksum src dst 6 seg := by
  have hpseudo : tcpPseudo src dst seg.length = ipv4Pseudo src dst 6 seg.length := by
    rw [tcpPseudo, ipv4Pseudo, le16_htons16 h, List.append_assoc]
    rfl
  have hlt : sum (ipv4Pseudo src dst 6 seg.length) < 2 ^ 22 := by
    have hle := sum_le (ipv4Pseudo src dst 6 seg.length)
    rw [length_ipv4Pseudo] at hle
    omega
  rw [tcpChecksum, hpseudo, l4PseudoChecksum_exact h]
  rw [sumPairs_exact length_ipv4Pseudo (by omega), Nat.zero_add]
  exact checksum_exact h hlt

theorem tcpChecksum6_eq : tcpChecksum6 src6 dst6 seg = ipv6L4Checksum src6 dst6 6 seg := by
  have hproto : (6 : UInt8).toNat = 6 := rfl
  rw [tcpChecksum6, ipv6L4Checksum, hproto]
  rfl

end Addresses

/--
**Internet checksums.** For every segment no sum overflows, and the checksum that is stored
in an empty field at an even place completes the segment and its pseudo-header to 0xFFFF. The
checksums of TCP are those of the general routines.
-/
theorem checksum_law (seg : List UInt8) (h : seg.length < 2 ^ 16) : ChecksumLaw seg := by
  have hsame : ∀ src dst, tcpChecksum src dst seg = l4PseudoChecksum src dst 6 seg :=
    fun src dst => tcpChecksum_eq h
  have hsame6 : ∀ src dst, tcpChecksum6 src dst seg = ipv6L4Checksum src dst 6 seg :=
    fun src dst => tcpChecksum6_eq
  have hfour : ∀ src dst proto, (ipv4Pseudo src dst proto seg.length).length % 2 = 0 :=
    fun src dst proto => by rw [length_ipv4Pseudo]
  have hsix : ∀ src dst proto, (ipv6Pseudo src dst proto seg.length).length % 2 = 0 :=
    fun src dst proto => by rw [length_ipv6Pseudo]
  refine ⟨?_, fun src dst proto => ?_, fun src dst => ?_, fun src dst proto => ?_,
    fun src dst => ?_, hsame, hsame6⟩
  · exact seals rfl (checksum_exact h (by decide))
  · exact seals (hfour src dst proto) (l4PseudoChecksum_exact h)
  · rw [hsame]
    exact seals (hfour src dst 6) (l4PseudoChecksum_exact h)
  · exact seals (hsix src dst proto) (ipv6L4Checksum_exact h)
  · rw [hsame6]
    exact seals (hsix src dst 6) (ipv6L4Checksum_exact h)

theorem checksum_law_three : ChecksumLaw [0x12, 0x34, 0x56] := checksum_law _ (by decide)

end Lestra
