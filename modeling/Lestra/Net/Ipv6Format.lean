import Lestra.Net.Ipv6Text

/-!
# Writing IPv6 addresses

`ipv6_addr_to_str` (`kernel/include/lestra/net.h`). It writes every address in the text form,
and the text denotes the address; the parser reads none of these texts rightly but `::`.

* `ip6TextOf` — the text of an address
* `ipv6AddrToStr_render` — what the formatter writes
* `ip6_text_law` — which addresses and which texts are read back
-/

namespace Lestra

-- ---------------------------------------------------------------------------
-- The formatter
-- ---------------------------------------------------------------------------

/-- `((uint16_t)a.bytes[i*2] << 8) | a.bytes[i*2+1]` -/
def ip6Group (a : Ip6Addr) (i : ℕ) : ℕ :=
  (a (Fin.ofNat 16 (i * 2))).toNat <<< 8 ||| (a (Fin.ofNat 16 (i * 2 + 1))).toNat

/-- The run of zero groups that the loop is in, and the longest one so far. -/
structure ZeroRun where
  runStart : Option ℕ
  runLen : ℕ
  bestStart : Option ℕ
  bestLen : ℕ

/-- `if (run_len > best_len) { best_start = run_start; best_len = run_len; }` -/
def ZeroRun.close (r : ZeroRun) : ZeroRun :=
  if r.bestLen < r.runLen then { r with bestStart := r.runStart, bestLen := r.runLen } else r

def ZeroRun.turn (a : Ip6Addr) (r : ZeroRun) (i : ℕ) : ZeroRun :=
  if ip6Group a i = 0 then
    match r.runStart with
    | none => { r with runStart := some i, runLen := 1 }
    | some _ => { r with runLen := r.runLen + 1 }
  else { r.close with runStart := none, runLen := 0 }

def bestRun (a : Ip6Addr) : ZeroRun :=
  ((List.range 8).foldl (ZeroRun.turn a) ⟨none, 0, none, 0⟩).close

/-- `if (w < end) *w++ = c` -/
def putChar (room : ℕ) (w : List UInt8) (c : UInt8) : List UInt8 :=
  if w.length < room then w ++ [c] else w

/-- `hex[nib]` -/
def hexChar (nib : ℕ) : UInt8 := UInt8.ofNat (if nib < 10 then 0x30 + nib else 0x61 + nib - 10)

/-- `if (nib || started || s == 0)`, with the text and `started`. -/
def putNib (room hword : ℕ) (st : List UInt8 × Bool) (s : ℕ) : List UInt8 × Bool :=
  let nib := hword >>> s &&& 0xF
  if nib ≠ 0 ∨ st.2 ∨ s = 0 then (putChar room st.1 (hexChar nib), true) else st

/-- `for (int s = 12; s >= 0; s -= 4)` -/
def putHex (room hword : ℕ) (w : List UInt8) : List UInt8 :=
  ([12, 8, 4, 0].foldl (putNib room hword) (w, false)).1

/-- The loop that writes; each turn goes on by at least a group. -/
def formatLoop (a : Ip6Addr) (best : ZeroRun) (room : ℕ) : ℕ → ℕ → List UInt8 → List UInt8
  | 0, _, w => w
  | fuel + 1, i, w =>
    if 8 ≤ i then w
    else if best.bestStart = some i then
      let w := if i = 0 then putChar room w ip6Colon else w
      formatLoop a best room fuel (i + best.bestLen) (putChar room w ip6Colon)
    else
      let w := putHex room (ip6Group a i) w
      formatLoop a best room fuel (i + 1) (if i < 7 then putChar room w ip6Colon else w)

/-- The string in the buffer, of `outsz` bytes with the NUL. -/
def ipv6AddrToStr (a : Ip6Addr) (outsz : ℕ) : List UInt8 :=
  formatLoop a (bestRun a) (outsz - 1) 8 0 []

-- ---------------------------------------------------------------------------
-- The text of an address
-- ---------------------------------------------------------------------------

/-- The shortest digits of a group. -/
def hexDigits (n : ℕ) : List UInt8 :=
  if n < 16 then [hexChar n]
  else if n < 256 then [hexChar (n / 16), hexChar (n % 16)]
  else if n < 4096 then [hexChar (n / 256), hexChar (n / 16 % 16), hexChar (n % 16)]
  else [hexChar (n / 4096), hexChar (n / 256 % 16), hexChar (n / 16 % 16), hexChar (n % 16)]

/-- The texts of the groups from `i` on, `n` of them. -/
def groupTexts (a : Ip6Addr) (i n : ℕ) : List (List UInt8) :=
  (List.range' i n).map fun j => hexDigits (ip6Group a j)

def ip6TextOf (a : Ip6Addr) : Ip6Text :=
  match (bestRun a).bestStart with
  | none => .full (groupTexts a 0 8)
  | some b => .gap (groupTexts a 0 b)
      (groupTexts a (b + (bestRun a).bestLen) (8 - (b + (bestRun a).bestLen)))

variable {a : Ip6Addr} {i n room : ℕ} {full : List UInt8} {r : ZeroRun}

theorem ip6Group_eq (a : Ip6Addr) (i : ℕ) : ip6Group a i =
    (a (Fin.ofNat 16 (i * 2))).toNat * 256 + (a (Fin.ofNat 16 (i * 2 + 1))).toNat := by
  rw [ip6Group, ← Nat.shiftLeft_add_eq_or_of_lt (UInt8.toNat_lt _), Nat.shiftLeft_eq]

theorem ip6Group_lt (a : Ip6Addr) (i : ℕ) : ip6Group a i < 65536 := by
  have hhigh := (a (Fin.ofNat 16 (i * 2))).toNat_lt
  have hlow := (a (Fin.ofNat 16 (i * 2 + 1))).toNat_lt
  rw [ip6Group_eq]
  omega

theorem hexVal_hexChar (h : n < 16) : hexVal (hexChar n) = some n := by
  have hall : ∀ n < 16, hexVal (hexChar n) = some n := by decide
  exact hall n h

theorem isGroup_hexDigits (h : n < 65536) : IsGroup (hexDigits n) := by
  have hchar {n : ℕ} (hn : n < 16) : (hexVal (hexChar n)).isSome := by rw [hexVal_hexChar hn]; rfl
  rw [hexDigits]
  split_ifs with h₁ h₂ h₃
  · exact ⟨by simp, by simp, List.forall_mem_singleton.mpr (hchar h₁)⟩
  · refine ⟨by simp, by simp, ?_⟩
    simp only [List.forall_mem_cons]
    exact ⟨hchar (by omega), hchar (by omega), nofun⟩
  · refine ⟨by simp, by simp, ?_⟩
    simp only [List.forall_mem_cons]
    exact ⟨hchar (by omega), hchar (by omega), hchar (by omega), nofun⟩
  · refine ⟨by simp, by simp, ?_⟩
    simp only [List.forall_mem_cons]
    exact ⟨hchar (by omega), hchar (by omega), hchar (by omega), hchar (by omega), nofun⟩

theorem hexValue_hexDigits (h : n < 65536) : hexValue (hexDigits n) = n := by
  have hchar {n : ℕ} (hn : n < 16) : (hexVal (hexChar n)).getD 0 = n := by rw [hexVal_hexChar hn]; rfl
  rw [hexDigits]
  split_ifs with h₁ h₂ h₃ <;> simp only [hexValue, List.foldl_cons, List.foldl_nil]
  · rw [hchar h₁, Nat.zero_mul, Nat.zero_add]
  · rw [hchar (by omega), hchar (by omega)]
    omega
  · rw [hchar (by omega), hchar (by omega), hchar (by omega)]
    omega
  · rw [hchar (by omega), hchar (by omega), hchar (by omega), hchar (by omega)]
    omega

theorem putChar_take (full : List UInt8) (c : UInt8) :
    putChar room (full.take room) c = (full ++ [c]).take room := by
  rw [putChar, List.length_take]
  split
  · rename_i hroom
    rw [List.take_of_length_le (by omega), List.take_of_length_le
      (by rw [List.length_append, List.length_singleton]; omega)]
  · rw [List.take_append_of_le_length (by omega)]

theorem nib_eq (n s : ℕ) : n >>> s &&& 0xF = n / 2 ^ s % 16 := by
  have hand (x : ℕ) : x &&& 0xF = x % 16 := Nat.and_two_pow_sub_one_eq_mod x 4
  rw [hand, Nat.shiftRight_eq_div_pow]

theorem putNib_skip {w : List UInt8} {s : ℕ} (h : n / 2 ^ s = 0) (hs : s ≠ 0) :
    putNib room n (w, false) s = (w, false) := by
  rw [putNib, nib_eq, h]
  simp [hs]

theorem putNib_put {d s : ℕ} {started : Bool} (hd : n / 2 ^ s % 16 = d)
    (h : d ≠ 0 ∨ started ∨ s = 0) (full : List UInt8) :
    putNib room n (full.take room, started) s = ((full ++ [hexChar d]).take room, true) := by
  rw [putNib, nib_eq, hd]
  dsimp only
  rw [if_pos h, putChar_take]

/-- The nibbles that are written are the digits. -/
theorem putHex_take (h : n < 65536) (full : List UInt8) :
    putHex room n (full.take room) = (full ++ hexDigits n).take room := by
  have hlast : n / 2 ^ 0 % 16 = n % 16 := by rw [Nat.pow_zero, Nat.div_one]
  rw [putHex, hexDigits]
  simp only [List.foldl_cons, List.foldl_nil]
  split_ifs with h₁ h₂ h₃
  · rw [putNib_skip (by omega) (by decide), putNib_skip (by omega) (by decide),
      putNib_skip (by omega) (by decide), putNib_put hlast (.inr (.inr rfl)), Nat.mod_eq_of_lt h₁]
  · rw [putNib_skip (by omega) (by decide), putNib_skip (by omega) (by decide),
      putNib_put (d := n / 16) (by omega) (.inl (by omega)), putNib_put hlast (.inr (.inr rfl)),
      List.append_assoc]
    rfl
  · rw [putNib_skip (by omega) (by decide), putNib_put (d := n / 256) (by omega) (.inl (by omega)),
      putNib_put (d := n / 16 % 16) (by omega) (.inr (.inl rfl)), putNib_put hlast (.inr (.inr rfl)),
      List.append_assoc, List.append_assoc]
    rfl
  · rw [putNib_put (d := n / 4096) (by omega) (.inl (by omega)),
      putNib_put (d := n / 256 % 16) (by omega) (.inr (.inl rfl)),
      putNib_put (d := n / 16 % 16) (by omega) (.inr (.inl rfl)), putNib_put hlast (.inr (.inr rfl)),
      List.append_assoc, List.append_assoc, List.append_assoc]
    rfl

-- ---------------------------------------------------------------------------
-- The run of zeros
-- ---------------------------------------------------------------------------

/-- A run of zero groups that ends at `stop` or before it. -/
def IsRun (a : Ip6Addr) (stop : ℕ) (start : Option ℕ) (len : ℕ) : Prop :=
  match start with
  | none => len = 0
  | some b => 0 < len ∧ b + len ≤ stop ∧ ∀ j, b ≤ j → j < b + len → ip6Group a j = 0

structure RunsOk (a : Ip6Addr) (i : ℕ) (r : ZeroRun) : Prop where
  run : IsRun a i r.runStart r.runLen
  here : ∀ b, r.runStart = some b → b + r.runLen = i
  best : IsRun a i r.bestStart r.bestLen

theorem IsRun.mono {start : Option ℕ} {len : ℕ} (h : IsRun a i start len) :
    IsRun a (i + 1) start len := by
  cases start with
  | none => exact h
  | some b => exact ⟨h.1, by have := h.2.1; omega, h.2.2⟩

theorem RunsOk.close (h : RunsOk a i r) : IsRun a i r.close.bestStart r.close.bestLen := by
  rw [ZeroRun.close]
  split
  · exact h.run
  · exact h.best

theorem RunsOk.turn (h : RunsOk a i r) : RunsOk a (i + 1) (r.turn a i) := by
  have hclose := h.close
  rw [ZeroRun.turn]
  split
  · rename_i hzero
    cases hstart : r.runStart with
    | none =>
      refine ⟨⟨Nat.one_pos, Nat.le_refl _, fun j hj hlt => ?_⟩, fun b hb => ?_, h.best.mono⟩
      · dsimp only at hlt
        have heq : j = i := by omega
        rwa [heq]
      · rw [← Option.some.inj hb]
    | some b =>
      have hrun := h.run
      have hhere := h.here b hstart
      rw [hstart] at hrun
      refine ⟨?_, fun b' hb' => ?_, h.best.mono⟩
      · show IsRun a (i + 1) (some b) (r.runLen + 1)
        refine ⟨Nat.succ_pos _, by omega, fun j hj hlt => ?_⟩
        rcases Nat.lt_or_ge j i with hji | hji
        · exact hrun.2.2 j hj (by omega)
        · have heq : j = i := by omega
          rwa [heq]
      · have heq := Option.some.inj hb'
        dsimp only
        omega
  · exact ⟨rfl, nofun, hclose.mono⟩

/-- The run that is left out consists of zero groups. -/
theorem bestRun_isRun (a : Ip6Addr) : IsRun a 8 (bestRun a).bestStart (bestRun a).bestLen := by
  have hfold : ∀ n, RunsOk a n ((List.range n).foldl (ZeroRun.turn a) ⟨none, 0, none, 0⟩) := by
    intro n
    induction n with
    | zero => exact ⟨rfl, nofun, rfl⟩
    | succ n ih =>
      rw [List.range_succ, List.foldl_append]
      exact ih.turn
  exact (hfold 8).close

-- ---------------------------------------------------------------------------
-- What is written
-- ---------------------------------------------------------------------------

theorem groupTexts_succ (a : Ip6Addr) (i n : ℕ) :
    groupTexts a i (n + 1) = hexDigits (ip6Group a i) :: groupTexts a (i + 1) n := by
  rw [groupTexts, List.range'_succ, List.map_cons]
  rfl

/-- Behind the gap, or without one, the groups are written with colons between them. -/
theorem formatLoop_after {best : ZeroRun} (n : ℕ) {i fuel : ℕ} (hi : i + n = 8) (hfuel : n ≤ fuel)
    (hbest : ∀ b, best.bestStart = some b → b < i) (full : List UInt8) :
    formatLoop a best room fuel i (full.take room) =
      (full ++ groupsText (groupTexts a i n)).take room := by
  induction n generalizing i fuel full with
  | zero =>
    rw [groupTexts, List.range'_zero, List.map_nil, groupsText, List.append_nil]
    cases fuel with
    | zero => rfl
    | succ fuel => rw [formatLoop, if_pos (by omega)]
  | succ n ih =>
    obtain ⟨fuel, rfl⟩ : ∃ k, fuel = k + 1 := ⟨fuel - 1, by omega⟩
    have hnot : best.bestStart ≠ some i := fun heq => Nat.lt_irrefl _ (hbest i heq)
    have hnext : ∀ b, best.bestStart = some b → b < i + 1 := fun b hb => Nat.lt_succ_of_lt (hbest b hb)
    rw [formatLoop, if_neg (by omega), if_neg hnot]
    dsimp only
    rw [putHex_take (ip6Group_lt a i), groupTexts_succ]
    cases n with
    | zero =>
      rw [if_neg (by omega), ih (by omega) (by omega) hnext]
      rw [groupTexts, List.range'_zero, List.map_nil, groupsText, List.append_nil]
      rfl
    | succ n =>
      rw [if_pos (by omega), putChar_take, ih (by omega) (by omega) hnext, groupTexts_succ, groupsText]
      simp only [List.append_assoc, List.cons_append, List.nil_append]

/-- The groups before the gap, each with a colon behind it. -/
def colonTexts (groups : List (List UInt8)) : List UInt8 := groups.flatMap (· ++ [ip6Colon])

theorem formatLoop_before {best : ZeroRun} {b : ℕ} (hb : best.bestStart = some b)
    (hpos : 0 < best.bestLen) (hend : b + best.bestLen ≤ 8) (n : ℕ) {i fuel : ℕ} (hi : i + n = b)
    (hfuel : 8 - i ≤ fuel) (full : List UInt8) :
    formatLoop a best room fuel i (full.take room) =
      (full ++ (colonTexts (groupTexts a i n) ++ ((if i = 0 ∧ n = 0 then [ip6Colon] else []) ++
        ip6Colon :: groupsText (groupTexts a (b + best.bestLen) (8 - (b + best.bestLen)))))).take
          room := by
  obtain ⟨fuel, rfl⟩ : ∃ k, fuel = k + 1 := ⟨fuel - 1, by omega⟩
  induction n generalizing i fuel full with
  | zero =>
    rw [Nat.add_zero] at hi
    subst hi
    have hafter : ∀ full, formatLoop a best room fuel (i + best.bestLen) (full.take room) =
        (full ++ groupsText (groupTexts a (i + best.bestLen) (8 - (i + best.bestLen)))).take room :=
      formatLoop_after (8 - (i + best.bestLen)) (by omega) (by omega) fun c hc => by
        rw [hb, Option.some.injEq] at hc
        omega
    rw [formatLoop, if_neg (by omega), if_pos hb]
    dsimp only
    by_cases hzero : i = 0
    · rw [if_pos hzero, if_pos ⟨hzero, rfl⟩, putChar_take, putChar_take, hafter]
      simp only [groupTexts, List.range'_zero, List.map_nil, colonTexts, List.flatMap_nil,
        List.append_assoc, List.nil_append, List.cons_append]
    · rw [if_neg hzero, if_neg (fun h => hzero h.1), putChar_take, hafter]
      simp only [groupTexts, List.range'_zero, List.map_nil, colonTexts, List.flatMap_nil,
        List.append_assoc, List.nil_append, List.cons_append]
  | succ n ih =>
    obtain ⟨fuel, rfl⟩ : ∃ k, fuel = k + 1 := ⟨fuel - 1, by omega⟩
    have hnot : best.bestStart ≠ some i := by
      rw [hb, Ne, Option.some.injEq]
      omega
    rw [formatLoop, if_neg (by omega), if_neg hnot]
    dsimp only
    rw [putHex_take (ip6Group_lt a i), if_pos (by omega), putChar_take, ih (by omega) _ fuel (by omega),
      groupTexts_succ, colonTexts, colonTexts, List.flatMap_cons, if_neg (by omega), if_neg (by omega)]
    simp only [List.append_assoc]

theorem colonTexts_eq {groups : List (List UInt8)} (h : groups ≠ []) :
    colonTexts groups = groupsText groups ++ [ip6Colon] := by
  induction groups with
  | nil => exact absurd rfl h
  | cons group rest ih =>
    cases rest with
    | nil => exact List.append_nil _
    | cons next rest =>
      have hrest := ih (List.cons_ne_nil next rest)
      rw [colonTexts] at hrest
      rw [colonTexts, List.flatMap_cons, hrest, groupsText]
      simp only [List.append_assoc, List.cons_append, List.nil_append]

theorem length_groupTexts (a : Ip6Addr) (i n : ℕ) : (groupTexts a i n).length = n := by
  rw [groupTexts, List.length_map, List.length_range']

theorem isGroup_groupTexts : ∀ group ∈ groupTexts a i n, IsGroup group :=
  List.forall_mem_map.mpr fun j _ => isGroup_hexDigits (ip6Group_lt a j)

/-- Nothing is cut off when the buffer is long enough. -/
theorem formatLoop_render (a : Ip6Addr) (room : ℕ) :
    formatLoop a (bestRun a) room 8 0 [] = (ip6TextOf a).render.take room := by
  have hrun := bestRun_isRun a
  rw [ip6TextOf]
  cases hbest : (bestRun a).bestStart with
  | none =>
    have hnone : ∀ b, (bestRun a).bestStart = some b → b < 0 := by
      intro b hb
      rw [hbest] at hb
      cases hb
    have hloop : formatLoop a (bestRun a) room 8 0 (List.take room []) = _ :=
      formatLoop_after 8 (Nat.zero_add 8) (Nat.le_refl 8) hnone []
    rwa [List.take_nil] at hloop
  | some b =>
    rw [hbest] at hrun
    have hloop : formatLoop a (bestRun a) room 8 0 (List.take room []) = _ :=
      formatLoop_before hbest hrun.1 hrun.2.1 b (Nat.zero_add b) (Nat.le_refl 8) []
    rw [List.take_nil] at hloop
    rw [hloop, Ip6Text.render]
    cases b with
    | zero => rfl
    | succ b =>
      have hne : groupTexts a 0 (b + 1) ≠ [] := by
        rw [groupTexts_succ]
        exact List.cons_ne_nil _ _
      rw [if_neg (fun h => Nat.succ_ne_zero b h.2), colonTexts_eq hne, List.append_assoc]
      rfl

theorem Ip6Text.WellFormed.length_render {t : Ip6Text} (h : t.WellFormed) : t.render.length ≤ 39 := by
  have hgroups {groups : List (List UInt8)} (hg : ∀ group ∈ groups, IsGroup group) :
      (groupsText groups).length + 1 ≤ 5 * groups.length + if groups = [] then 1 else 0 := by
    induction groups with
    | nil => exact Nat.le_refl 1
    | cons group rest ih =>
      rw [List.forall_mem_cons] at hg
      have hle := hg.1.le
      cases rest with
      | nil =>
        rw [groupsText, List.length_singleton]
        omega
      | cons next rest =>
        have hrest := ih hg.2
        rw [if_neg (List.cons_ne_nil _ _), List.length_cons] at hrest
        rw [groupsText, List.length_append, List.length_cons, List.length_cons, List.length_cons]
        omega
  cases t with
  | full groups =>
    have hcount : groups.length = 8 := h.count
    have hlen := @hgroups groups h.isGroup
    rw [Ip6Text.render]
    rw [if_neg (by rintro rfl; cases hcount)] at hlen
    omega
  | gap before after =>
    have hcount : before.length + after.length ≤ 7 := h.count
    have hbefore := hgroups fun g hg => h.isGroup g (List.mem_append_left _ hg)
    have hafter := hgroups fun g hg => h.isGroup g (List.mem_append_right _ hg)
    rw [Ip6Text.render, List.length_append, List.length_cons, List.length_cons]
    split at hbefore <;> split at hafter <;> omega

theorem wellFormed_textOf (a : Ip6Addr) : (ip6TextOf a).WellFormed := by
  have hrun := bestRun_isRun a
  rw [ip6TextOf]
  cases hbest : (bestRun a).bestStart with
  | none => exact ⟨isGroup_groupTexts, length_groupTexts a 0 8⟩
  | some b =>
    rw [hbest] at hrun
    refine ⟨List.forall_mem_append.mpr ⟨isGroup_groupTexts, isGroup_groupTexts⟩, ?_⟩
    show (groupTexts a 0 b).length + (groupTexts a _ _).length ≤ 7
    rw [length_groupTexts, length_groupTexts]
    have hpos := hrun.1
    have hend := hrun.2.1
    omega

/-- What the formatter writes into a buffer of the usual size. -/
theorem ipv6AddrToStr_render (a : Ip6Addr) {outsz : ℕ} (h : 40 ≤ outsz) :
    ipv6AddrToStr a outsz = (ip6TextOf a).render := by
  have hlen := (wellFormed_textOf a).length_render
  rw [ipv6AddrToStr, formatLoop_render, List.take_of_length_le (by omega)]

theorem map_hexValue_groupTexts (a : Ip6Addr) (i n : ℕ) :
    (groupTexts a i n).map hexValue = (List.range' i n).map (ip6Group a) := by
  rw [groupTexts, List.map_map]
  exact List.map_congr_left fun j _ => hexValue_hexDigits (ip6Group_lt a j)

/-- The text denotes the groups of the address. -/
theorem denotes_textOf (a : Ip6Addr) : (ip6TextOf a).denotes = (List.range' 0 8).map (ip6Group a) := by
  have hrun := bestRun_isRun a
  rw [ip6TextOf]
  cases hbest : (bestRun a).bestStart with
  | none => exact map_hexValue_groupTexts a 0 8
  | some b =>
    rw [hbest] at hrun
    generalize (bestRun a).bestLen = len at hrun
    obtain ⟨hpos, hend, hzero⟩ := hrun
    have hmid : List.replicate len 0 = (List.range' b len).map (ip6Group a) := by
      refine (List.eq_replicate_iff.mpr ⟨by rw [List.length_map, List.length_range'], ?_⟩).symm
      refine List.forall_mem_map.mpr fun j hj => ?_
      rw [List.mem_range'_1] at hj
      exact hzero j hj.1 hj.2
    have hlen : 8 - b - (8 - (b + len)) = len := by omega
    rw [Ip6Text.denotes, length_groupTexts, length_groupTexts, hlen, map_hexValue_groupTexts,
      map_hexValue_groupTexts, hmid, ← List.map_append, ← List.map_append]
    congr 1
    have hfirst : List.range' 0 b ++ List.range' b len = List.range' 0 (b + len) := by
      have := List.range'_append_1 (s := 0) (m := b) (n := len)
      rwa [Nat.zero_add] at this
    have hsecond : List.range' 0 (b + len) ++ List.range' (b + len) (8 - (b + len)) = List.range' 0 8 := by
      have := List.range'_append_1 (s := 0) (m := b + len) (n := 8 - (b + len))
      rwa [Nat.zero_add, Nat.add_sub_cancel' hend] at this
    rw [hfirst, hsecond]

theorem getD_ip6Groups (a : Ip6Addr) {k : ℕ} (hk : k < 8) :
    ((List.range' 0 8).map (ip6Group a)).getD k 0 = ip6Group a k := by
  have hlen : k < ((List.range' 0 8).map (ip6Group a)).length := by
    rw [List.length_map, List.length_range']
    exact hk
  rw [List.getD_eq_getElem _ _ hlen, List.getElem_map, List.getElem_range', Nat.zero_add, Nat.one_mul]

theorem ip6OfGroups_group (a : Ip6Addr) : ip6OfGroups ((List.range' 0 8).map (ip6Group a)) = a := by
  funext i
  have hi : i.val / 2 < 8 := by omega
  have hhigh := (a (Fin.ofNat 16 (i.val / 2 * 2))).toNat_lt
  have hlow := (a (Fin.ofNat 16 (i.val / 2 * 2 + 1))).toNat_lt
  rw [ip6OfGroups, getD_ip6Groups a hi, ip6Group_eq]
  split
  · rename_i heven
    have hplace : Fin.ofNat 16 (i.val / 2 * 2) = i := by
      rw [Fin.ext_iff, Fin.val_ofNat]
      omega
    have hbyte : ((a (Fin.ofNat 16 (i.val / 2 * 2))).toNat * 256 +
        (a (Fin.ofNat 16 (i.val / 2 * 2 + 1))).toNat) / 256 =
          (a (Fin.ofNat 16 (i.val / 2 * 2))).toNat := by omega
    rw [hbyte, hplace, UInt8.ofNat_toNat]
  · rename_i hodd
    have hplace : Fin.ofNat 16 (i.val / 2 * 2 + 1) = i := by
      rw [Fin.ext_iff, Fin.val_ofNat]
      omega
    rw [hplace] at hlow ⊢
    rw [← UInt8.toNat_inj, UInt8.toNat_ofNat']
    omega

theorem ip6OfGroups_zero (a : Ip6Addr) : (∀ j < 8, ip6Group a j = 0) ↔ a = fun _ => 0 := by
  constructor
  · intro hall
    have hzeros : (List.range' 0 8).map (ip6Group a) = List.replicate 8 0 := by
      refine List.eq_replicate_iff.mpr ⟨by rw [List.length_map, List.length_range'], ?_⟩
      refine List.forall_mem_map.mpr fun j hj => hall j ?_
      have hlt := (List.mem_range'_1.mp hj).2
      omega
    rw [← ip6OfGroups_group a, hzeros]
    funext i
    rw [ip6OfGroups, List.getD_eq_getElem _ _ (by rw [List.length_replicate]; omega),
      List.getElem_replicate]
    split <;> rfl
  · rintro rfl j _
    rw [ip6Group_eq]
    rfl

theorem Ip6Text.zero_iff (t : Ip6Text) : t.Zero ↔ ∀ g ∈ t.denotes, g = 0 := by
  cases t with
  | full groups => rw [Ip6Text.Zero, Ip6Text.groups, Ip6Text.denotes, List.forall_mem_map]
  | gap before after =>
    rw [Ip6Text.Zero, Ip6Text.groups, Ip6Text.denotes, List.forall_mem_append, List.forall_mem_append,
      List.forall_mem_append, List.forall_mem_map, List.forall_mem_map]
    constructor
    · intro hzero
      exact ⟨⟨hzero.1, fun g hg => List.eq_of_mem_replicate hg⟩, hzero.2⟩
    · intro hzero
      exact ⟨hzero.1.1, hzero.2⟩

/-- A zero group has one digit here, and the parser's accident takes three of it. -/
theorem textOf_not_lucky (a : Ip6Addr) : ¬ (ip6TextOf a).Lucky := by
  have hwf := wellFormed_textOf a
  rw [ip6TextOf] at hwf ⊢
  cases hbest : (bestRun a).bestStart with
  | none => exact id
  | some b =>
    rw [hbest] at hwf
    rintro ⟨init, last, only, hbefore, hafter, hzero, hseven, -⟩
    have hmem : last ∈ groupTexts a 0 b := by
      rw [hbefore]
      exact List.mem_append_right _ (List.mem_singleton.mpr rfl)
    have hle : only.length ≤ 4 := by
      refine (hwf.isGroup only (List.mem_append_right _ ?_)).le
      rw [hafter]
      exact List.mem_singleton.mpr rfl
    have hlast := hzero last hmem
    obtain ⟨j, -, rfl⟩ := List.mem_map.mp hmem
    rw [hexValue_hexDigits (ip6Group_lt a j)] at hlast
    rw [hlast] at hseven
    have hone : (hexDigits 0).length = 1 := rfl
    omega

/-- The only text of the formatter that is read rightly is that of the zero address. -/
theorem textOf_right (a : Ip6Addr) :
    (ip6TextOf a).Zero ∨ (ip6TextOf a).Lucky ↔ a = fun _ => 0 := by
  rw [or_iff_left (textOf_not_lucky a), Ip6Text.zero_iff, denotes_textOf, List.forall_mem_map,
    ← ip6OfGroups_zero]
  simp only [List.mem_range'_1, Nat.zero_le, true_and, Nat.zero_add]

-- ---------------------------------------------------------------------------
-- The round trip
-- ---------------------------------------------------------------------------

/-- What the parser makes of the formatter's text. -/
theorem parse_format (a : Ip6Addr) {outsz : ℕ} (h : 40 ≤ outsz) :
    parseLiteral (ipv6AddrToStr a outsz) = some (ip6OfGroups (misread (ip6TextOf a))) := by
  rw [ipv6AddrToStr_render a h]
  exact literal_text (wellFormed_textOf a) _ List.mem_cons_self

/-- **Addresses as text.** The formatter writes a text of the address into any buffer that takes
one. The parser gets the address back from it only for the zero address; of all texts, with or
without brackets, it reads rightly those of zero groups, and those of `Ip6Text.Lucky`. -/
theorem ip6_text_law (a : Ip6Addr) (outsz : ℕ) (houtsz : 40 ≤ outsz) (t : Ip6Text)
    (ht : t.WellFormed) :
    (parseLiteral (ipv6AddrToStr a outsz) = some a ↔ a = fun _ => 0) ∧
      (ParsesRight t ↔ t.Zero ∨ t.Lucky) := by
  refine ⟨?_, parsesRight_iff ht⟩
  have hwf := wellFormed_textOf a
  have hright := parsesRight_iff hwf
  rw [textOf_right a] at hright
  rw [← hright]
  constructor
  · intro hparse text htext
    rw [literal_text hwf text htext, ← parse_format a houtsz, hparse, denotes_textOf,
      ip6OfGroups_group]
  · intro hparse
    have hrender := hparse _ List.mem_cons_self
    rwa [denotes_textOf, ip6OfGroups_group, ← ipv6AddrToStr_render a houtsz] at hrender

/-- `::1` -/
def ip6Loopback : Ip6Addr := ip6OfGroups [0, 0, 0, 0, 0, 0, 0, 1]

/-- `2001:db8:0:0:0:0:0:1` -/
def fullText : Ip6Text :=
  .full [[0x32, 0x30, 0x30, 0x31], [0x64, 0x62, 0x38], [0x30], [0x30], [0x30], [0x30], [0x30], [0x31]]

theorem wellFormed_fullText : fullText.WellFormed where
  isGroup := by
    rw [fullText, Ip6Text.groups]
    simp only [List.forall_mem_cons]
    have hshort : IsGroup [0x30] := ⟨by decide, by decide, List.all_eq_true.mp rfl⟩
    refine ⟨⟨by decide, by decide, List.all_eq_true.mp rfl⟩,
      ⟨by decide, by decide, List.all_eq_true.mp rfl⟩, hshort, hshort, hshort, hshort, hshort,
      ⟨by decide, by decide, List.all_eq_true.mp rfl⟩, nofun⟩
  count := rfl

theorem ip6_text_law_loopback :
    (parseLiteral (ipv6AddrToStr ip6Loopback 40) = some ip6Loopback ↔ ip6Loopback = fun _ => 0) ∧
      (ParsesRight fullText ↔ fullText.Zero ∨ fullText.Lucky) :=
  ip6_text_law ip6Loopback 40 (Nat.le_refl 40) fullText wellFormed_fullText

/-- The loopback address comes back as `::100`. -/
theorem loopback_misread :
    ipv6AddrToStr ip6Loopback 40 = [ip6Colon, ip6Colon, 0x31] ∧
      parseLiteral (ipv6AddrToStr ip6Loopback 40) = some (ip6OfGroups [0, 0, 0, 0, 0, 0, 0, 0x100]) ∧
      parseLiteral (ipv6AddrToStr ip6Loopback 40) ≠ some ip6Loopback := by
  have htext : ip6TextOf ip6Loopback = .gap [] [[0x31]] := rfl
  have hmisread : misread (.gap [] [[0x31]]) = [0, 0, 0, 0, 0, 0, 0, 0x100] := by decide
  have hparse := parse_format ip6Loopback (Nat.le_refl 40)
  rw [htext, hmisread] at hparse
  refine ⟨?_, hparse, ?_⟩
  · rw [ipv6AddrToStr_render ip6Loopback (Nat.le_refl 40), htext]
    rfl
  · rw [hparse]
    intro heq
    have hbyte := congrFun (Option.some.inj heq) 14
    exact absurd hbyte (by decide)

end Lestra
