import Lestra.Lib.BlockList
import Lestra.Libc.Stdlib

/-!
# The C library's block list

What the stores of the allocator do to a list of consecutive blocks in memory: a block is
handed out, cut in two, merged with the block behind it, marked free, or put at the end.
Each is stated with the bytes that it leaves alone.
-/

namespace Lestra

open Word64 ByteMem BlockList

-- ---------------------------------------------------------------------------
-- Headers
-- ---------------------------------------------------------------------------

/-- The header of the block is in memory, with the link `next`. -/
structure Holds (m : Mem) (b : Block) (next : ℕ) : Prop where
  size : getSize m b.addr = b.size
  free : getFree m b.addr ≠ 0 ↔ b.free = true
  next : getNext m b.addr = next

/-- From `h` the links lead through the blocks to `t`. -/
def Linked (m : Mem) : ℕ → List Block → ℕ → Prop
  | h, [], t => h = t
  | h, b :: L, t => h = b.addr ∧ ∃ n, Holds m b n ∧ Linked m n L t

/-- The two memories agree outside `[lo, hi)`. -/
def SameOutside (m m' : Mem) (lo hi : ℕ) : Prop := ∀ x, x < lo ∨ hi ≤ x → m' x = m x

section Stores

variable {m m' m'' : Mem} {b : Block} {n v lo hi a : ℕ}

theorem SameOutside.refl (m : Mem) (lo hi : ℕ) : SameOutside m m lo hi := fun _ _ => rfl

theorem SameOutside.trans (h : SameOutside m m' lo hi) (h' : SameOutside m' m'' lo hi) :
    SameOutside m m'' lo hi := fun x hx => (h' x hx).trans (h x hx)

theorem sameOutside_setSize (m : Mem) (v : ℕ) (hlo : lo ≤ a) (hhi : a + 24 ≤ hi) :
    SameOutside m (setSize m a v) lo hi := fun _ _ => putLE_out (by omega)

theorem sameOutside_setFree (m : Mem) (v : ℕ) (hlo : lo ≤ a) (hhi : a + 24 ≤ hi) :
    SameOutside m (setFree m a v) lo hi := fun _ _ => putLE_out (by omega)

theorem sameOutside_setNext (m : Mem) (v : ℕ) (hlo : lo ≤ a) (hhi : a + 24 ≤ hi) :
    SameOutside m (setNext m a v) lo hi := fun _ _ => putLE_out (by omega)

theorem getSize_setSize (m : Mem) (a : ℕ) (hv : v < 2 ^ 64) : getSize (setSize m a v) a = v :=
  getLE_putLE hv

theorem getSize_setFree (m : Mem) (a v : ℕ) : getSize (setFree m a v) a = getSize m a :=
  getLE_putLE_of_apart (by omega)

theorem getSize_setNext (m : Mem) (a v : ℕ) : getSize (setNext m a v) a = getSize m a :=
  getLE_putLE_of_apart (by omega)

theorem getFree_setSize (m : Mem) (a v : ℕ) : getFree (setSize m a v) a = getFree m a :=
  getLE_putLE_of_apart (by omega)

theorem getFree_setFree (m : Mem) (a : ℕ) (f : Bool) :
    getFree (setFree m a f.toNat) a = f.toNat :=
  getLE_putLE (lt_of_le_of_lt (Bool.toNat_le f) (by decide))

theorem getFree_setNext (m : Mem) (a v : ℕ) : getFree (setNext m a v) a = getFree m a :=
  getLE_putLE_of_apart (by omega)

theorem getNext_setSize (m : Mem) (a v : ℕ) : getNext (setSize m a v) a = getNext m a :=
  getLE_putLE_of_apart (by omega)

theorem getNext_setFree (m : Mem) (a v : ℕ) : getNext (setFree m a v) a = getNext m a :=
  getLE_putLE_of_apart (by omega)

theorem getNext_setNext (m : Mem) (a : ℕ) (hv : v < 2 ^ 64) : getNext (setNext m a v) a = v :=
  getLE_putLE hv

/-- A header is read from its 24 bytes. -/
theorem Holds.congr (h : Holds m b n) (hm : SameOutside m m' lo hi)
    (hb : b.addr + 24 ≤ lo ∨ hi ≤ b.addr) : Holds m' b n where
  size := by
    rw [← h.size]
    exact getLE_congr fun x h₁ h₂ => hm x (by omega)
  free := by
    rw [← h.free, getFree, getFree, getLE_congr fun x h₁ h₂ => hm x (by omega)]
  next := by
    rw [← h.next]
    exact getLE_congr fun x h₁ h₂ => hm x (by omega)

theorem Holds.setSize (h : Holds m b n) (hv : v < 2 ^ 64) :
    Holds (setSize m b.addr v) { b with size := v } n where
  size := getSize_setSize m b.addr hv
  free := by rw [getFree_setSize, h.free]
  next := by rw [getNext_setSize, h.next]

theorem Holds.setFree (h : Holds m b n) (f : Bool) :
    Holds (setFree m b.addr f.toNat) { b with free := f } n where
  size := by rw [getSize_setFree, h.size]
  free := by
    rw [getFree_setFree]
    cases f <;> simp
  next := by rw [getNext_setFree, h.next]

theorem Holds.setNext (h : Holds m b n) (hv : v < 2 ^ 64) : Holds (setNext m b.addr v) b v where
  size := by rw [getSize_setNext, h.size]
  free := by rw [getFree_setNext, h.free]
  next := getNext_setNext m b.addr hv

/-- The three stores that make a header. -/
theorem holds_new (m : Mem) (a : ℕ) (f : Bool) {size next : ℕ} (hsize : size < 2 ^ 64)
    (hnext : next < 2 ^ 64) :
    Holds (setNext (setFree (setSize m a size) a f.toNat) a next) ⟨a, size, f⟩ next where
  size := by rw [getSize_setNext, getSize_setFree, getSize_setSize m a hsize]
  free := by
    rw [getFree_setNext, getFree_setFree]
    cases f <;> simp
  next := getNext_setNext _ a hnext

end Stores

-- ---------------------------------------------------------------------------
-- Lists
-- ---------------------------------------------------------------------------

section Lists

variable {m m' : Mem} {h t n : ℕ} {b c : Block} {pre post : List Block}

theorem linked_append : ∀ {pre : List Block} {h : ℕ},
    Linked m h (pre ++ post) t ↔ ∃ k, Linked m h pre k ∧ Linked m k post t
  | [], h => by simp [Linked]
  | b :: pre, h => by
    simp only [List.cons_append, Linked, linked_append]
    constructor
    · rintro ⟨h1, n, h2, k, h3, h4⟩
      exact ⟨k, ⟨h1, n, h2, h3⟩, h4⟩
    · rintro ⟨k, ⟨h1, n, h2, h3⟩, h4⟩
      exact ⟨h1, n, h2, k, h3, h4⟩

theorem Linked.congr {lo hi : ℕ} (hm : SameOutside m m' lo hi) : ∀ {L : List Block} {h : ℕ},
    Linked m h L t → (∀ b ∈ L, b.addr + 24 ≤ lo ∨ hi ≤ b.addr) → Linked m' h L t
  | [], _, hL, _ => hL
  | b :: L, _, ⟨h1, n, h2, h3⟩, hout =>
    ⟨h1, n, h2.congr hm (hout b (by simp)), h3.congr hm fun c hc => hout c (by simp [hc])⟩

/-- An edit of some blocks in the middle that leaves the bytes before and behind alone. -/
theorem Linked.edit (old new : List Block) {lo hi : ℕ} (hL : Linked m h (pre ++ (old ++ post)) t)
    (hm : SameOutside m m' lo hi) (hpre : ∀ c ∈ pre, c.addr + 24 ≤ lo)
    (hpost : ∀ c ∈ post, hi ≤ c.addr)
    (hedit : ∀ a n, Linked m a old n → Linked m' a new n) :
    Linked m' h (pre ++ (new ++ post)) t := by
  obtain ⟨a, h1, h2⟩ := linked_append.mp hL
  obtain ⟨n, h3, h4⟩ := linked_append.mp h2
  refine linked_append.mpr ⟨a, h1.congr hm fun c hc => Or.inl (hpre c hc), ?_⟩
  exact linked_append.mpr ⟨n, hedit a n h3, h4.congr hm fun c hc => Or.inr (hpost c hc)⟩

theorem linked_middle : Linked m h (pre ++ b :: post) t ↔
    Linked m h pre b.addr ∧ ∃ n, Holds m b n ∧ Linked m n post t := by
  rw [linked_append]
  constructor
  · rintro ⟨k, h1, rfl, h2⟩
    exact ⟨h1, h2⟩
  · rintro ⟨h1, h2⟩
    exact ⟨b.addr, h1, rfl, h2⟩

theorem linked_one : Linked m h [b] t ↔ h = b.addr ∧ Holds m b t := by
  simp only [Linked]
  constructor
  · rintro ⟨h1, n, h2, rfl⟩
    exact ⟨h1, h2⟩
  · rintro ⟨h1, h2⟩
    exact ⟨h1, t, h2, rfl⟩

theorem linked_two : Linked m h [b, c] t ↔ h = b.addr ∧ Holds m b c.addr ∧ Holds m c t := by
  simp only [Linked]
  constructor
  · rintro ⟨h1, _, h2, rfl, n, h3, rfl⟩
    exact ⟨h1, h2, h3⟩
  · rintro ⟨h1, h2, h3⟩
    exact ⟨h1, _, h2, rfl, _, h3, rfl⟩

end Lists

-- ---------------------------------------------------------------------------
-- Edits
-- ---------------------------------------------------------------------------

/-- What a free block becomes when `total` bytes of it are handed out. -/
def taken (b : Block) (total : ℕ) : List Block :=
  if total + 40 ≤ b.size then
    [⟨b.addr, total, false⟩, ⟨b.addr + total, b.size - total, true⟩]
  else [{ b with free := false }]

/-- A block that has absorbed the one behind it. -/
def merge (b c : Block) : Block := { b with size := b.size + c.size }

section Edits

variable {m : Mem} {b c : Block} {a n total : ℕ}

theorem cutBlock_linked (hb : Holds m b n) (hmin : 24 ≤ total) (hfit : total + 24 ≤ b.size)
    (hend : b.addr + b.size < 2 ^ 63) :
    Linked (cutBlock m b.addr total) b.addr
      [{ b with size := total }, ⟨b.addr + total, b.size - total, true⟩] n := by
  have hn : n < 2 ^ 64 := hb.next ▸ getLE_lt m _ 8
  rw [cutBlock, hb.size, sub_of_le (by omega) (by omega)]
  -- the header of the rest lies behind the old one
  have hfree : SameOutside m (setFree (setSize m (b.addr + total) (b.size - total))
      (b.addr + total) 1) (b.addr + total) (b.addr + b.size) :=
    (sameOutside_setSize _ _ le_rfl (by omega)).trans (sameOutside_setFree _ _ le_rfl (by omega))
  have hnext := hfree.trans (sameOutside_setNext _ n le_rfl (by omega))
  rw [(hb.congr hfree (by omega)).next]
  have hrest := holds_new m (b.addr + total) true (show b.size - total < 2 ^ 64 by omega) hn
  have hback : SameOutside _ (setNext (setSize (setNext (setFree (setSize m (b.addr + total)
      (b.size - total)) (b.addr + total) 1) (b.addr + total) n) b.addr total) b.addr
      (b.addr + total)) b.addr (b.addr + 24) :=
    (sameOutside_setSize _ _ le_rfl le_rfl).trans (sameOutside_setNext _ _ le_rfl le_rfl)
  refine linked_two.mpr ⟨rfl, ?_, hrest.congr hback (by right; dsimp only; omega)⟩
  exact ((hb.congr hnext (by omega)).setSize (v := total) (by omega)).setNext (by omega)

/-- Room for another header and 16 bytes. -/
theorem cut_room (hfit : total ≤ b.size) (hend : b.size < 2 ^ 63) :
    add (add total blockHeader) 16 = total + 40 := by
  rw [blockHeader_eq, add_of_lt (b := 24) (by omega), add_of_lt (by omega)]

theorem takeBlock_linked (h : Linked m a [b] n) (hmin : 24 ≤ total) (hfit : total ≤ b.size)
    (hend : b.addr + b.size < 2 ^ 63) : Linked (takeBlock m b.addr total) a (taken b total) n := by
  obtain ⟨rfl, hb⟩ := linked_one.mp h
  rw [takeBlock, taken, cut_room hfit (by omega), hb.size]
  by_cases hsplit : total + 40 ≤ b.size
  · rw [if_pos hsplit, if_pos hsplit]
    obtain ⟨-, hold, hrest⟩ := linked_two.mp (cutBlock_linked hb hmin (by omega) hend)
    have hfar : SameOutside _ (setFree (cutBlock m b.addr total) b.addr 0) b.addr (b.addr + 24) :=
      sameOutside_setFree _ _ le_rfl le_rfl
    exact linked_two.mpr ⟨rfl, hold.setFree false, hrest.congr hfar (by right; dsimp only; omega)⟩
  · rw [if_neg hsplit, if_neg hsplit]
    exact linked_one.mpr ⟨rfl, hb.setFree false⟩

theorem sameOutside_takeBlock (hb : getSize m a = b.size) (hmin : 24 ≤ b.size)
    (hfit : total ≤ b.size) (hend : b.size < 2 ^ 63) :
    SameOutside m (takeBlock m a total) a (a + b.size) := by
  rw [takeBlock, cut_room hfit hend, hb]
  by_cases hsplit : total + 40 ≤ b.size
  · rw [if_pos hsplit, cutBlock]
    exact (((((sameOutside_setSize _ _ (by omega) (by omega)).trans
      (sameOutside_setFree _ _ (by omega) (by omega))).trans
      (sameOutside_setNext _ _ (by omega) (by omega))).trans
      (sameOutside_setSize _ _ le_rfl (by omega))).trans
      (sameOutside_setNext _ _ le_rfl (by omega))).trans
      (sameOutside_setFree _ _ le_rfl (by omega))
  · rw [if_neg hsplit]
    exact sameOutside_setFree _ _ le_rfl (by omega)

theorem absorb_linked (h : Linked m a [b, c] n) (hapart : b.addr + 24 ≤ c.addr)
    (hsize : b.size + c.size < 2 ^ 64) :
    Linked (absorb m b.addr c.addr) a [merge b c] n := by
  obtain ⟨rfl, hb, hc⟩ := linked_two.mp h
  have hn : n < 2 ^ 64 := hc.next ▸ getLE_lt m _ 8
  have hgrown : SameOutside m (setSize m b.addr (b.size + c.size)) b.addr (b.addr + 24) :=
    sameOutside_setSize _ _ le_rfl le_rfl
  rw [absorb, hb.size, hc.size, add_of_lt hsize]
  rw [(hc.congr hgrown (Or.inr hapart)).next]
  exact linked_one.mpr ⟨rfl, (hb.setSize hsize).setNext hn⟩

theorem sameOutside_absorb (m : Mem) (a c : ℕ) : SameOutside m (absorb m a c) a (a + 24) :=
  (sameOutside_setSize _ _ le_rfl le_rfl).trans (sameOutside_setNext _ _ le_rfl le_rfl)

end Edits

-- ---------------------------------------------------------------------------
-- Walks
-- ---------------------------------------------------------------------------

/-- The address of the last block, or `prev` if there is none. -/
def lastAddr (prev : ℕ) : List Block → ℕ
  | [] => prev
  | b :: L => lastAddr b.addr L

section Walks

variable {m : Mem} {b : Block} {L pre post : List Block} {h prev fuel total : ℕ}

/-- No free block holds `total` bytes. -/
def NoFit (L : List Block) (total : ℕ) : Prop := ∀ b ∈ L, b.free = true → b.size < total

/-- The search ends at the first fit, or at the end of the list. -/
theorem findFit_spec (hL : Linked m h L 0) (hpos : ∀ b ∈ L, b.addr ≠ 0)
    (hfuel : L.length < fuel) :
    (∃ pre b post, L = pre ++ b :: post ∧ b.free = true ∧ total ≤ b.size ∧
        findFit m total fuel prev h = some (lastAddr prev pre, b.addr)) ∨
      NoFit L total ∧ findFit m total fuel prev h = some (lastAddr prev L, 0) := by
  induction L generalizing h prev fuel with
  | nil =>
    obtain rfl : h = 0 := hL
    obtain ⟨fuel, rfl⟩ : ∃ k, fuel = k + 1 := ⟨fuel - 1, by simp at hfuel; omega⟩
    exact Or.inr ⟨fun b hb => (List.not_mem_nil hb).elim, rfl⟩
  | cons c L ih =>
    obtain ⟨rfl, n, hc, htail⟩ := hL
    obtain ⟨fuel, rfl⟩ : ∃ k, fuel = k + 1 := ⟨fuel - 1, by simp at hfuel; omega⟩
    have hc0 : c.addr ≠ 0 := hpos c (by simp)
    rw [findFit, if_neg hc0, hc.size]
    by_cases hfit : getFree m c.addr ≠ 0 ∧ total ≤ c.size
    · rw [if_pos hfit]
      exact Or.inl ⟨[], c, L, rfl, hc.free.mp hfit.1, hfit.2, rfl⟩
    · rw [if_neg hfit, hc.next]
      rcases @ih n c.addr fuel htail (fun b hb => hpos b (by simp [hb]))
        (by simp at hfuel; omega) with ⟨pre, b, post, rfl, hfree, hsize, hfind⟩ | ⟨hno, hfind⟩
      · exact Or.inl ⟨c :: pre, b, post, rfl, hfree, hsize, hfind⟩
      · refine Or.inr ⟨fun b hb hfree => ?_, hfind⟩
        rcases List.mem_cons.mp hb with rfl | hb
        · by_contra hge
          exact hfit ⟨hc.free.mpr hfree, by omega⟩
        · exact hno b hb hfree

/-- The walk for the predecessor ends at the block. -/
theorem findPred_spec (hL : Linked m h (pre ++ b :: post) 0)
    (hpos : ∀ c ∈ pre, c.addr ≠ 0 ∧ c.addr ≠ b.addr) (hfuel : pre.length < fuel) :
    findPred m b.addr fuel prev h = some (lastAddr prev pre) := by
  induction pre generalizing h prev fuel with
  | nil =>
    obtain ⟨rfl, -⟩ := hL
    obtain ⟨fuel, rfl⟩ : ∃ k, fuel = k + 1 := ⟨fuel - 1, by simp at hfuel; omega⟩
    rw [findPred, if_neg (by simp)]
    rfl
  | cons c pre ih =>
    obtain ⟨rfl, n, hc, htail⟩ := hL
    obtain ⟨fuel, rfl⟩ : ∃ k, fuel = k + 1 := ⟨fuel - 1, by simp at hfuel; omega⟩
    rw [findPred, if_pos (hpos c (by simp)), hc.next]
    exact ih htail (fun d hd => hpos d (by simp [hd])) (by simp at hfuel; omega)

theorem lastAddr_append (prev : ℕ) (L : List Block) (b : Block) :
    lastAddr prev (L ++ [b]) = b.addr := by
  induction L generalizing prev with
  | nil => rfl
  | cons c L ih => exact ih c.addr

end Walks

end Lestra
