import Mathlib.Data.List.Chain
import Mathlib.Tactic.Common

/-!
# Consecutive blocks

A list of blocks that lie one behind the other and cover an address interval, some of them
free. A block is cut in two, two neighbours are merged, and a block is put behind the last.
-/

namespace BlockList

structure Block where
  addr : ℕ
  size : ℕ
  free : Bool
  deriving DecidableEq, Repr

/-- The blocks, of at least `m` bytes each, cover `[s, e)` in this order. -/
def Tiled (m : ℕ) : ℕ → List Block → ℕ → Prop
  | s, [], e => s = e
  | s, b :: L, e => b.addr = s ∧ m ≤ b.size ∧ Tiled m (s + b.size) L e

/-- Two blocks that are not both free. -/
def NotBothFree (b c : Block) : Prop := ¬ (b.free = true ∧ c.free = true)

/-- No two neighbours are both free. -/
def Merged (L : List Block) : Prop := L.IsChain NotBothFree

variable {m s e : ℕ} {L pre post : List Block} {b c : Block}

theorem tiled_append : ∀ {pre : List Block} {s : ℕ},
    Tiled m s (pre ++ post) e ↔ ∃ t, Tiled m s pre t ∧ Tiled m t post e
  | [], s => by simp [Tiled]
  | b :: pre, s => by
    simp only [List.cons_append, Tiled, tiled_append, and_assoc]
    constructor
    · rintro ⟨h1, h2, t, h3, h4⟩
      exact ⟨t, h1, h2, h3, h4⟩
    · rintro ⟨t, h1, h2, h3, h4⟩
      exact ⟨h1, h2, t, h3, h4⟩

theorem Tiled.le (h : Tiled m s L e) : s + L.length * m ≤ e := by
  induction L generalizing s with
  | nil =>
    obtain rfl : s = e := h
    simp
  | cons b L ih =>
    obtain ⟨-, hsize, htail⟩ := h
    have hle := ih htail
    rw [List.length_cons, Nat.add_mul]
    omega

theorem Tiled.inside (h : Tiled m s L e) (hb : b ∈ L) :
    s ≤ b.addr ∧ m ≤ b.size ∧ b.addr + b.size ≤ e := by
  induction L generalizing s with
  | nil => cases hb
  | cons c L ih =>
    obtain ⟨haddr, hsize, htail⟩ := h
    have hle := htail.le
    rcases List.mem_cons.mp hb with rfl | hb
    · omega
    · have hin := ih htail hb
      omega

/-- Each block ends before those behind it start. -/
theorem Tiled.sorted (h : Tiled m s L e) :
    L.Pairwise fun b c => b.addr + b.size ≤ c.addr := by
  induction L generalizing s with
  | nil => exact List.Pairwise.nil
  | cons b L ih =>
    obtain ⟨haddr, -, htail⟩ := h
    refine List.Pairwise.cons (fun c hc => ?_) (ih htail)
    have hin := htail.inside hc
    omega

theorem Tiled.apart (h : Tiled m s L e) (hb : b ∈ L) (hc : c ∈ L) (hbc : b ≠ c) :
    b.addr + b.size ≤ c.addr ∨ c.addr + c.size ≤ b.addr := by
  induction L generalizing s with
  | nil => cases hb
  | cons d L ih =>
    obtain ⟨haddr, -, htail⟩ := h
    rcases List.mem_cons.mp hb with rfl | hbL
    · rcases List.mem_cons.mp hc with rfl | hcL
      · exact absurd rfl hbc
      · have hin := htail.inside hcL
        omega
    · rcases List.mem_cons.mp hc with rfl | hcL
      · have hin := htail.inside hbL
        omega
      · exact ih htail hbL hcL

/-- The blocks around one of them lie before and behind it. -/
theorem Tiled.around (h : Tiled m s (pre ++ b :: post) e) :
    (∀ c ∈ pre, c.addr + c.size ≤ b.addr) ∧ ∀ c ∈ post, b.addr + b.size ≤ c.addr := by
  have hsorted := h.sorted
  rw [List.pairwise_append, List.pairwise_cons] at hsorted
  exact ⟨fun c hc => hsorted.2.2 c hc b (by simp), hsorted.2.1.1⟩

/-- The start of the block is the end of what is before it. -/
theorem Tiled.middle (h : Tiled m s (pre ++ b :: post) e) :
    Tiled m s pre b.addr ∧ m ≤ b.size ∧ Tiled m (b.addr + b.size) post e := by
  obtain ⟨t, hpre, rfl, hsize, hpost⟩ := tiled_append.mp h
  exact ⟨hpre, hsize, hpost⟩

theorem tiled_middle (hpre : Tiled m s pre b.addr) (hsize : m ≤ b.size)
    (hpost : Tiled m (b.addr + b.size) post e) : Tiled m s (pre ++ b :: post) e :=
  tiled_append.mpr ⟨b.addr, hpre, rfl, hsize, hpost⟩

/-- Some blocks in the middle are replaced by others that cover the same addresses. -/
theorem Tiled.edit (old new : List Block) (h : Tiled m s (pre ++ (old ++ post)) e)
    (hedit : ∀ a z, Tiled m a old z → Tiled m a new z) : Tiled m s (pre ++ (new ++ post)) e := by
  obtain ⟨a, hpre, hrest⟩ := tiled_append.mp h
  obtain ⟨z, hold, hpost⟩ := tiled_append.mp hrest
  exact tiled_append.mpr ⟨a, hpre, tiled_append.mpr ⟨z, hedit a z hold, hpost⟩⟩

/-- Every address is in a block. -/
theorem Tiled.cover (h : Tiled m s L e) {x : ℕ} (hs : s ≤ x) (he : x < e) :
    ∃ b ∈ L, b.addr ≤ x ∧ x < b.addr + b.size := by
  induction L generalizing s with
  | nil =>
    obtain rfl : s = e := h
    omega
  | cons b L ih =>
    obtain ⟨rfl, -, htail⟩ := h
    by_cases hx : x < b.addr + b.size
    · exact ⟨b, by simp, hs, hx⟩
    · obtain ⟨c, hc, hin⟩ := ih htail (by omega)
      exact ⟨c, by simp [hc], hin⟩

-- ---------------------------------------------------------------------------
-- Free neighbours
-- ---------------------------------------------------------------------------

theorem merged_middle {p : List Block} : Merged (p ++ b :: post) ↔
    Merged p ∧ (∀ c ∈ p.getLast?, NotBothFree c b) ∧
      (∀ c ∈ post.head?, NotBothFree b c) ∧ Merged post := by
  simp only [Merged, List.isChain_append, List.isChain_cons, List.head?_cons, Option.mem_some_iff,
    forall_eq']
  tauto

end BlockList
