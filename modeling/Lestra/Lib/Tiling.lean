import Mathlib.Data.Finset.Insert
import Mathlib.Tactic.Common

/-!
# Tiling an address interval

`Tiles size B s e` says that the blocks starting at the addresses in `B`, each
`size b` bytes long, cover `[s, e)` exactly: every block is non-empty and lies
inside, every address is in some block, and two blocks never overlap. A tiling
is changed in three ways: a block is appended at the end, a block is cut in
two, or the sizes are rewritten at addresses that are not blocks.
-/

namespace Tiling

structure Tiles (size : Nat → Nat) (B : Finset Nat) (s e : Nat) : Prop where
  le : s ≤ e
  pos : ∀ b ∈ B, 0 < size b
  inside : ∀ b ∈ B, s ≤ b ∧ b + size b ≤ e
  cover : ∀ x, s ≤ x → x < e → ∃ b ∈ B, b ≤ x ∧ x < b + size b
  apart : ∀ b ∈ B, ∀ c ∈ B, b ≠ c → b + size b ≤ c ∨ c + size c ≤ b

variable {size size' : Nat → Nat} {B : Finset Nat} {s e b t : Nat}

theorem tiles_empty (size : Nat → Nat) (s : Nat) : Tiles size ∅ s s where
  le := Nat.le_refl s
  pos := by simp
  inside := by simp
  cover := by
    intro x h1 h2
    omega
  apart := by simp

theorem Tiles.congr (h : Tiles size B s e) (hs : ∀ b ∈ B, size' b = size b) :
    Tiles size' B s e where
  le := h.le
  pos := fun b hb => by rw [hs b hb]; exact h.pos b hb
  inside := fun b hb => by rw [hs b hb]; exact h.inside b hb
  cover := by
    intro x h1 h2
    obtain ⟨b, hb, hx⟩ := h.cover x h1 h2
    exact ⟨b, hb, by rw [hs b hb]; exact hx⟩
  apart := by
    intro b hb c hc hbc
    rw [hs b hb, hs c hc]
    exact h.apart b hb c hc hbc

/-- The end of a tiled interval is not the start of a block. -/
theorem Tiles.end_notMem (h : Tiles size B s e) : e ∉ B := by
  intro he
  have := h.inside e he
  have := h.pos e he
  omega

/-- A new block right after the last one. -/
theorem Tiles.append (h : Tiles size B s e) (ht : 0 < t) (he : size' e = t)
    (hs : ∀ b ∈ B, size' b = size b) : Tiles size' (insert e B) s (e + t) where
  le := by
    have := h.le
    omega
  pos := by
    intro b hb
    rcases Finset.mem_insert.mp hb with rfl | hb
    · omega
    · rw [hs b hb]
      exact h.pos b hb
  inside := by
    intro b hb
    rcases Finset.mem_insert.mp hb with rfl | hb
    · exact ⟨h.le, by omega⟩
    · have := h.inside b hb
      rw [hs b hb]
      omega
  cover := by
    intro x h1 h2
    rcases Nat.lt_or_ge x e with hx | hx
    · obtain ⟨b, hb, hin⟩ := h.cover x h1 hx
      exact ⟨b, Finset.mem_insert_of_mem hb, by rw [hs b hb]; exact hin⟩
    · exact ⟨e, Finset.mem_insert_self e B, hx, by omega⟩
  apart := by
    intro b hb c hc hbc
    rcases Finset.mem_insert.mp hb with rfl | hbB <;>
      rcases Finset.mem_insert.mp hc with rfl | hcB
    · exact absurd rfl hbc
    · have := h.inside c hcB
      rw [hs c hcB]
      omega
    · have := h.inside b hbB
      rw [hs b hbB]
      omega
    · rw [hs b hbB, hs c hcB]
      exact h.apart b hbB c hcB hbc

/-- No block starts strictly inside another one. -/
theorem Tiles.notMem_inside (h : Tiles size B s e) (hb : b ∈ B) (h1 : 0 < t) (h2 : t < size b) :
    b + t ∉ B := by
  intro hbt
  have := h.pos _ hbt
  rcases h.apart b hb (b + t) hbt (by omega) with h3 | h3 <;> omega

/-- The block at `b` is cut after `t` bytes. -/
theorem Tiles.split (h : Tiles size B s e) (hb : b ∈ B) (h1 : 0 < t) (h2 : t < size b)
    (hb' : size' b = t) (ht' : size' (b + t) = size b - t)
    (hs : ∀ c ∈ B, c ≠ b → size' c = size c) : Tiles size' (insert (b + t) B) s e where
  le := h.le
  pos := by
    intro c hc
    rcases Finset.mem_insert.mp hc with rfl | hc
    · omega
    · by_cases hcb : c = b
      · subst hcb
        omega
      · rw [hs c hc hcb]
        exact h.pos c hc
  inside := by
    intro c hc
    have hin := h.inside b hb
    rcases Finset.mem_insert.mp hc with rfl | hc
    · omega
    · by_cases hcb : c = b
      · subst hcb
        omega
      · rw [hs c hc hcb]
        exact h.inside c hc
  cover := by
    intro x hx1 hx2
    obtain ⟨c, hc, hin⟩ := h.cover x hx1 hx2
    by_cases hcb : c = b
    · subst hcb
      rcases Nat.lt_or_ge x (c + t) with hx | hx
      · exact ⟨c, Finset.mem_insert_of_mem hc, hin.1, by omega⟩
      · exact ⟨c + t, Finset.mem_insert_self _ B, hx, by omega⟩
    · exact ⟨c, Finset.mem_insert_of_mem hc, by rw [hs c hc hcb]; exact hin⟩
  apart := by
    -- every block other than the one that is cut lies on one side of all of it
    have hside : ∀ c ∈ B, c ≠ b → b + size b ≤ c ∨ c + size' c ≤ b := by
      intro c hc hcb
      rw [hs c hc hcb]
      exact h.apart b hb c hc (Ne.symm hcb)
    intro c hc d hd hcd
    rcases Finset.mem_insert.mp hc with rfl | hcB <;>
      rcases Finset.mem_insert.mp hd with rfl | hdB
    · exact absurd rfl hcd
    · by_cases hdb : d = b
      · subst hdb
        omega
      · have := hside d hdB hdb
        omega
    · by_cases hcb : c = b
      · subst hcb
        omega
      · have := hside c hcB hcb
        omega
    · by_cases hcb : c = b
      · subst hcb
        have := hside d hdB (Ne.symm hcd)
        omega
      · by_cases hdb : d = b
        · subst hdb
          have := hside c hcB hcb
          omega
        · rw [hs c hcB hcb, hs d hdB hdb]
          exact h.apart c hcB d hdB hcd

end Tiling
