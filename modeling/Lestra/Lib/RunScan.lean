import Mathlib.Tactic.Common

/-!
# First-fit search for a run of consecutive slots

A linear scan that counts how many consecutive slots satisfying `P` end at the
current position finds the first run of `n` of them, or shows that there is
none. `Scanned` is the loop invariant; the three `Scanned` lemmas are the
loop's branches (slot rejected, run still short, run complete) and
`Scanned.no_run` is what holds when the scan reaches the end.
-/

namespace RunScan

variable {P : Nat → Prop} {n lo pos found : Nat}

/-- The `n` slots from `s` on all satisfy `P`. -/
def RunAt (P : Nat → Prop) (s n : Nat) : Prop := ∀ i < n, P (s + i)

/-- The scan started at `lo`, stands at `pos`, and the last `found` slots
before `pos` are the maximal run of accepted slots ending there. -/
structure Scanned (P : Nat → Prop) (n lo pos found : Nat) : Prop where
  fits : lo + found ≤ pos
  short : found < n
  tail : ∀ g, pos - found ≤ g → g < pos → P g
  edge : lo + found < pos → ¬ P (pos - found - 1)
  none : ∀ s, lo ≤ s → s + n ≤ pos → ¬ RunAt P s n

theorem Scanned.start (hn : 0 < n) : Scanned P n lo lo 0 where
  fits := by omega
  short := hn
  tail := by omega
  edge := by omega
  none := by omega

theorem Scanned.reject (h : Scanned P n lo pos found) (hP : ¬ P pos) :
    Scanned P n lo (pos + 1) 0 where
  fits := by have := h.fits; omega
  short := by have := h.short; omega
  tail := by omega
  edge := fun _ => hP
  none := by
    intro s hs hle hRun
    have hshort := h.short
    rcases Nat.lt_or_ge pos (s + n) with hlt | hge
    · -- the run would contain the rejected slot
      have := hRun (pos - s) (by omega)
      rw [show s + (pos - s) = pos by omega] at this
      exact hP this
    · exact h.none s hs hge hRun

theorem Scanned.accept (h : Scanned P n lo pos found) (hP : P pos)
    (hShort : found + 1 < n) : Scanned P n lo (pos + 1) (found + 1) where
  fits := by have := h.fits; omega
  short := hShort
  tail := by
    intro g hlo hhi
    rcases Nat.lt_or_ge g pos with hlt | hge
    · exact h.tail g (by omega) hlt
    · rw [show g = pos by omega]
      exact hP
  edge := by
    intro hlt
    rw [show pos + 1 - (found + 1) - 1 = pos - found - 1 by omega]
    exact h.edge (by omega)
  none := by
    intro s hs hle hRun
    rcases Nat.lt_or_ge pos (s + n) with hlt | hge
    · -- a run ending at `pos` would cover the slot just before the counted tail
      have hfits := h.fits
      have := hRun (pos - found - 1 - s) (by omega)
      rw [show s + (pos - found - 1 - s) = pos - found - 1 by omega] at this
      exact h.edge (by omega) this
    · exact h.none s hs hge hRun

/-- The counted tail together with an accepted slot that completes it is a run,
and no run starts before it. -/
theorem Scanned.complete (h : Scanned P n lo pos found) (hP : P pos)
    (hFull : n ≤ found + 1) :
    lo ≤ pos - found ∧ RunAt P (pos - found) n ∧
      ∀ s, lo ≤ s → s < pos - found → ¬ RunAt P s n := by
  have hfits := h.fits
  have hshort := h.short
  refine ⟨by omega, ?_, ?_⟩
  · intro i hi
    rcases Nat.lt_or_ge i found with hlt | hge
    · exact h.tail _ (by omega) (by omega)
    · rw [show pos - found + i = pos by omega]
      exact hP
  · intro s hs hlt hRun
    rcases Nat.lt_or_ge pos (s + n) with hlong | hge
    · have := hRun (pos - found - 1 - s) (by omega)
      rw [show s + (pos - found - 1 - s) = pos - found - 1 by omega] at this
      exact h.edge (by omega) this
    · exact h.none s hs hge hRun

/-- At the end of the scan there is no run at all, if no slot from `pos` on is
acceptable. -/
theorem Scanned.no_run (h : Scanned P n lo pos found) (hEnd : ∀ g, pos ≤ g → ¬ P g) :
    ∀ s, lo ≤ s → ¬ RunAt P s n := by
  intro s hs hRun
  have hshort := h.short
  rcases Nat.lt_or_ge pos (s + n) with hlt | hge
  · exact hEnd (s + (n - 1)) (by omega) (hRun (n - 1) (by omega))
  · exact h.none s hs hge hRun

end RunScan
