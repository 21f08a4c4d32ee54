import Lestra.Mm.VmmTranslate

/-!
# Address spaces — the tree of tables and pages

For the question which frames an address space owns, the 4 KB pages are the
fifth level of its tree: an entry of a leaf table points to the page it maps.
`Space m r base hand` is the state of a private address space under
construction: the frames that were available before (`base`) are now available,
tables or pages of the space, or in the hand of the code that is about to map
them, and no frame is two of these.
-/

namespace Lestra

open Word64 Radix

/-- The table or page an entry points to, `n` levels above the pages. -/
def pageChild : Nat → BitVec 64 → Option Nat
  | 0, _ => none
  | 1, e => if isPresent e then some (frameOf e) else none
  | n + 2, e => tableChild (n + 1) e

/-- The two views of an address space agree on its tables. -/
theorem tableAt_pageChild (mem : Nat → Fin 512 → BitVec 64) : ∀ {n t : Nat} {p : List (Fin 512)},
    p.length ≤ n → tableAt pageChild mem (n + 1) t p = tableAt tableChild mem n t p
  | n, t, [], _ => by rw [tableAt_nil, tableAt_nil]
  | 0, t, _ :: _, h => by simp at h
  | n + 1, t, i :: p, h => by
    rw [List.length_cons] at h
    rw [tableAt_cons, tableAt_cons]
    show (tableChild (n + 1) (mem t i)).bind _ = _
    cases tableChild (n + 1) (mem t i) with
    | none => rfl
    | some u => exact tableAt_pageChild mem (by omega)

theorem tableAt_page_of_table {mem : Nat → Fin 512 → BitVec 64} {r t : Nat} {p : List (Fin 512)}
    (h : tableAt tableChild mem 3 r p = some t) : tableAt pageChild mem 4 r p = some t := by
  rw [tableAt_pageChild mem (length_le_of_tableAt h), h]

theorem distinct_tables {mem : Nat → Fin 512 → BitVec 64} {r : Nat}
    (h : Distinct pageChild mem 4 r) : Distinct tableChild mem 3 r :=
  fun p q u hp hq => h p q u (tableAt_page_of_table hp) (tableAt_page_of_table hq)

theorem pageChild_markUser {n : Nat} (hn : 2 ≤ n) (user : Bool) (e : BitVec 64) :
    pageChild n (markUser user e) = pageChild n e := by
  match n, hn with
  | n + 2, _ => exact tableChild_markUser (n + 1) user e

theorem pageChild_absent {n : Nat} {e : BitVec 64} (h : isPresent e = false) :
    pageChild n e = none := by
  match n with
  | 0 => rfl
  | 1 => simp [pageChild, h]
  | n + 2 => exact tableChild_absent h

theorem physOf_eq (e : BitVec 64) : physOf e = frameOf e * 4096 := by
  have hlow : physOf e % 4096 = 0 := by
    rw [show 4096 = 2 ^ 12 from rfl]
    apply Nat.eq_of_testBit_eq
    intro b
    rw [Nat.testBit_mod_two_pow, Nat.zero_testBit, physOf, BitVec.testBit_toNat, BitVec.getLsbD_and,
      getLsbD_ptePhysMask]
    rcases Nat.lt_or_ge b 12 with h | h
    · simp [show ¬ 12 ≤ b by omega]
    · simp [show ¬ b < 12 by omega]
  rw [frameOf, pageSize_eq]
  omega

-- ---------------------------------------------------------------------------
-- Releasing frames
-- ---------------------------------------------------------------------------

/-- `pmm_free_page` on the address of a frame. -/
def freeFrame (p : Pmm) (f : Nat) : Pmm := pmmFreePage p (f * 4096)

/-- A frame the PMM has handed out, with at most one reference. -/
structure HeldFrame (p : Pmm) (f : Nat) : Prop where
  pos : f ≠ 0
  lt : f < p.geo.highestPfn
  set : bitmapTest p f = true
  single : p.physRefcount f ≤ 1

theorem freeFrame_spec (p : Pmm) {f : Nat} (hf : f ≠ 0) :
    Releases (fun g => g = f) p (freeFrame p f) := by
  have h := pmmFreePage_spec p (f * 4096)
  have heq : (fun g => g = f * 4096 / 4096 ∧ f * 4096 ≠ 0) = fun g => g = f := by
    funext g
    rw [eq_iff_iff]
    omega
  rwa [heq] at h

/-- Dropping the last reference to a page frees it. -/
theorem dropReference_eq {p : Pmm} {f : Nat} (h : HeldFrame p f) :
    dropReference p (f * 4096) = freeFrame p f := by
  have hpfn : addrToPfn (f * 4096) = f := by
    rw [addrToPfn, pageSize_eq]
    omega
  have h0 : f * 4096 ≠ 0 := by
    have := h.pos
    omega
  by_cases hz : p.physRefcount f = 0
  · have hdec : pmmRefcountDec p (f * 4096) = (p, 0) := by
      simp only [pmmRefcountDec, hpfn]
      exact if_neg fun hc => by omega
    simp only [dropReference, hdec, if_true, freeFrame]
  · have h1 : p.physRefcount f = 1 := by
      have := h.single
      omega
    have hdec : pmmRefcountDec p (f * 4096) = (setRefcount p f 0, 0) := by
      simp only [pmmRefcountDec, hpfn, h1, Nat.sub_self]
      exact if_pos ⟨h0, h.lt, Nat.one_pos⟩
    have hset : bitmapTest (setRefcount p f 0) f = true := by
      rw [bitmapTest_setRefcount]
      exact h.set
    have hlt : f < (setRefcount p f 0).geo.highestPfn := h.lt
    simp only [dropReference, hdec, if_true, freeFrame, pmmFreePage, hpfn, h0, if_false]
    rw [if_pos ⟨hlt, hset⟩, if_pos ⟨h.lt, h.set⟩]
    simp [setRefcount, bitmapClear, Nat.not_le.mpr h.lt]

theorem HeldFrame.freeFrame {p : Pmm} {f g : Nat} (h : HeldFrame p g) (hf : f ≠ 0) (hgf : g ≠ f) :
    HeldFrame (freeFrame p f) g := by
  have hR := freeFrame_spec p hf
  refine ⟨h.pos, ?_, ?_, ?_⟩
  · rw [hR.geo]
    exact h.lt
  · exact (hR.bits g).mpr ⟨h.set, fun hs => hgf hs.1⟩
  · rw [hR.refcount g hgf]
    exact h.single

/-- A list of different frames that are all held. -/
def HeldList (p : Pmm) (fs : List Nat) : Prop := fs.Nodup ∧ ∀ f ∈ fs, HeldFrame p f

theorem HeldList.append {p : Pmm} : ∀ {fs gs : List Nat}, HeldList p (fs ++ gs) →
    HeldList (fs.foldl Lestra.freeFrame p) gs
  | [], gs, h => h
  | f :: fs, gs, ⟨hnd, hh⟩ => by
    rw [List.foldl_cons]
    have hf := hh f (by simp)
    rw [List.cons_append, List.nodup_cons] at hnd
    refine HeldList.append ⟨hnd.2, fun g hg => ?_⟩
    refine (hh g (by simp only [List.cons_append, List.mem_cons]; exact Or.inr hg)).freeFrame hf.pos ?_
    rintro rfl
    exact hnd.1 hg

theorem HeldList.left {p : Pmm} {fs gs : List Nat} (h : HeldList p (fs ++ gs)) : HeldList p fs :=
  ⟨(List.nodup_append.mp h.1).1, fun f hf => h.2 f (List.mem_append_left _ hf)⟩

/-- A loop whose rounds free the frames `g i` frees all of them, in order. -/
theorem foldl_free {ι : Type} {visit : Pmm → ι → Pmm} {g : ι → List Nat} : ∀ {l : List ι} {p : Pmm},
    (∀ i ∈ l, ∀ p, HeldList p (g i) → visit p i = (g i).foldl freeFrame p) →
    HeldList p (l.flatMap g) → l.foldl visit p = (l.flatMap g).foldl freeFrame p
  | [], _, _, _ => rfl
  | i :: l, p, hv, hh => by
    rw [List.flatMap_cons] at hh ⊢
    rw [List.foldl_cons, List.foldl_append, hv i (by simp) p hh.left]
    exact foldl_free (fun j hj => hv j (List.mem_cons_of_mem i hj)) hh.append

/-- Freeing held frames makes exactly these available again, metadata apart. -/
theorem avail_foldl_freeFrame : ∀ {fs : List Nat} {p : Pmm}, HeldList p fs →
    (∀ f ∈ fs, pmmIsProtected p.geo (mul f pageSize) = false) →
    ∀ g, Avail (fs.foldl freeFrame p) g ↔ Avail p g ∨ g ∈ fs
  | [], _, _, _, g => by simp
  | f :: fs, p, hh, hprot, g => by
    have hf := hh.2 f (by simp)
    have hR := freeFrame_spec p hf.pos
    have htail : HeldList (freeFrame p f) fs := HeldList.append (show HeldList p ([f] ++ fs) from hh)
    rw [List.foldl_cons, avail_foldl_freeFrame htail (fun x hx => by
      rw [hR.geo]; exact hprot x (List.mem_cons_of_mem f hx)) g, List.mem_cons]
    have hone : Avail (freeFrame p f) g ↔ Avail p g ∨ g = f := by
      unfold Avail
      rw [hR.geo]
      have hb : bitmapTest (freeFrame p f) g = false ↔ bitmapTest p g = false ∨ g = f := by
        have hlt := hf.lt
        rw [← Bool.not_eq_true, ← Bool.not_eq_true, hR.bits g]
        by_cases hg : g = f
        · subst hg
          simp [hlt]
        · simp [hg]
      rw [hb]
      constructor
      · rintro ⟨h1 | h1, h2⟩
        · exact Or.inl ⟨h1, h2⟩
        · exact Or.inr h1
      · rintro (⟨h1, h2⟩ | rfl)
        · exact ⟨Or.inl h1, h2⟩
        · exact ⟨Or.inr rfl, hprot g (by simp)⟩
    rw [hone]
    tauto

end Lestra
