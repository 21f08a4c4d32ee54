import Lestra.Lib.Count
import Lestra.Lib.RunScan
import Lestra.Mm.Pmm

/-!
# Physical memory manager — one specification per operation

What each function of the allocator does to the set of frames it can still
hand out, to the reference counts and to the balance between `used_pages` and
the bitmap. Later modules use these lemmas and never unfold the loops.

* `Avail p f` — frame `f` is clear in the bitmap and not protected: the frames
  the two searches may return. This is the abstract state of the allocator.
* `drift p` — how far `used_pages` is behind the number of set bits, modulo
  2^64. Every operation after `pmm_init` keeps it.
* `Heals p q` — `q` is `p` with some clear but protected frames marked, which
  is what the searches do to metadata frames they come across.
* `pmmAllocPages_spec` — both searches return the first run of available
  frames and take exactly that run, or return 0 when there is none.
-/

namespace Lestra

open Word64 RunScan

-- ---------------------------------------------------------------------------
-- Bits
-- ---------------------------------------------------------------------------

@[simp] theorem bitmapSet_geo (p : Pmm) (f : Nat) : (bitmapSet p f).geo = p.geo := by
  unfold bitmapSet
  split <;> rfl

@[simp] theorem bitmapSet_usedPages (p : Pmm) (f : Nat) :
    (bitmapSet p f).usedPages = p.usedPages := by
  unfold bitmapSet
  split <;> rfl

@[simp] theorem bitmapSet_physRefcount (p : Pmm) (f : Nat) :
    (bitmapSet p f).physRefcount = p.physRefcount := by
  unfold bitmapSet
  split <;> rfl

@[simp] theorem bitmapClear_geo (p : Pmm) (f : Nat) : (bitmapClear p f).geo = p.geo := by
  unfold bitmapClear
  split <;> rfl

@[simp] theorem bitmapClear_physRefcount (p : Pmm) (f : Nat) :
    (bitmapClear p f).physRefcount = p.physRefcount := by
  unfold bitmapClear
  split <;> rfl

@[simp] theorem setRefcount_geo (p : Pmm) (f n : Nat) : (setRefcount p f n).geo = p.geo := rfl

@[simp] theorem setRefcount_usedPages (p : Pmm) (f n : Nat) :
    (setRefcount p f n).usedPages = p.usedPages := rfl

@[simp] theorem setRefcount_physRefcount (p : Pmm) (f n : Nat) :
    (setRefcount p f n).physRefcount = Function.update p.physRefcount f n := rfl

/-- The bitmap test only reads the geometry and the bitmap. -/
theorem bitmapTest_congr {p q : Pmm} (hg : p.geo = q.geo) (hb : p.bitmap = q.bitmap) (f : Nat) :
    bitmapTest p f = bitmapTest q f := by
  unfold bitmapTest
  rw [hg, hb]

@[simp] theorem bitmapTest_setRefcount (p : Pmm) (f n g : Nat) :
    bitmapTest (setRefcount p f n) g = bitmapTest p g := bitmapTest_congr rfl rfl g

@[simp] theorem bitmapTest_withUsed (p : Pmm) (n g : Nat) :
    bitmapTest { p with usedPages := n } g = bitmapTest p g := bitmapTest_congr rfl rfl g

theorem bitmapTest_of_le {p : Pmm} {f : Nat} (h : p.geo.highestPfn ≤ f) :
    bitmapTest p f = true := by
  unfold bitmapTest
  rw [if_pos h]

/-- Shifting a bit down and masking it reads that bit. -/
theorem shift_and_one_ne_zero (w : BitVec 64) (i : Nat) :
    (((w >>> i) &&& 1#64) != 0#64) = w.getLsbD i := by
  rw [BitVec.and_one_eq_setWidth_ofBool_getLsbD, BitVec.getLsbD_ushiftRight, Nat.add_zero]
  cases w.getLsbD i <;> rfl

theorem bitmapTest_of_lt {p : Pmm} {f : Nat} (h : f < p.geo.highestPfn) :
    bitmapTest p f = (p.bitmap (f / 64)).getLsbD (f % 64) := by
  unfold bitmapTest pfnToIdx pfnToBit
  rw [if_neg (by omega), shift_and_one_ne_zero]

theorem lt_of_bitmapTest_eq_false {p : Pmm} {f : Nat} (h : bitmapTest p f = false) :
    f < p.geo.highestPfn := by
  by_contra hle
  rw [bitmapTest_of_le (by omega)] at h
  exact absurd h (by simp)

/-- A word written over the word of frame `f` that differs from it in the bit of `f` only. -/
theorem update_word_bit (bitmap : Nat → BitVec 64) {w : BitVec 64} {f : Nat}
    (hw : ∀ k, k < 64 → k ≠ f % 64 → w.getLsbD k = (bitmap (f / 64)).getLsbD k) (g : Nat) :
    (Function.update bitmap (f / 64) w (g / 64)).getLsbD (g % 64) =
      if g = f then w.getLsbD (f % 64) else (bitmap (g / 64)).getLsbD (g % 64) := by
  by_cases hword : g / 64 = f / 64
  · rw [hword, Function.update_self]
    split
    case isTrue h => rw [h]
    case isFalse h => exact hw _ (Nat.mod_lt _ (by decide)) (by omega)
  · have hne : g ≠ f := fun h => hword (by rw [h])
    rw [Function.update_of_ne hword, if_neg hne]

theorem bitmapTest_bitmapSet (p : Pmm) (f g : Nat) :
    bitmapTest (bitmapSet p f) g = (bitmapTest p g || decide (g = f)) := by
  rcases Nat.lt_or_ge g p.geo.highestPfn with hg | hg
  · rw [bitmapTest_of_lt (by simpa using hg), bitmapTest_of_lt hg]
    rcases Nat.lt_or_ge f p.geo.highestPfn with hf | hf
    · unfold bitmapSet pfnToIdx pfnToBit
      rw [if_neg (by omega)]
      dsimp only
      have hlt : f % 64 < 64 := Nat.mod_lt _ (by decide)
      rw [update_word_bit p.bitmap (fun k hk hne => by
        simp only [BitVec.getLsbD_or, BitVec.getLsbD_shiftLeft, BitVec.getLsbD_one]
        grind) g]
      split
      case isTrue h => simp [h, hlt]
      case isFalse h => simp [h]
    · have hne : g ≠ f := by omega
      unfold bitmapSet
      rw [if_pos hf]
      simp [hne]
  · rw [bitmapTest_of_le (by simpa using hg), bitmapTest_of_le hg, Bool.true_or]

theorem bitmapTest_bitmapClear (p : Pmm) (f g : Nat) :
    bitmapTest (bitmapClear p f) g =
      (bitmapTest p g && !decide (g = f ∧ g < p.geo.highestPfn)) := by
  rcases Nat.lt_or_ge g p.geo.highestPfn with hg | hg
  · rw [bitmapTest_of_lt (by simpa using hg), bitmapTest_of_lt hg]
    rcases Nat.lt_or_ge f p.geo.highestPfn with hf | hf
    · unfold bitmapClear pfnToIdx pfnToBit
      rw [if_neg (by omega)]
      dsimp only
      have hlt : f % 64 < 64 := Nat.mod_lt _ (by decide)
      rw [update_word_bit p.bitmap (fun k hk hne => by
        simp only [BitVec.getLsbD_and, BitVec.getLsbD_not, BitVec.getLsbD_shiftLeft,
          BitVec.getLsbD_one]
        grind) g]
      split
      case isTrue h => simp [h, hlt, hf]
      case isFalse h => simp [h]
    · have hne : g ≠ f := by omega
      unfold bitmapClear
      rw [if_pos hf]
      simp [hne]
  · rw [bitmapTest_of_le (by simpa using hg), bitmapTest_of_le hg]
    have : ¬ g < p.geo.highestPfn := by omega
    simp [this]

-- ---------------------------------------------------------------------------
-- Available frames, and the balance of `used_pages`
-- ---------------------------------------------------------------------------

/-- Frame `f` can be handed out: clear and not metadata. -/
def Avail (p : Pmm) (f : Nat) : Prop :=
  bitmapTest p f = false ∧ pmmIsProtected p.geo (mul f pageSize) = false

instance (p : Pmm) : DecidablePred (Avail p) := fun _ => inferInstanceAs (Decidable (_ ∧ _))

/-- The number of frames below `highest_pfn` whose bit is set. -/
def usedBits (p : Pmm) : Nat := Nat.count (fun f => bitmapTest p f = true) p.geo.highestPfn

/-- How far `used_pages` is behind the bitmap, modulo 2^64. -/
def drift (p : Pmm) : Nat := sub (usedBits p) p.usedPages

/-- The bitmap has a bit for every frame below `highest_pfn`, and frame
addresses fit in 64 bits. -/
structure PmmGeometry.Covers (g : PmmGeometry) : Prop where
  words : g.highestPfn ≤ g.bitmapSize / 8 * 64
  addr : g.highestPfn ≤ 2 ^ 52

theorem Avail.lt {p : Pmm} {f : Nat} (h : Avail p f) : f < p.geo.highestPfn :=
  lt_of_bitmapTest_eq_false h.1

theorem pfn_mul_pageSize {g : PmmGeometry} (hg : g.Covers) {f : Nat} (hf : f < g.highestPfn) :
    mul f pageSize = f * 4096 := by
  have := hg.addr
  exact mul_of_lt (by rw [pageSize_eq]; omega)

theorem usedBits_le (p : Pmm) : usedBits p ≤ p.geo.highestPfn := Nat.count_le _

theorem usedBits_congr {p q : Pmm} (hg : q.geo = p.geo)
    (h : ∀ f, bitmapTest q f = bitmapTest p f) : usedBits q = usedBits p := by
  unfold usedBits
  rw [hg]
  simp only [h]

/-- Setting a clear bit counts one more frame. -/
theorem usedBits_insert {p q : Pmm} {f : Nat} (hg : q.geo = p.geo)
    (hq : ∀ g, bitmapTest q g = (bitmapTest p g || decide (g = f)))
    (hf : bitmapTest p f = false) : usedBits q = usedBits p + 1 := by
  have hlt := lt_of_bitmapTest_eq_false hf
  unfold usedBits
  rw [hg, Count.count_insert (P := fun g => bitmapTest p g = true) (a := f), if_pos hlt]
  · intro g
    rw [hq g, Bool.or_eq_true, decide_eq_true_eq]
  · simp [hf]

theorem usedBits_bitmapClear {p : Pmm} {f : Nat} (hlt : f < p.geo.highestPfn)
    (hf : bitmapTest p f = true) : usedBits (bitmapClear p f) + 1 = usedBits p := by
  refine (usedBits_insert (bitmapClear_geo p f).symm (fun g => ?_) (f := f) ?_).symm
  · rw [bitmapTest_bitmapClear]
    by_cases hgf : g = f
    · subst hgf
      simp [hf]
    · simp [hgf]
  · rw [bitmapTest_bitmapClear]
    simp [hlt]

/-- The step from `p` to `q` keeps the geometry and the balance between
`used_pages` and the bitmap. -/
structure Balanced (p q : Pmm) : Prop where
  geo : q.geo = p.geo
  drift : drift q = drift p
  range : p.usedPages < 2 ^ 64 → q.usedPages < 2 ^ 64

theorem Balanced.refl (p : Pmm) : Balanced p p := ⟨rfl, rfl, id⟩

theorem Balanced.trans {p q r : Pmm} (h : Balanced p q) (h' : Balanced q r) : Balanced p r :=
  ⟨h'.geo.trans h.geo, h'.drift.trans h.drift, fun hp => h'.range (h.range hp)⟩

theorem Balanced.setRefcount (p : Pmm) (f n : Nat) : Balanced p (setRefcount p f n) := by
  refine ⟨rfl, ?_, id⟩
  unfold Lestra.drift
  rw [usedBits_congr (setRefcount_geo p f n) (bitmapTest_setRefcount p f n), setRefcount_usedPages]

/-- Setting `n` clear bits and adding `n` to the counter keeps the balance. -/
theorem Balanced.take {p q : Pmm} {n : Nat} (hg : q.geo = p.geo)
    (hb : usedBits q = usedBits p + n) (hu : q.usedPages = add p.usedPages n) :
    Balanced p q := by
  refine ⟨hg, ?_, fun _ => hu ▸ add_lt _ _⟩
  unfold Lestra.drift
  rw [hb, hu]
  unfold sub add
  omega

/-- Clearing a set bit and subtracting one from the counter keeps the balance. -/
theorem Balanced.release {p q : Pmm} (hg : q.geo = p.geo)
    (hb : usedBits q + 1 = usedBits p) (hu : q.usedPages = sub p.usedPages 1) :
    Balanced p q := by
  refine ⟨hg, ?_, fun _ => ?_⟩
  · unfold Lestra.drift
    rw [← hb, hu]
    unfold sub
    omega
  · rw [hu]
    unfold sub
    omega

-- ---------------------------------------------------------------------------
-- Marking and releasing single frames
-- ---------------------------------------------------------------------------

@[simp] theorem claimFrame_geo (p : Pmm) (f : Nat) : (claimFrame p f).geo = p.geo := by
  unfold claimFrame
  split
  · rfl
  · exact bitmapSet_geo p f

@[simp] theorem claimFrame_physRefcount (p : Pmm) (f : Nat) :
    (claimFrame p f).physRefcount = p.physRefcount := by
  unfold claimFrame
  split
  · rfl
  · exact bitmapSet_physRefcount p f

theorem bitmapTest_claimFrame (p : Pmm) (f g : Nat) :
    bitmapTest (claimFrame p f) g = (bitmapTest p g || decide (g = f)) := by
  unfold claimFrame
  split
  · next hset =>
    by_cases hgf : g = f
    · rw [hgf, hset, Bool.true_or]
    · simp [hgf]
  · rw [bitmapTest_withUsed, bitmapTest_bitmapSet]

theorem Balanced.claimFrame (p : Pmm) (f : Nat) : Balanced p (claimFrame p f) := by
  by_cases hf : bitmapTest p f = true
  · rw [Lestra.claimFrame, if_pos hf]
    exact Balanced.refl p
  · refine Balanced.take (n := 1) (claimFrame_geo p f) ?_ ?_
    · exact usedBits_insert (claimFrame_geo p f) (bitmapTest_claimFrame p f) (by simpa using hf)
    · rw [Lestra.claimFrame, if_neg hf]

@[simp] theorem releaseFrame_geo (p : Pmm) (f : Nat) : (releaseFrame p f).geo = p.geo := by
  unfold releaseFrame
  split
  · exact bitmapClear_geo p f
  · rfl

@[simp] theorem releaseFrame_physRefcount (p : Pmm) (f : Nat) :
    (releaseFrame p f).physRefcount = p.physRefcount := by
  unfold releaseFrame
  split
  · exact bitmapClear_physRefcount p f
  · rfl

theorem bitmapTest_releaseFrame (p : Pmm) (f g : Nat) :
    bitmapTest (releaseFrame p f) g =
      (bitmapTest p g && !decide (g = f ∧ g < p.geo.highestPfn)) := by
  unfold releaseFrame
  split
  · rw [bitmapTest_withUsed, bitmapTest_bitmapClear]
  · next hclear =>
    by_cases hgf : g = f
    · subst hgf
      simp [hclear]
    · simp [hgf]

/-- Below `highest_pfn` a set bit is cleared and counted. -/
theorem Balanced.releaseFrame {p : Pmm} {f : Nat} (hlt : f < p.geo.highestPfn) :
    Balanced p (releaseFrame p f) := by
  by_cases hf : bitmapTest p f = true
  · refine Balanced.release (releaseFrame_geo p f) ?_ ?_
    · rw [← usedBits_bitmapClear hlt hf]
      congr 1
      refine usedBits_congr (by simp) fun g => ?_
      rw [bitmapTest_releaseFrame, bitmapTest_bitmapClear]
    · rw [Lestra.releaseFrame, if_pos hf]
  · rw [Lestra.releaseFrame, if_neg hf]
    exact Balanced.refl p

-- ---------------------------------------------------------------------------
-- Regions
-- ---------------------------------------------------------------------------

/-- `q` is `p` with the frames of `S` marked as used. -/
structure Marks (S : Nat → Prop) (p q : Pmm) : Prop extends Balanced p q where
  refcount : q.physRefcount = p.physRefcount
  bits : ∀ g, bitmapTest q g = true ↔ bitmapTest p g = true ∨ S g

theorem Marks.of_empty {S : Nat → Prop} {p : Pmm} (h : ∀ g, ¬ S g) : Marks S p p :=
  ⟨Balanced.refl p, rfl, fun g => by simp [h g]⟩

theorem forFrames_claimFrame (k : Nat) : ∀ (p : Pmm) (a : Nat),
    Marks (fun g => a ≤ g ∧ g < a + k) p (forFrames claimFrame p a k) := by
  induction k with
  | zero =>
    intro p a
    exact Marks.of_empty fun g => by omega
  | succ k ih =>
    intro p a
    have h := ih (claimFrame p a) (a + 1)
    refine ⟨(Balanced.claimFrame p a).trans h.toBalanced, ?_, fun g => ?_⟩
    · rw [forFrames, h.refcount, claimFrame_physRefcount]
    · rw [forFrames, h.bits, bitmapTest_claimFrame, Bool.or_eq_true, decide_eq_true_eq, or_assoc]
      refine or_congr_right ?_
      omega

/-- `q` is `p` with the frames of `S` below `highest_pfn` marked as free. -/
structure Frees (S : Nat → Prop) (p q : Pmm) : Prop extends Balanced p q where
  refcount : q.physRefcount = p.physRefcount
  bits : ∀ g, bitmapTest q g = true ↔
    bitmapTest p g = true ∧ ¬ (S g ∧ g < p.geo.highestPfn)

theorem Frees.of_empty {S : Nat → Prop} {p : Pmm}
    (h : ∀ g, ¬ (S g ∧ g < p.geo.highestPfn)) : Frees S p p :=
  ⟨Balanced.refl p, rfl, fun g => by simp [h g]⟩

theorem forFrames_releaseFrame (k : Nat) : ∀ (p : Pmm) (a : Nat), a + k ≤ p.geo.highestPfn →
    Frees (fun g => a ≤ g ∧ g < a + k) p (forFrames releaseFrame p a k) := by
  induction k with
  | zero =>
    intro p a _
    exact Frees.of_empty fun g => by omega
  | succ k ih =>
    intro p a hle
    have h := ih (releaseFrame p a) (a + 1) (by rw [releaseFrame_geo]; omega)
    refine ⟨(Balanced.releaseFrame (by omega)).trans h.toBalanced, ?_, fun g => ?_⟩
    · rw [forFrames, h.refcount, releaseFrame_physRefcount]
    · rw [forFrames, h.bits, bitmapTest_releaseFrame, releaseFrame_geo]
      simp only [Bool.and_eq_true, Bool.not_eq_true', decide_eq_false_iff_not]
      rw [and_assoc]
      refine and_congr_right fun _ => ?_
      omega

/-- The frames `mark_region(start, end)` and `free_region(start, end)` visit. -/
def InRegion (start fin f : Nat) : Prop :=
  start < fin ∧ start / 4096 ≤ f ∧ f < alignUp fin pageSize / 4096

theorem addrToPfn_alignDown (a : Nat) : addrToPfn (alignDown a pageSize) = a / 4096 := by
  unfold addrToPfn alignDown
  rw [pageSize_eq]
  omega

theorem markRegion_spec (p : Pmm) (start fin : Nat) :
    Marks (fun f => InRegion start fin f ∧ f < p.geo.highestPfn) p (markRegion p start fin) := by
  unfold markRegion forRegion InRegion
  split
  · exact Marks.of_empty fun g => by omega
  · dsimp only
    rw [addrToPfn_alignDown]
    have h := forFrames_claimFrame
      (min (addrToPfn (alignUp fin pageSize)) p.geo.highestPfn - start / 4096) p (start / 4096)
    refine ⟨h.toBalanced, h.refcount, fun g => ?_⟩
    rw [h.bits]
    refine or_congr_right ?_
    unfold addrToPfn
    rw [pageSize_eq]
    omega

theorem freeRegion_spec (p : Pmm) (start fin : Nat) :
    Frees (InRegion start fin) p (freeRegion p start fin) := by
  unfold freeRegion forRegion InRegion
  split
  · exact Frees.of_empty fun g => by omega
  · dsimp only
    rw [addrToPfn_alignDown]
    rcases Nat.le_total p.geo.highestPfn (start / 4096) with hhi | hlo
    · -- the region starts beyond the managed frames: nothing is visited
      rw [show min (addrToPfn (alignUp fin pageSize)) p.geo.highestPfn - start / 4096 = 0 by omega]
      exact Frees.of_empty fun g => by omega
    · have h := forFrames_releaseFrame
        (min (addrToPfn (alignUp fin pageSize)) p.geo.highestPfn - start / 4096) p (start / 4096)
        (by omega)
      refine ⟨h.toBalanced, h.refcount, fun g => ?_⟩
      rw [h.bits]
      refine and_congr_right fun _ => ?_
      unfold addrToPfn
      rw [pageSize_eq]
      omega

-- ---------------------------------------------------------------------------
-- Healing and taking
-- ---------------------------------------------------------------------------

/-- `q` is `p` with some protected frames marked as used. -/
def Heals (p q : Pmm) : Prop :=
  ∃ S : Nat → Prop, Marks S p q ∧ ∀ g, S g → pmmIsProtected p.geo (mul g pageSize) = true

theorem Heals.refl (p : Pmm) : Heals p p :=
  ⟨fun _ => False, Marks.of_empty fun _ => id, fun _ h => h.elim⟩

theorem Heals.balanced {p q : Pmm} (h : Heals p q) : Balanced p q := by
  obtain ⟨S, hM, -⟩ := h
  exact hM.toBalanced

theorem Heals.refcount {p q : Pmm} (h : Heals p q) : q.physRefcount = p.physRefcount := by
  obtain ⟨S, hM, -⟩ := h
  exact hM.refcount

theorem Heals.grows {p q : Pmm} (h : Heals p q) {g : Nat} (hg : bitmapTest p g = true) :
    bitmapTest q g = true := by
  obtain ⟨S, hM, -⟩ := h
  exact (hM.bits g).mpr (Or.inl hg)

theorem Heals.only {p q : Pmm} (h : Heals p q) {g : Nat} (hg : bitmapTest q g = true) :
    bitmapTest p g = true ∨ pmmIsProtected p.geo (mul g pageSize) = true := by
  obtain ⟨S, hM, hS⟩ := h
  exact ((hM.bits g).mp hg).imp_right (hS g)

/-- Healing is invisible to the searches: it changes no available frame. -/
theorem Heals.avail {p q : Pmm} (h : Heals p q) (g : Nat) : Avail q g ↔ Avail p g := by
  unfold Avail
  rw [h.balanced.geo]
  constructor
  · rintro ⟨hq, hP⟩
    refine ⟨?_, hP⟩
    by_contra hp
    rw [h.grows (by simpa using hp)] at hq
    exact absurd hq (by simp)
  · rintro ⟨hp, hP⟩
    refine ⟨?_, hP⟩
    by_contra hq
    rcases h.only (by simpa using hq) with hset | hprot
    · rw [hset] at hp
      exact absurd hp (by simp)
    · rw [hprot] at hP
      exact absurd hP (by simp)

theorem Heals.trans {p q r : Pmm} (h : Heals p q) (h' : Heals q r) : Heals p r := by
  obtain ⟨S, hM, hS⟩ := h
  obtain ⟨S', hM', hS'⟩ := h'
  refine ⟨fun g => S g ∨ S' g, ⟨hM.toBalanced.trans hM'.toBalanced, ?_, fun g => ?_⟩, ?_⟩
  · rw [hM'.refcount, hM.refcount]
  · rw [hM'.bits, hM.bits, or_assoc]
  · rintro g (hg | hg)
    · exact hS g hg
    · rw [← hM.geo]
      exact hS' g hg

/-- One self-healing step. -/
theorem Heals.claimFrame {p : Pmm} {f : Nat}
    (hf : pmmIsProtected p.geo (mul f pageSize) = true) : Heals p (claimFrame p f) := by
  refine ⟨fun g => g = f, ⟨Balanced.claimFrame p f, claimFrame_physRefcount p f, fun g => ?_⟩, ?_⟩
  · rw [bitmapTest_claimFrame, Bool.or_eq_true, decide_eq_true_eq]
  · rintro g rfl
    exact hf

/-- The single-page search claims its frame as a run of one. -/
theorem takeFrame_eq_takeRun (p : Pmm) (f : Nat) : takeFrame p f = takeRun p f 1 := by
  simp only [takeFrame, takeRun, forFrames, setRefcount, bitmapSet_usedPages]

/-- The claiming loop: sets the bits and counts of a run, and nothing else. -/
theorem forFrames_take (n : Nat) : ∀ (p : Pmm) (s : Nat),
    let q := forFrames (fun p pfn => setRefcount (bitmapSet p pfn) pfn 1) p s n
    q.geo = p.geo ∧ q.usedPages = p.usedPages ∧
    (∀ g, bitmapTest q g = true ↔ bitmapTest p g = true ∨ (s ≤ g ∧ g < s + n)) ∧
    (∀ g, q.physRefcount g = if s ≤ g ∧ g < s + n then 1 else p.physRefcount g) ∧
    ((∀ g, s ≤ g → g < s + n → bitmapTest p g = false) → usedBits q = usedBits p + n) := by
  induction n with
  | zero =>
    intro p s
    refine ⟨rfl, rfl, fun g => ?_, fun g => ?_, fun _ => rfl⟩
    · have : ¬ (s ≤ g ∧ g < s + 0) := by omega
      simp only [forFrames, this, or_false]
    · rw [if_neg (by omega), forFrames]
  | succ n ih =>
    intro p s
    obtain ⟨hgeo, hused, hbits, href, hcount⟩ := ih (setRefcount (bitmapSet p s) s 1) (s + 1)
    have hstep : ∀ g, bitmapTest (setRefcount (bitmapSet p s) s 1) g =
        (bitmapTest p g || decide (g = s)) := fun g => by
      rw [bitmapTest_setRefcount, bitmapTest_bitmapSet]
    simp only [forFrames]
    refine ⟨by rw [hgeo]; simp, by rw [hused]; simp, fun g => ?_, fun g => ?_, fun hclear => ?_⟩
    · rw [hbits, hstep, Bool.or_eq_true, decide_eq_true_eq, or_assoc]
      refine or_congr_right ?_
      omega
    · rw [href]
      simp only [setRefcount_physRefcount, bitmapSet_physRefcount]
      by_cases hgs : g = s
      · subst hgs
        rw [if_neg (by omega), if_pos (by omega), Function.update_self]
      · rw [Function.update_of_ne hgs]
        by_cases hin : s + 1 ≤ g ∧ g < s + 1 + n
        · rw [if_pos hin, if_pos (by omega)]
        · rw [if_neg hin, if_neg (by omega)]
    · rw [hcount, usedBits_insert (by simp) hstep (hclear s (by omega) (by omega))]
      · omega
      · intro g h1 h2
        rw [hstep, hclear g (by omega) (by omega)]
        have : g ≠ s := by omega
        simp [this]

/-- What a successful allocation of the run `[s, s + n)` does. -/
structure TakesRun (p : Pmm) (s n : Nat) (q : Pmm) : Prop extends Balanced p q where
  run : RunAt (Avail p) s n
  avail : ∀ g, Avail q g ↔ Avail p g ∧ ¬ (s ≤ g ∧ g < s + n)
  refcount : ∀ g, q.physRefcount g = if s ≤ g ∧ g < s + n then 1 else p.physRefcount g
  grows : ∀ g, bitmapTest p g = true ∨ (s ≤ g ∧ g < s + n) → bitmapTest q g = true
  only : ∀ g, bitmapTest q g = true → bitmapTest p g = true ∨ (s ≤ g ∧ g < s + n) ∨
    pmmIsProtected p.geo (mul g pageSize) = true

theorem takesRun_of_heals {p m : Pmm} {s n : Nat} (h : Heals p m) (hRun : RunAt (Avail p) s n) :
    TakesRun p s n (takeRun m s n) := by
  obtain ⟨hgeo, hused, hbits, href, hcount⟩ := forFrames_take n m s
  set q := forFrames (fun p pfn => setRefcount (bitmapSet p pfn) pfn 1) m s n with hq
  have hAvail : ∀ g, s ≤ g → g < s + n → Avail m g := by
    intro g h1 h2
    rw [h.avail, show g = s + (g - s) by omega]
    exact hRun (g - s) (by omega)
  have htest : ∀ g, bitmapTest (takeRun m s n) g = bitmapTest q g := fun g => rfl
  have hgeo' : (takeRun m s n).geo = m.geo := hgeo
  refine ⟨h.balanced.trans (Balanced.take (n := n) hgeo' ?_ ?_), hRun, ?_, ?_, ?_, ?_⟩
  · rw [← hcount fun g h1 h2 => (hAvail g h1 h2).1]
    exact usedBits_congr rfl htest
  · show add q.usedPages n = add m.usedPages n
    rw [hused]
  · intro g
    rw [← h.avail g]
    unfold Avail
    rw [hgeo', htest]
    simp only [← Bool.not_eq_true, hbits g, not_or]
    tauto
  · intro g
    show q.physRefcount g = _
    rw [href, h.refcount]
  · intro g hg
    rw [htest, hbits]
    exact hg.imp_left h.grows
  · intro g hg
    rw [htest, hbits] at hg
    rcases hg with hm | hin
    · exact (h.only hm).imp_right Or.inr
    · exact Or.inr (Or.inl hin)

-- ---------------------------------------------------------------------------
-- The single-page search
-- ---------------------------------------------------------------------------

/-- The outcome of a search for one page among the frames from `lo` on. -/
def ScanOutcome (p : Pmm) (lo : Nat) (q : Pmm) (r : Nat) : Prop :=
  (∃ f m, lo ≤ f ∧ Avail p f ∧ (∀ g, lo ≤ g → g < f → ¬ Avail p g) ∧
    r = mul f pageSize ∧ Heals p m ∧ q = takeFrame m f) ∨
  (r = 0 ∧ Heals p q ∧ ∀ g, lo ≤ g → ¬ Avail p g)

/-- A search that healed its way from `lo` to `lo'` without an available frame
has the outcome of the search from `lo'`. -/
theorem ScanOutcome.extend {p p' q : Pmm} {lo lo' r : Nat} (hle : lo ≤ lo')
    (hp' : Heals p p')
    (hNone : ∀ g, lo ≤ g → g < lo' → ¬ Avail p g) (h : ScanOutcome p' lo' q r) :
    ScanOutcome p lo q r := by
  have hAll : ∀ g, lo ≤ g → (lo' ≤ g → ¬ Avail p' g) → ¬ Avail p g := by
    intro g hg hlater hA
    rcases Nat.lt_or_ge g lo' with hlt | hge
    · exact hNone g hg hlt hA
    · exact hlater hge ((hp'.avail g).mpr hA)
  rcases h with ⟨f, m, hlo, hA, hFirst, hr, hm, hq⟩ | ⟨hr, hq, hEnd⟩
  · refine Or.inl ⟨f, m, by omega, (hp'.avail f).mp hA, ?_, hr, hp'.trans hm, hq⟩
    exact fun g hg hlt => hAll g hg fun hge => hFirst g hge hlt
  · exact Or.inr ⟨hr, hp'.trans hq, fun g hg => hAll g hg (hEnd g)⟩

theorem not_avail_of_test {p : Pmm} {f : Nat} (h : bitmapTest p f = true) : ¬ Avail p f := by
  intro hA
  rw [hA.1] at h
  exact absurd h (by simp)

theorem not_avail_of_protected {p : Pmm} {f : Nat}
    (h : pmmIsProtected p.geo (mul f pageSize) = true) : ¬ Avail p f := by
  intro hA
  rw [hA.2] at h
  exact absurd h (by simp)

/-- The bit loop either returns a search outcome, or runs to the end of its
word without meeting an available frame. -/
theorem allocScanBits_spec (idx : Nat) : ∀ (left : Nat) (p : Pmm) (bit : Nat), bit + left = 64 →
    (∀ q r, allocScanBits p idx bit left = (q, some r) → ScanOutcome p (idx * 64 + bit) q r) ∧
    (∀ q, allocScanBits p idx bit left = (q, none) →
      Heals p q ∧ ∀ g, idx * 64 + bit ≤ g → g < idx * 64 + 64 → ¬ Avail p g) := by
  intro left
  induction left with
  | zero =>
    intro p bit hbit
    refine ⟨fun q r h => by simp [allocScanBits] at h, fun q h => ?_⟩
    simp only [allocScanBits, Prod.mk.injEq, and_true] at h
    exact ⟨h ▸ Heals.refl p, fun g h1 h2 => by omega⟩
  | succ left ih =>
    intro p bit hbit
    simp only [allocScanBits]
    split
    · -- past the last managed frame: return 0
      next hhigh =>
      refine ⟨fun q r h => ?_, fun q h => by simp at h⟩
      simp only [Prod.mk.injEq, Option.some.injEq] at h
      obtain ⟨rfl, rfl⟩ := h
      refine Or.inr ⟨rfl, Heals.refl p, fun g hg => not_avail_of_test ?_⟩
      exact bitmapTest_of_le (by omega)
    split
    · -- the bit is set: next bit
      next hset =>
      obtain ⟨hsome, hnone⟩ := ih p (bit + 1) (by omega)
      have hfirst : ∀ g, idx * 64 + bit ≤ g → g < idx * 64 + (bit + 1) → ¬ Avail p g := by
        intro g h1 h2
        rw [show g = idx * 64 + bit by omega]
        exact not_avail_of_test hset
      refine ⟨fun q r h => ?_, fun q h => ?_⟩
      · exact (hsome q r h).extend (by omega) (Heals.refl p) hfirst
      · obtain ⟨hH, hN⟩ := hnone q h
        refine ⟨hH, fun g h1 h2 => ?_⟩
        rcases Nat.lt_or_ge g (idx * 64 + (bit + 1)) with hlt | hge
        · exact hfirst g h1 hlt
        · exact hN g hge h2
    split
    · -- a clear metadata frame: mark it, next bit
      next hclear hprot =>
      obtain ⟨hsome, hnone⟩ := ih (claimFrame p (idx * 64 + bit)) (bit + 1) (by omega)
      have hstep := Heals.claimFrame hprot
      have hfirst : ∀ g, idx * 64 + bit ≤ g → g < idx * 64 + (bit + 1) → ¬ Avail p g := by
        intro g h1 h2
        rw [show g = idx * 64 + bit by omega]
        exact not_avail_of_protected hprot
      refine ⟨fun q r h => ?_, fun q h => ?_⟩
      · exact (hsome q r h).extend (by omega) hstep hfirst
      · obtain ⟨hH, hN⟩ := hnone q h
        refine ⟨hstep.trans hH, fun g h1 h2 => ?_⟩
        rcases Nat.lt_or_ge g (idx * 64 + (bit + 1)) with hlt | hge
        · exact hfirst g h1 hlt
        · exact fun hA => hN g hge h2 ((hstep.avail g).mpr hA)
    · -- found
      next hclear hprot =>
      refine ⟨fun q r h => ?_, fun q h => by simp at h⟩
      simp only [Prod.mk.injEq, Option.some.injEq] at h
      refine Or.inl ⟨idx * 64 + bit, p, by omega, ⟨by simpa using hclear, by simpa using hprot⟩,
        fun g h1 h2 => by omega, h.2.symm, Heals.refl p, h.1.symm⟩

/-- A word of ones holds no available frame. -/
theorem not_avail_of_allOnes {p : Pmm} {idx : Nat} (h : p.bitmap idx = BitVec.allOnes 64)
    {g : Nat} (h1 : idx * 64 ≤ g) (h2 : g < idx * 64 + 64) : ¬ Avail p g := by
  apply not_avail_of_test
  rcases Nat.lt_or_ge g p.geo.highestPfn with hlt | hge
  · rw [bitmapTest_of_lt hlt, show g / 64 = idx by omega, h, BitVec.getLsbD_allOnes]
    exact decide_eq_true (Nat.mod_lt _ (by decide))
  · exact bitmapTest_of_le hge

theorem allocScanWords_spec : ∀ (left : Nat) (p : Pmm) (idx : Nat),
    p.geo.highestPfn ≤ (idx + left) * 64 →
    ScanOutcome p (idx * 64) (allocScanWords p idx left).1 (allocScanWords p idx left).2 := by
  intro left
  induction left with
  | zero =>
    intro p idx hcov
    refine Or.inr ⟨rfl, Heals.refl p, fun g hg => not_avail_of_test ?_⟩
    exact bitmapTest_of_le (by omega)
  | succ left ih =>
    intro p idx hcov
    simp only [allocScanWords]
    split
    · obtain ⟨hsome, hnone⟩ := allocScanBits_spec idx 64 p 0 (by omega)
      split
      · next q r hscan => exact hsome q r hscan
      · next q hscan =>
        obtain ⟨hH, hN⟩ := hnone q hscan
        have hq := ih q (idx + 1) (by rw [hH.balanced.geo]; omega)
        exact hq.extend (by omega) hH fun g h1 h2 => hN g h1 (by omega)
    · next hones =>
      refine (ih p (idx + 1) (by omega)).extend (by omega) (Heals.refl p) fun g h1 h2 => ?_
      exact not_avail_of_allOnes (by simpa using hones) h1 (by omega)

/-- **`pmm_alloc_page`.** It returns and takes the lowest available frame, or
returns 0 when no frame is available. -/
theorem pmmAllocPage_spec {p : Pmm} (hg : p.geo.Covers) :
    (∃ f, Avail p f ∧ (∀ g < f, ¬ Avail p g) ∧ (pmmAllocPage p).2 = f * 4096 ∧
      TakesRun p f 1 (pmmAllocPage p).1) ∨
    ((pmmAllocPage p).2 = 0 ∧ Heals p (pmmAllocPage p).1 ∧ ∀ g, ¬ Avail p g) := by
  have h := allocScanWords_spec (p.geo.bitmapSize / 8) p 0 (by have := hg.words; omega)
  rcases h with ⟨f, m, -, hA, hFirst, hr, hm, hq⟩ | ⟨hr, hq, hEnd⟩
  · refine Or.inl ⟨f, hA, fun g hlt => hFirst g (by omega) hlt, ?_, ?_⟩
    · rw [← pfn_mul_pageSize hg hA.lt]
      exact hr
    · have hRun : RunAt (Avail p) f 1 := by
        intro i hi
        rw [show f + i = f by omega]
        exact hA
      have hT := takesRun_of_heals hm hRun
      rw [← takeFrame_eq_takeRun, ← hq] at hT
      exact hT
  · exact Or.inr ⟨hr, hq, fun g => hEnd g (by omega)⟩

-- ---------------------------------------------------------------------------
-- The run search
-- ---------------------------------------------------------------------------

/-- The outcome of a search for `n` consecutive pages from frame 1 on. -/
def RunOutcome (p : Pmm) (n : Nat) (q : Pmm) (r : Nat) : Prop :=
  (∃ s m, 0 < s ∧ RunAt (Avail p) s n ∧ (∀ s', 0 < s' → s' < s → ¬ RunAt (Avail p) s' n) ∧
    r = mul s pageSize ∧ Heals p m ∧ q = takeRun m s n) ∨
  (r = 0 ∧ Heals p q ∧ ∀ s, 0 < s → ¬ RunAt (Avail p) s n)

theorem allocScanRun_spec {p : Pmm} {n : Nat} : ∀ (left : Nat) (m : Pmm) (pfn found start : Nat),
    Heals p m → p.geo.highestPfn ≤ pfn + left → Scanned (Avail p) n 1 pfn found →
    (found ≠ 0 → start = pfn - found) →
    RunOutcome p n (allocScanRun m n pfn found start left).1
      (allocScanRun m n pfn found start left).2 := by
  intro left
  induction left with
  | zero =>
    intro m pfn found start hm hcov hscan hstart
    refine Or.inr ⟨rfl, hm, fun s hs => hscan.no_run (fun g hg => not_avail_of_test ?_) s hs⟩
    exact bitmapTest_of_le (by omega)
  | succ left ih =>
    intro m pfn found start hm hcov hscan hstart
    simp only [allocScanRun]
    split
    · next hset =>
      -- a used frame breaks the run
      have hno : ¬ Avail p pfn := fun hA => not_avail_of_test hset ((hm.avail pfn).mpr hA)
      exact ih m (pfn + 1) 0 start hm (by omega) (hscan.reject hno) (by omega)
    split
    · next hprot =>
      -- so does a metadata frame, which is marked on the way
      have hno : ¬ Avail p pfn := fun hA => not_avail_of_protected hprot ((hm.avail pfn).mpr hA)
      exact ih (claimFrame m pfn) (pfn + 1) 0 start (hm.trans (Heals.claimFrame hprot)) (by omega)
        (hscan.reject hno) (by omega)
    · next hclear hprot =>
      have hA : Avail p pfn := (hm.avail pfn).mp ⟨by simpa using hclear, by simpa using hprot⟩
      have hstart' : (if found = 0 then pfn else start) = pfn - found := by
        split <;> omega
      rw [hstart']
      split
      · next hfull =>
        obtain ⟨hlo, hRun, hFirst⟩ := hscan.complete hA hfull
        exact Or.inl ⟨pfn - found, m, hlo, hRun, fun s' h1 h2 => hFirst s' h1 h2, rfl, hm, rfl⟩
      · next hshort =>
        exact ih m (pfn + 1) (found + 1) (pfn - found) hm (by omega)
          (hscan.accept hA (by omega)) (by omega)

/-- **`pmm_alloc_pages`.** For `n > 0`, when frame 0 is not available, it
returns and takes the first run of `n` available frames, or returns 0 when
there is no such run. -/
theorem pmmAllocPages_spec {p : Pmm} (hg : p.geo.Covers) (h0 : ¬ Avail p 0) {n : Nat}
    (hn : 0 < n) :
    (∃ s, 0 < s ∧ s + n ≤ p.geo.highestPfn ∧ (∀ s' < s, ¬ RunAt (Avail p) s' n) ∧
      (pmmAllocPages p n).2 = s * 4096 ∧ TakesRun p s n (pmmAllocPages p n).1) ∨
    ((pmmAllocPages p n).2 = 0 ∧ Heals p (pmmAllocPages p n).1 ∧
      ∀ s, ¬ RunAt (Avail p) s n) := by
  have hzero : ¬ RunAt (Avail p) 0 n := fun h => h0 (h 0 hn)
  have hpos : ∀ s, RunAt (Avail p) s n → 0 < s := by
    intro s h
    rcases Nat.eq_zero_or_pos s with rfl | hs
    · exact absurd h hzero
    · exact hs
  have hfits : ∀ s, RunAt (Avail p) s n → s + n ≤ p.geo.highestPfn := by
    intro s h
    have := (h (n - 1) (by omega)).lt
    omega
  unfold pmmAllocPages
  rw [if_neg (by omega)]
  split
  · -- one page: the word scan
    next h1 =>
    subst h1
    have hrun1 : ∀ s, RunAt (Avail p) s 1 → Avail p s := fun s h => h 0 (by omega)
    rcases pmmAllocPage_spec hg with ⟨f, hA, hFirst, hr, hT⟩ | ⟨hr, hq, hNone⟩
    · exact Or.inl ⟨f, hpos f hT.run, hfits f hT.run,
        fun s' hlt h => hFirst s' hlt (hrun1 s' h), hr, hT⟩
    · exact Or.inr ⟨hr, hq, fun s h => hNone s (hrun1 s h)⟩
  split
  · -- more pages than frames
    next hbig =>
    exact Or.inr ⟨rfl, Heals.refl p, fun s h => by have := hfits s h; omega⟩
  · have h := allocScanRun_spec (p := p) (n := n) (p.geo.highestPfn - 1) p 1 0 0 (Heals.refl p)
      (by omega) (Scanned.start hn) (by omega)
    rcases h with ⟨s, m, hs, hRun, hFirst, hr, hm, hq⟩ | ⟨hr, hq, hNone⟩
    · refine Or.inl ⟨s, hs, hfits s hRun, fun s' hlt h => hFirst s' (hpos s' h) hlt h, ?_, ?_⟩
      · rw [hr, pfn_mul_pageSize hg]
        have := hfits s hRun
        omega
      · rw [hq]
        exact takesRun_of_heals hm hRun
    · exact Or.inr ⟨hr, hq, fun s h => hNone s (hpos s h) h⟩

-- ---------------------------------------------------------------------------
-- Release and marking
-- ---------------------------------------------------------------------------

/-- What releasing the frames of `S` does: the bits of `S` below `highest_pfn`
are clear, everything outside `S` is as before. -/
structure Releases (S : Nat → Prop) (p q : Pmm) : Prop extends Balanced p q where
  bits : ∀ g, bitmapTest q g = true ↔ bitmapTest p g = true ∧ ¬ (S g ∧ g < p.geo.highestPfn)
  refcount : ∀ g, ¬ S g → q.physRefcount g = p.physRefcount g

theorem Releases.of_empty {S : Nat → Prop} {p : Pmm}
    (h : ∀ g, bitmapTest p g = true → ¬ (S g ∧ g < p.geo.highestPfn)) : Releases S p p :=
  ⟨Balanced.refl p, fun g => (and_iff_left_of_imp (h g)).symm, fun _ _ => rfl⟩

theorem pmmFreePage_spec (p : Pmm) (addr : Nat) :
    Releases (fun g => g = addr / 4096 ∧ addr ≠ 0) p (pmmFreePage p addr) := by
  unfold pmmFreePage
  split
  · next h0 => exact Releases.of_empty fun g _ h => h.1.2 h0
  · next h0 =>
    dsimp only [addrToPfn, pageSize_eq]
    split
    · next hset =>
      obtain ⟨hlt, hset⟩ := hset
      have hblock : { bitmapClear p (addr / 4096) with usedPages := sub p.usedPages 1 } =
          releaseFrame p (addr / 4096) := by
        rw [releaseFrame, if_pos hset]
      rw [hblock]
      refine ⟨(Balanced.releaseFrame hlt).trans (Balanced.setRefcount _ _ _), fun g => ?_,
        fun g hg => ?_⟩
      · rw [bitmapTest_setRefcount, bitmapTest_releaseFrame, Bool.and_eq_true,
          Bool.not_eq_true', decide_eq_false_iff_not]
        simp only [ne_eq, h0, not_false_eq_true, and_true]
      · rw [setRefcount_physRefcount, Function.update_of_ne (fun h => hg ⟨h, h0⟩),
          releaseFrame_physRefcount]
    · next hclear =>
      refine Releases.of_empty fun g hg h => hclear ?_
      obtain ⟨⟨rfl, -⟩, hlt⟩ := h
      exact ⟨hlt, hg⟩

theorem Balanced.freePagesFrom (addr : Nat) : ∀ (left : Nat) (p : Pmm) (i : Nat),
    Balanced p (freePagesFrom p addr i left) := by
  intro left
  induction left with
  | zero => exact fun p _ => Balanced.refl p
  | succ left ih =>
    intro p i
    exact (pmmFreePage_spec p _).toBalanced.trans (ih _ (i + 1))

theorem Balanced.pmmFreePages (p : Pmm) (addr n : Nat) : Balanced p (pmmFreePages p addr n) := by
  unfold Lestra.pmmFreePages
  split
  · exact Balanced.refl p
  · exact Balanced.freePagesFrom addr n p 0

/-- The release loop on page-aligned frames that do not wrap around. -/
theorem freePagesFrom_spec {f : Nat} (hf : 0 < f) : ∀ (left : Nat) (p : Pmm) (i : Nat),
    f + i + left ≤ 2 ^ 52 →
    Releases (fun g => f + i ≤ g ∧ g < f + i + left) p (freePagesFrom p (f * 4096) i left) := by
  intro left
  induction left with
  | zero => exact fun p i _ => Releases.of_empty fun g _ h => by omega
  | succ left ih =>
    intro p i hle
    have haddr : add (f * 4096) (mul i pageSize) = (f + i) * 4096 := by
      rw [pageSize_eq, mul_of_lt (by omega), add_of_lt (by omega)]
      omega
    have h := pmmFreePage_spec p ((f + i) * 4096)
    have h' := ih (pmmFreePage p ((f + i) * 4096)) (i + 1) (by omega)
    rw [freePagesFrom, haddr]
    refine ⟨h.toBalanced.trans h'.toBalanced, fun g => ?_, fun g hg => ?_⟩
    · rw [h'.bits, h.bits, h.geo, and_assoc]
      refine and_congr_right fun _ => ?_
      omega
    · rw [h'.refcount g (by omega), h.refcount g (by omega)]

/-- What marking one frame does. -/
theorem pmmMarkUsed_spec (p : Pmm) (phys : Nat) :
    Balanced p (pmmMarkUsed p phys) ∧
    (∀ g, bitmapTest (pmmMarkUsed p phys) g = true ↔ bitmapTest p g = true ∨ g = phys / 4096) ∧
    (∀ g, g ≠ phys / 4096 → (pmmMarkUsed p phys).physRefcount g = p.physRefcount g) := by
  unfold pmmMarkUsed
  dsimp only [addrToPfn, pageSize_eq]
  split
  · next hhigh =>
    refine ⟨Balanced.refl p, fun g => (or_iff_left_of_imp ?_).symm, fun _ _ => rfl⟩
    rintro rfl
    exact bitmapTest_of_le hhigh
  · refine ⟨(Balanced.claimFrame p _).trans (Balanced.setRefcount _ _ _), fun g => ?_,
      fun g hg => ?_⟩
    · rw [bitmapTest_setRefcount, bitmapTest_claimFrame, Bool.or_eq_true, decide_eq_true_eq]
    · rw [setRefcount_physRefcount, Function.update_of_ne hg, claimFrame_physRefcount]

/-- Every allocation keeps the balance. -/
theorem Balanced.pmmAllocPages {p : Pmm} (hg : p.geo.Covers) (n : Nat) :
    Balanced p (pmmAllocPages p n).1 := by
  unfold Lestra.pmmAllocPages
  split
  · exact Balanced.refl p
  split
  · rcases pmmAllocPage_spec hg with ⟨f, -, -, -, hT⟩ | ⟨-, hH, -⟩
    · exact hT.toBalanced
    · exact hH.balanced
  split
  · exact Balanced.refl p
  · next h0 _ _ =>
    rcases allocScanRun_spec (p := p) (n := n) (p.geo.highestPfn - 1) p 1 0 0 (Heals.refl p)
      (by omega) (Scanned.start (Nat.pos_of_ne_zero h0)) (by omega) with
      ⟨s, m, -, hRun, -, -, hm, hq⟩ | ⟨-, hH, -⟩
    · rw [hq]
      exact (takesRun_of_heals hm hRun).toBalanced
    · exact hH.balanced

end Lestra
