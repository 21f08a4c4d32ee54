import Lestra.Libc.HeapBlocks

/-!
# The C library's heap: one call

`HeapAt s h L` — the blocks `L` lie one behind the other from the first break `s` to the
current one, the list of the heap leads through them, and no two neighbours are free. Each
of `malloc`, `free` and `realloc` keeps it, with the bytes of the blocks in use.
-/

namespace Lestra

open Word64 ByteMem BlockList

-- ---------------------------------------------------------------------------
-- The invariant
-- ---------------------------------------------------------------------------

structure HeapAt (s : ℕ) (h : LibcHeap) (L : List Block) : Prop where
  linked : Linked h.mem h.freeList L 0
  tiled : Tiled 24 s L h.brk
  merged : Merged L
  pos : 0 < s
  brk_lt : h.brk < 2 ^ 63
  cached : h.heapBrk = h.brk ∨ h.heapBrk = 0 ∧ L = []

/-- The kernel's answers: to a query the break, and to a request either the address asked for
or a failure, which is no success value or an address below. -/
structure BrkReplies (brk : ℕ) (sys : ℕ → ℤ) : Prop where
  query : sys 0 = brk
  moves : ∀ a, a ≠ 0 → sys a = a ∨ sys a ≤ 0 ∨ sys a < a
  int64 : ∀ a, sys a < 2 ^ 63

/-- What a call relies on: the query is made only while no break is cached. -/
structure BrkAnswers (h : LibcHeap) (sys : ℕ → ℤ) : Prop where
  query : h.heapBrk = 0 → sys 0 = h.brk
  moves : ∀ a, a ≠ 0 → sys a = a ∨ sys a ≤ 0 ∨ sys a < a
  int64 : ∀ a, sys a < 2 ^ 63

theorem BrkReplies.answers {h : LibcHeap} {sys : ℕ → ℤ} (hsys : BrkReplies h.brk sys) :
    BrkAnswers h sys := ⟨fun _ => hsys.query, hsys.moves, hsys.int64⟩

/-- A block for `size` bytes behind the break ends at a 64-bit address. -/
def FitsBreak (brk size : ℕ) : Prop := brk + (24 + (size + 15) / 16 * 16) < 2 ^ 64

theorem fitsBreak_of_le {brk size : ℕ} (hbrk : brk < 2 ^ 63) (hsize : size ≤ 2 ^ 62) :
    FitsBreak brk size := by
  unfold FitsBreak
  omega

/-- The bytes behind the headers of the blocks in use are what they were. -/
def KeepsUsed (L : List Block) (m m' : Mem) : Prop :=
  ∀ b ∈ L, b.free = false → ∀ x, b.addr + 24 ≤ x → x < b.addr + b.size → m' x = m x

/-- A block is added to those in use. -/
structure Granted (L L' : List Block) (b : Block) : Prop where
  used : ∀ c, c.free = false → (c ∈ L' ↔ c ∈ L ∨ c = b)
  inUse : b.free = false
  fresh : ∀ c ∈ L, c.free = false → c.addr ≠ b.addr

section Facts

variable {s : ℕ} {h : LibcHeap} {L pre post : List Block} {b c : Block} {m m' : Mem}

theorem HeapAt.inside (hI : HeapAt s h L) (hb : b ∈ L) :
    b.addr ≠ 0 ∧ 24 ≤ b.size ∧ b.addr + b.size < 2 ^ 63 := by
  have hin := hI.tiled.inside hb
  have hpos := hI.pos
  have hlt := hI.brk_lt
  omega

theorem HeapAt.length_lt (hI : HeapAt s h L) : L.length < 2 ^ 64 := by
  have hle := hI.tiled.le
  have hlt := hI.brk_lt
  omega

/-- New memory with other blocks over the same addresses. -/
theorem HeapAt.withMem {L' : List Block} (hI : HeapAt s h L) (hb : b ∈ L)
    (hL : Linked m' h.freeList L' 0) (hT : Tiled 24 s L' h.brk) (hM : Merged L') :
    HeapAt s { h with mem := m' } L' := by
  refine ⟨hL, hT, hM, hI.pos, hI.brk_lt, ?_⟩
  rcases hI.cached with hc | ⟨-, rfl⟩
  · exact Or.inl hc
  · cases hb

theorem KeepsUsed.trans {m'' : Mem} (h : KeepsUsed L m m') (h' : KeepsUsed L m' m'') :
    KeepsUsed L m m'' :=
  fun b hb hfree x h₁ h₂ => (h' b hb hfree x h₁ h₂).trans (h b hb hfree x h₁ h₂)

/-- A store into a header is in no block's data. -/
theorem keepsUsed_header {e : ℕ} (hL : Tiled 24 s L e) (hb : b ∈ L)
    (hm : SameOutside m m' b.addr (b.addr + 24)) : KeepsUsed L m m' := by
  intro c hc _ x h₁ h₂
  refine hm x ?_
  by_cases hbc : c = b
  · subst hbc
    omega
  · have hsize := (hL.inside hb).2.1
    have hapart := hL.apart hc hb hbc
    omega

/-- A store into a free block is in no other block's data. -/
theorem keepsUsed_free {e : ℕ} (hL : Tiled 24 s L e) (hb : b ∈ L) (hfree : b.free = true)
    (hm : SameOutside m m' b.addr (b.addr + b.size)) : KeepsUsed L m m' := by
  intro c hc hused x h₁ h₂
  have hbc : c ≠ b := by
    rintro rfl
    rw [hfree] at hused
    cases hused
  have hapart := hL.apart hc hb hbc
  exact hm x (by omega)

end Facts

-- ---------------------------------------------------------------------------
-- Handing out a free block
-- ---------------------------------------------------------------------------

section Take

variable {s total : ℕ} {h : LibcHeap} {pre post : List Block} {b c : Block}

theorem taken_tiled (hmin : 24 ≤ total) (a z : ℕ) (h : Tiled 24 a [b] z) :
    Tiled 24 a (taken b total) z := by
  obtain ⟨rfl, hsize, rfl⟩ := h
  unfold taken
  split
  · refine ⟨rfl, hmin, rfl, ?_, ?_⟩
    · dsimp only
      omega
    · change b.addr + total + (b.size - total) = b.addr + b.size
      omega
  · exact ⟨rfl, hsize, rfl⟩

theorem taken_merged (hfree : b.free = true) (h : Merged (pre ++ b :: post)) :
    Merged (pre ++ (taken b total ++ post)) := by
  obtain ⟨hpre, -, hnext, hpost⟩ := merged_middle.mp h
  unfold taken
  split
  · refine merged_middle.mpr ⟨hpre, fun d _ hd => Bool.noConfusion hd.2, ?_, ?_⟩
    · intro d _ hd
      exact Bool.noConfusion hd.1
    · refine (merged_middle (p := [])).mpr ⟨List.isChain_nil, by simp, fun d hd hboth => ?_, hpost⟩
      exact hnext d hd ⟨hfree, hboth.2⟩
  · refine merged_middle.mpr ⟨hpre, fun d _ hd => Bool.noConfusion hd.2, ?_, hpost⟩
    intro d _ hd
    exact Bool.noConfusion hd.1

/-- The first part of a free block that is handed out. -/
def handedOut (b : Block) (total : ℕ) : Block :=
  ⟨b.addr, if total + 40 ≤ b.size then total else b.size, false⟩

theorem mem_taken_used (hc : c.free = false) : c ∈ taken b total ↔ c = handedOut b total := by
  unfold taken handedOut
  split
  · simp only [List.mem_cons, List.not_mem_nil, or_false]
    refine or_iff_left ?_
    rintro rfl
    cases hc
  · simp

theorem granted_taken (hI : HeapAt s h (pre ++ b :: post)) (hfree : b.free = true) :
    Granted (pre ++ b :: post) (pre ++ (taken b total ++ post)) (handedOut b total) where
  used c hc := by
    have hcb : c ≠ b := by
      rintro rfl
      rw [hfree] at hc
      cases hc
    simp only [List.mem_append, List.mem_cons, mem_taken_used hc, hcb, false_or]
    tauto
  inUse := rfl
  fresh c hc hused heq := by
    have hcb : c ≠ b := by
      rintro rfl
      rw [hfree] at hused
      cases hused
    have hapart := hI.tiled.apart hc (b := c) (c := b) (by simp) hcb
    have hb := hI.inside (b := b) (by simp)
    have hcin := hI.inside hc
    have haddr : c.addr = b.addr := heq
    omega

theorem HeapAt.take (hI : HeapAt s h (pre ++ b :: post)) (hfree : b.free = true)
    (hmin : 24 ≤ total) (hfit : total ≤ b.size) :
    HeapAt s { h with mem := takeBlock h.mem b.addr total } (pre ++ (taken b total ++ post)) ∧
      KeepsUsed (pre ++ b :: post) h.mem (takeBlock h.mem b.addr total) := by
  have hb := hI.inside (b := b) (by simp)
  obtain ⟨hpre, hpost⟩ := hI.tiled.around
  have hsize : getSize h.mem b.addr = b.size := by
    obtain ⟨-, n, hn, -⟩ := linked_middle.mp hI.linked
    exact hn.size
  have hsame := sameOutside_takeBlock hsize hb.2.1 hfit (by omega)
  refine ⟨hI.withMem (b := b) (by simp) ?_ ?_ (taken_merged hfree hI.merged),
    keepsUsed_free hI.tiled (by simp) hfree hsame⟩
  · refine Linked.edit [b] _ hI.linked hsame (fun c hc => ?_) hpost
      fun a n hn => takeBlock_linked hn hmin hfit hb.2.2
    have := hpre c hc
    have := hI.inside (b := c) (by simp [hc])
    omega
  · exact Tiled.edit [b] _ hI.tiled (taken_tiled hmin)

end Take

-- ---------------------------------------------------------------------------
-- Growing the heap
-- ---------------------------------------------------------------------------

section Grow

variable {s total size : ℕ} {h : LibcHeap} {L : List Block} {sys : ℕ → ℤ}

/-- The break has moved by `total`, or stays. -/
structure SbrkDone (h h' : LibcHeap) (total : ℕ) (r : Option ℕ) : Prop where
  mem : h'.mem = h.mem
  freeList : h'.freeList = h.freeList
  cached : h'.heapBrk = h'.brk
  brk_lt : h'.brk < 2 ^ 63
  moved : r = none ∧ h'.brk = h.brk ∨ r = some h.brk ∧ h'.brk = h.brk + total

/-- A total from 2^63 on is a negative increment. -/
theorem toPtrdiff_cases (htotal : total < 2 ^ 64) :
    toPtrdiff total = total ∧ total < 2 ^ 63 ∨
      toPtrdiff total = (total : ℤ) - 2 ^ 64 ∧ 2 ^ 63 ≤ total := by
  unfold toPtrdiff
  rw [Int.bmod_def, Int.emod_eq_of_lt (by omega) (by omega)]
  split
  · exact Or.inl ⟨rfl, by omega⟩
  · exact Or.inr ⟨rfl, by omega⟩

/-- The address that is asked for lies behind the break, also when the increment is negative. -/
theorem add_toPtrdiff {a : ℕ} (h : a + total < 2 ^ 64) :
    (((a : ℤ) + toPtrdiff total) % 2 ^ 64).toNat = a + total := by
  have hdiff := @toPtrdiff_cases total (by omega)
  omega

theorem toPtrdiff_ne_zero (hpos : 0 < total) (htotal : total < 2 ^ 64) : toPtrdiff total ≠ 0 := by
  have hdiff := toPtrdiff_cases htotal
  omega

theorem sbrkCached_spec (hbrk : h.brk < 2 ^ 63) (hcached : h.heapBrk = h.brk)
    (hsys : BrkAnswers h sys) (hpos : 0 < total) (htotal : h.brk + total < 2 ^ 64) :
    ∃ h' r, sbrkCached h sys (toPtrdiff total) = (h', r) ∧ SbrkDone h h' total r := by
  have hreq : (((h.heapBrk : ℤ) + toPtrdiff total) % 2 ^ 64).toNat = h.brk + total := by
    rw [hcached, add_toPtrdiff htotal]
  unfold sbrkCached
  rw [if_neg (toPtrdiff_ne_zero hpos (by omega))]
  dsimp only
  rw [hreq, syscallBrk]
  dsimp only
  by_cases hfail : sys (h.brk + total) ≤ 0 ∨ sys (h.brk + total) < (h.brk + total : ℕ)
  · rw [if_pos hfail, if_neg (by omega)]
    exact ⟨_, _, rfl, rfl, rfl, hcached, hbrk, Or.inl ⟨rfl, rfl⟩⟩
  · have hmove : sys (h.brk + total) = (h.brk + total : ℕ) := by
      rcases hsys.moves (h.brk + total) (by omega) with heq | hle | hlt
      · exact heq
      · exact absurd (Or.inl hle) hfail
      · exact absurd (Or.inr hlt) hfail
    have hint := hsys.int64 (h.brk + total)
    rw [hmove] at hint
    rw [if_neg hfail, if_pos ⟨by omega, hmove⟩, hmove, hcached]
    refine ⟨_, _, rfl, rfl, rfl, rfl, ?_, Or.inr ⟨rfl, rfl⟩⟩
    dsimp only
    omega

theorem sbrk_spec (hI : HeapAt s h L) (hsys : BrkAnswers h sys) (hpos : 0 < total)
    (htotal : h.brk + total < 2 ^ 64) :
    ∃ h' r, sbrk h sys (toPtrdiff total) = (h', r) ∧ SbrkDone h h' total r := by
  have hs := hI.pos
  have hle := hI.tiled.le
  have hlt := hI.brk_lt
  rw [sbrk]
  by_cases hnew : h.heapBrk = 0
  · rw [if_pos hnew, syscallBrk, hsys.query hnew]
    dsimp only
    rw [if_neg (by omega), if_neg (by simp)]
    obtain ⟨h', r, heq, hdone⟩ := sbrkCached_spec (h := { h with
        brk := h.brk, asked := h.asked ++ [0], heapBrk := (h.brk : ℤ).toNat }) hlt rfl
      ⟨fun _ => hsys.query hnew, hsys.moves, hsys.int64⟩ hpos htotal
    exact ⟨h', r, heq, hdone.mem, hdone.freeList, hdone.cached, hdone.brk_lt, hdone.moved⟩
  · rw [if_neg hnew]
    refine sbrkCached_spec hlt ?_ hsys hpos htotal
    rcases hI.cached with hc | ⟨hc, -⟩
    · exact hc
    · exact absurd hc hnew

/-- The list with a new block at the break. -/
theorem append_linked {m : Mem} {e a : ℕ} (hL : Linked m a L 0) (hT : Tiled 24 s L e)
    (hs : 0 < s) (he : e < 2 ^ 64) (htotal : total < 2 ^ 64) :
    Linked (if lastAddr 0 L ≠ 0
        then setNext (setNext (setFree (setSize m e total) e 0) e 0) (lastAddr 0 L) e
        else setNext (setFree (setSize m e total) e 0) e 0)
      (if lastAddr 0 L ≠ 0 then a else e) (L ++ [⟨e, total, false⟩]) 0 := by
  have hnew := holds_new m e false htotal (show 0 < 2 ^ 64 by omega)
  have hsame : SameOutside m (setNext (setFree (setSize m e total) e 0) e 0) e (e + 24) :=
    ((sameOutside_setSize _ _ le_rfl le_rfl).trans (sameOutside_setFree _ _ le_rfl le_rfl)).trans
      (sameOutside_setNext _ _ le_rfl le_rfl)
  have hbefore : ∀ b ∈ L, b.addr + 24 ≤ e := by
    intro b hb
    have hin := hT.inside hb
    omega
  have hkept := hL.congr hsame fun b hb => Or.inl (hbefore b hb)
  rcases List.eq_nil_or_concat L with rfl | ⟨L, c, rfl⟩
  · exact linked_one.mpr ⟨rfl, hnew⟩
  · rw [List.concat_eq_append] at *
    have hc := hT.inside (b := c) (by simp)
    have hcend := hbefore c (by simp)
    rw [lastAddr_append, if_pos (by omega), if_pos (by omega)]
    obtain ⟨h1, n, h2, -⟩ := linked_middle.mp hkept
    have hlink : SameOutside (setNext (setFree (setSize m e total) e 0) e 0)
        (setNext (setNext (setFree (setSize m e total) e 0) e 0) c.addr e) c.addr (c.addr + 24) :=
      sameOutside_setNext _ _ le_rfl le_rfl
    rw [List.append_assoc]
    refine linked_middle.mpr ⟨h1.congr hlink fun b hb => Or.inl ?_, e, h2.setNext he, ?_⟩
    · have hinit := hT.around.1 b hb
      have hsize := (hT.inside (b := b) (by simp [hb])).2.1
      omega
    · exact linked_one.mpr ⟨rfl, hnew.congr hlink (Or.inr hcend)⟩

theorem HeapAt.grow (hI : HeapAt s h L) (hsys : BrkAnswers h sys) (hmin : 24 ≤ total)
    (htotal : h.brk + total < 2 ^ 64) :
    ∃ h' p, growHeap h sys (lastAddr 0 L) total = (h', p) ∧
      (p = 0 ∧ HeapAt s h' L ∧ h'.mem = h.mem ∨
        p = h.brk + 24 ∧ HeapAt s h' (L ++ [⟨h.brk, total, false⟩]) ∧
          KeepsUsed L h.mem h'.mem) := by
  obtain ⟨h', r, heq, hdone⟩ := sbrk_spec hI hsys (show 0 < total by omega) htotal
  have hs := hI.pos
  have hle := hI.tiled.le
  rw [growHeap, heq]
  rcases hdone.moved with ⟨rfl, hbrk⟩ | ⟨rfl, hbrk⟩
  · refine ⟨_, _, rfl, Or.inl ⟨rfl, ⟨?_, ?_, hI.merged, hs, hdone.brk_lt, Or.inl hdone.cached⟩,
      hdone.mem⟩⟩
    · change Linked h'.mem h'.freeList L 0
      rw [hdone.mem, hdone.freeList]
      exact hI.linked
    · change Tiled 24 s L h'.brk
      rw [hbrk]
      exact hI.tiled
  · have hlinked := append_linked hI.linked hI.tiled hs (lt_trans hI.brk_lt (by decide))
      (show total < 2 ^ 64 by omega)
    have htiled : Tiled 24 s (L ++ [⟨h.brk, total, false⟩]) h'.brk :=
      tiled_append.mpr ⟨h.brk, hI.tiled, rfl, hmin, hbrk.symm⟩
    have hmerged : Merged (L ++ [⟨h.brk, total, false⟩]) :=
      merged_middle.mpr ⟨hI.merged, fun c _ hc => Bool.noConfusion hc.2, by simp, List.isChain_nil⟩
    have hkeeps : KeepsUsed L h.mem (setNext (setFree (setSize h'.mem h.brk total) h.brk 0)
        h.brk 0) := by
      rw [hdone.mem]
      intro b hb _ x _ hx
      have hin := hI.tiled.inside hb
      have hsame : SameOutside h.mem (setNext (setFree (setSize h.mem h.brk total) h.brk 0)
          h.brk 0) h.brk (h.brk + 24) :=
        ((sameOutside_setSize _ _ le_rfl le_rfl).trans
          (sameOutside_setFree _ _ le_rfl le_rfl)).trans (sameOutside_setNext _ _ le_rfl le_rfl)
      exact hsame x (by omega)
    rw [← hdone.mem, ← hdone.freeList] at hlinked
    dsimp only
    by_cases hprev : lastAddr 0 L ≠ 0
    · rw [if_pos hprev, if_pos hprev] at hlinked
      rw [if_pos hprev]
      refine ⟨_, _, rfl, Or.inr ⟨rfl, ⟨hlinked, htiled, hmerged, hs, hdone.brk_lt,
        Or.inl hdone.cached⟩, hkeeps.trans ?_⟩⟩
      rcases List.eq_nil_or_concat L with rfl | ⟨L, c, rfl⟩
      · exact absurd rfl hprev
      · rw [List.concat_eq_append] at *
        rw [lastAddr_append]
        exact keepsUsed_header hI.tiled (b := c) (by simp)
          (sameOutside_setNext _ _ le_rfl le_rfl)
    · rw [if_neg hprev, if_neg hprev] at hlinked
      rw [if_neg hprev]
      exact ⟨_, _, rfl, Or.inr ⟨rfl, ⟨hlinked, htiled, hmerged, hs, hdone.brk_lt,
        Or.inl hdone.cached⟩, hkeeps⟩⟩

end Grow

-- ---------------------------------------------------------------------------
-- malloc and calloc
-- ---------------------------------------------------------------------------

section Malloc

variable {s size nmemb : ℕ} {h : LibcHeap} {L : List Block} {sys : ℕ → ℤ}

/-- An allocation of `size` bytes returned `p`: null with the blocks as they were, or the data
of a block that was not in use. -/
def Allocated (s : ℕ) (h : LibcHeap) (L : List Block) (size : ℕ) (h' : LibcHeap) (p : ℕ) : Prop :=
  p = 0 ∧ HeapAt s h' L ∧ h'.mem = h.mem ∨
    ∃ L' b, p = b.addr + 24 ∧ HeapAt s h' L' ∧ Granted L L' b ∧ size + 24 ≤ b.size ∧
      KeepsUsed L h.mem h'.mem

theorem blockTotal_of_lt (hsize : 24 + (size + 15) / 16 * 16 < 2 ^ 64) :
    blockTotal size = 24 + (size + 15) / 16 * 16 := by
  rw [blockTotal, blockHeader_eq, alignUp_of_lt (by omega), add_of_lt (by omega)]

theorem handedOut_size {b : Block} {total : ℕ} (hfit : total ≤ b.size) :
    total ≤ (handedOut b total).size := by
  change total ≤ if total + 40 ≤ b.size then total else b.size
  split <;> omega

/-- **`malloc`.** The call returns, and it asks the kernel only if no free block fits. -/
theorem malloc_spec (hI : HeapAt s h L) (hsys : BrkAnswers h sys) (hsize : FitsBreak h.brk size) :
    ∃ h' p, malloc h sys size = some (h', p) ∧ Allocated s h L size h' p ∧
      (h'.asked ≠ h.asked → NoFit L (blockTotal size)) := by
  unfold FitsBreak at hsize
  have htotal := @blockTotal_of_lt size (by omega)
  unfold malloc
  by_cases hzero : size = 0
  · rw [if_pos hzero]
    exact ⟨h, 0, rfl, Or.inl ⟨rfl, hI, rfl⟩, fun hne => absurd rfl hne⟩
  · rw [if_neg hzero]
    dsimp only
    have hpos : ∀ b ∈ L, b.addr ≠ 0 := fun b hb => (hI.inside hb).1
    rcases @findFit_spec _ _ _ 0 _ (blockTotal size) hI.linked hpos hI.length_lt with
      ⟨pre, b, post, rfl, hfree, hfit, hfind⟩ | ⟨hno, hfind⟩
    · obtain ⟨hI', hkeeps⟩ := hI.take hfree (by omega) hfit
      rw [hfind]
      dsimp only
      rw [if_pos (hpos b (by simp))]
      have hlarge := handedOut_size hfit
      exact ⟨_, _, rfl, Or.inr ⟨_, handedOut b (blockTotal size), rfl, hI',
        granted_taken hI hfree, by omega, hkeeps⟩, fun hne => absurd rfl hne⟩
    · rw [hfind]
      dsimp only
      rw [if_neg (by simp)]
      obtain ⟨h', p, heq, hres⟩ := hI.grow hsys (show 24 ≤ blockTotal size by omega) (by omega)
      refine ⟨h', p, by rw [heq], ?_, fun _ => hno⟩
      rcases hres with hnull | ⟨rfl, hI', hkeeps⟩
      · exact Or.inl hnull
      · refine Or.inr ⟨_, ⟨h.brk, blockTotal size, false⟩, rfl, hI', ⟨?_, rfl, ?_⟩, ?_, hkeeps⟩
        · intro c _
          simp
        · intro c hc _ heq
          have hin := hI.tiled.inside hc
          have haddr : c.addr = h.brk := heq
          omega
        · dsimp only
          omega

/-- Bytes stored behind the header of a block leave the others and all headers alone. -/
theorem HeapAt.storeData (hI : HeapAt s h L) {b : Block} (hb : b ∈ L) {a : ℕ} {bs : List UInt8}
    (hlo : b.addr + 24 ≤ a) (hhi : a + bs.length ≤ b.addr + b.size) :
    HeapAt s { h with mem := store h.mem a bs } L := by
  have hsame : SameOutside h.mem (store h.mem a bs) a (a + bs.length) :=
    fun x hx => store_out hx
  refine hI.withMem hb (hI.linked.congr hsame fun c hc => ?_) hI.tiled hI.merged
  by_cases hcb : c = b
  · subst hcb
    exact Or.inl hlo
  · have hc24 := (hI.tiled.inside hc).2.1
    have hapart := hI.tiled.apart hc hb hcb
    omega

theorem mul_of_not_overflow (h : ¬ (nmemb ≠ 0 ∧ sizeMax / nmemb < size)) :
    nmemb * size < 2 ^ 64 := by
  rcases Nat.eq_zero_or_pos nmemb with rfl | hpos
  · simp
  · have hle : size ≤ sizeMax / nmemb := by
      by_contra hlt
      exact h ⟨by omega, by omega⟩
    have hmul : size * nmemb ≤ sizeMax := (Nat.le_div_iff_mul_le hpos).mp hle
    rw [Nat.mul_comm]
    exact lt_of_le_of_lt hmul (by decide)

/-- **`calloc`.** -/
theorem calloc_spec (hI : HeapAt s h L) (hsys : BrkAnswers h sys)
    (hsize : nmemb * size < 2 ^ 64 → FitsBreak h.brk (nmemb * size)) :
    ∃ h' p, calloc h sys nmemb size = some (h', p) ∧ Allocated s h L (nmemb * size) h' p ∧
      (p ≠ 0 → load h'.mem p (nmemb * size) = List.replicate (nmemb * size) 0) ∧
      (h'.asked ≠ h.asked → NoFit L (blockTotal (nmemb * size))) := by
  unfold calloc
  by_cases hover : nmemb ≠ 0 ∧ sizeMax / nmemb < size
  · rw [if_pos hover]
    exact ⟨_, 0, rfl, Or.inl ⟨rfl, { hI with }, rfl⟩, fun hp => absurd rfl hp,
      fun hne => absurd rfl hne⟩
  · have hlt := mul_of_not_overflow hover
    obtain ⟨h', p, heq, halloc, hask⟩ := malloc_spec hI hsys (hsize hlt)
    rw [if_neg hover]
    dsimp only
    rw [mul_of_lt hlt, heq]
    dsimp only
    rcases halloc with ⟨rfl, hI', hmem⟩ | ⟨L', b, rfl, hI', hgrant, hroom, hkeeps⟩
    · rw [if_neg (by simp)]
      exact ⟨h', 0, rfl, Or.inl ⟨rfl, hI', hmem⟩, fun hp => absurd rfl hp, hask⟩
    · rw [if_pos (by omega)]
      have hb : b ∈ L' := (hgrant.used b hgrant.inUse).mpr (Or.inr rfl)
      have hlen : (List.replicate (nmemb * size) (0 : UInt8)).length = nmemb * size :=
        List.length_replicate
      refine ⟨_, _, rfl, Or.inr ⟨L', b, rfl, hI'.storeData hb le_rfl (by omega), hgrant, hroom,
        hkeeps.trans ?_⟩, fun _ => ?_, hask⟩
      · intro c hc hused x h₁ h₂
        have hcb : c ≠ b := fun heq => hgrant.fresh c hc hused (by rw [heq])
        have hc' : c ∈ L' := (hgrant.used c hused).mpr (Or.inl hc)
        have hapart := hI'.tiled.apart hc' hb hcb
        exact store_out (by omega)
      · have hload := load_store h'.mem (b.addr + 24) (List.replicate (nmemb * size) 0)
        rwa [hlen] at hload

end Malloc

end Lestra
