import Lestra.Libc.MallocRuns

/-!
# The C library's heap: sizes

The size law of `malloc`, `calloc` and `realloc`, over the whole range of 64-bit sizes. The
total of a block wraps for sizes near 2^64, and from 2^63 on it is handed to `sbrk` as a
negative increment.

* `FallbackSim` — a heap in the static array behaves as one whose kernel ends at the array
* `libc_size_law` — every run whose requests fit behind the break keeps the law
-/

namespace Lestra

open Word64 ByteMem BlockList

-- ---------------------------------------------------------------------------
-- The law
-- ---------------------------------------------------------------------------

/-- A kernel that gives the process a break, or one that refuses every call, so that the
library uses its static array. -/
inductive BrkKernel where
  | gives
  | refuses

def BrkKernel.Answers : BrkKernel → LibcHeap → (ℕ → ℤ) → Prop
  | .gives, h, sys => BrkReplies h.brk sys
  | .refuses, _, sys => ∀ a, sys a ≤ 0

/-- Where the next block begins. -/
def libcBreak : BrkKernel → LibcHeap → ℕ
  | .gives, h => h.brk
  | .refuses, h => if h.heapBrk = 0 then h.fallbackHeap else h.heapBrk

/-- A block for `size` bytes behind the break ends at a 64-bit address, and the first one in
the static array is no negative increment. -/
def BrkKernel.Room (k : BrkKernel) (h : LibcHeap) (size : ℕ) : Prop :=
  FitsBreak (libcBreak k h) size ∧
    (k = .refuses → h.heapBrk = 0 → 24 + (size + 15) / 16 * 16 < 2 ^ 63)

/-- The condition of a step: the kernel answers as it does, what is requested has room behind
the break, and only live pointers are given back or stored through. -/
def LibcRun.Sized (k : BrkKernel) (r : LibcRun) : LibcOp → Prop
  | .malloc sys size => k.Answers r.heap sys ∧ k.Room r.heap size
  | .calloc sys nmemb size =>
    k.Answers r.heap sys ∧ (nmemb * size < 2 ^ 64 → k.Room r.heap (nmemb * size))
  | .realloc sys ptr size =>
    k.Answers r.heap sys ∧ k.Room r.heap size ∧ (ptr = 0 ∨ ∃ c, r.live ptr = some c)
  | .free ptr => ptr = 0 ∨ ∃ c, r.live ptr = some c
  | .store ptr i _ => ∃ c, r.live ptr = some c ∧ i < c.length

/-- `n` bytes from `p` on are usable: they are data of a block in use below the break. -/
structure Usable (h : LibcHeap) (L : List Block) (p n : ℕ) (b : Block) : Prop where
  mem : b ∈ L
  inUse : b.free = false
  ptr : p = b.addr + 24
  size : getSize h.mem b.addr = b.size
  room : n + 24 ≤ b.size
  below : b.addr + b.size ≤ h.heapBrk

/-- The law: no two blocks overlap, what a live pointer was requested for is usable, and the
break is the kernel's or lies in the static array. -/
structure LibcSizeLaw (k : BrkKernel) (r : LibcRun) (L : List Block) : Prop where
  apart : L.Pairwise fun b c => b.addr + b.size ≤ c.addr
  usable : ∀ p c, r.live p = some c → ∃ b, Usable r.heap L p c.length b
  brk : r.heap.heapBrk ≠ 0 →
    match k with
    | .gives => r.heap.heapBrk = r.heap.brk
    | .refuses => r.heap.heapBrk ≤ fallbackEnd r.heap

-- ---------------------------------------------------------------------------
-- The static array
-- ---------------------------------------------------------------------------

/-- The heap `g` is as `h`, with the break of the library for that of a kernel. The array
begins at `F`. -/
structure FallbackSim (F : ℕ) (h g : LibcHeap) : Prop where
  array : h.fallbackHeap = F
  freeList : g.freeList = h.freeList
  mem : g.mem = h.mem
  cached : g.heapBrk = g.brk
  brk : g.brk = libcBreak .refuses h
  bound : g.brk ≤ F + 2 ^ 20

/-- A kernel that grants what is in the array while nothing is cached. -/
def arrayKernel (h : LibcHeap) (sys : ℕ → ℤ) (a : ℕ) : ℤ :=
  if h.heapBrk = 0 then if a ≤ fallbackEnd h then a else -1 else sys a

section Array

variable {F size total ptr p prev : ℕ} {h g g' : LibcHeap} {sys : ℕ → ℤ} {r : Option ℕ}

/-- A request that the kernel refuses. -/
theorem sbrkCached_refused {v : ℕ → ℤ} {d : ℤ} (hd : d ≠ 0)
    (hv : v ((h.heapBrk + d) % 2 ^ 64).toNat ≤ 0) :
    sbrkCached h v d =
      ({ h with
          asked := h.asked ++ [((h.heapBrk + d) % 2 ^ 64).toNat]
          errno := libcEnomem }, none) := by
  unfold sbrkCached
  rw [if_neg hd]
  dsimp only [syscallBrk]
  rw [if_pos (Or.inl hv), if_neg fun hmove => by omega]

theorem FallbackSim.withMem (hsim : FallbackSim F h g) (m : Mem) :
    FallbackSim F { h with mem := m } { g with mem := m } where
  array := hsim.array
  freeList := hsim.freeList
  mem := rfl
  cached := hsim.cached
  brk := hsim.brk
  bound := hsim.bound

theorem FallbackSim.sbrk (hsim : FallbackSim F h g) (hsys : ∀ a, sys a ≤ 0) (hF : 0 < F)
    (hend : F + 2 ^ 20 < 2 ^ 63) (hpos : 0 < total) (htotal : g.brk + total < 2 ^ 64)
    (hfirst : h.heapBrk = 0 → total < 2 ^ 63)
    (heq : Lestra.sbrk g (arrayKernel h sys) (toPtrdiff total) = (g', r)) :
    ∃ h', Lestra.sbrk h sys (toPtrdiff total) = (h', r) ∧ FallbackSim F h' g' := by
  obtain ⟨harray, hlist, hmem, hcached, hbrk, hbound⟩ := hsim
  have hd : toPtrdiff total ≠ 0 := toPtrdiff_ne_zero hpos (by omega)
  have hreq : (((g.heapBrk : ℤ) + toPtrdiff total) % 2 ^ 64).toNat = g.brk + total := by
    rw [hcached, add_toPtrdiff htotal]
  rw [libcBreak] at hbrk
  by_cases hnew : h.heapBrk = 0
  · rw [if_pos hnew, harray] at hbrk
    have hinc : toPtrdiff total = total := by
      rcases @toPtrdiff_cases total (by omega) with ⟨hinc, -⟩ | ⟨-, hge⟩
      · exact hinc
      · exact absurd (hfirst hnew) (not_lt.mpr hge)
    -- the library looks at the end of the array, and so does the kernel
    have hquery : Lestra.sbrk h sys (toPtrdiff total) =
        sbrkFallback { h with asked := h.asked ++ [0] } (toPtrdiff total) := by
      rw [Lestra.sbrk, if_pos hnew, syscallBrk]
      dsimp only
      rw [if_pos (hsys 0), if_neg fun hmove => hmove.1 rfl]
    rw [hquery, sbrkFallback]
    dsimp only
    rw [if_neg hd, fallbackEnd]
    dsimp only
    rw [Lestra.sbrk, if_neg (by omega)] at heq
    by_cases hover : F + 2 ^ 20 < F + total
    · rw [sbrkCached_refused hd] at heq
      · obtain ⟨rfl, rfl⟩ := Prod.mk.inj heq
        rw [if_pos (by rw [hinc]; omega)]
        refine ⟨_, rfl, harray, hlist, hmem, hcached, ?_, hbound⟩
        rw [libcBreak]
        dsimp only
        rw [if_neg (by omega), harray, hbrk]
      · rw [hreq, arrayKernel, if_pos hnew, fallbackEnd, if_neg (by omega)]
        decide
    · have hgrant : arrayKernel h sys (g.brk + total) = (g.brk + total : ℕ) := by
        rw [arrayKernel, if_pos hnew, fallbackEnd, if_pos (by omega)]
      rw [sbrkCached, if_neg hd] at heq
      dsimp only [syscallBrk] at heq
      rw [hreq, hgrant, if_neg (by omega), if_pos ⟨by omega, rfl⟩, Int.toNat_natCast] at heq
      obtain ⟨rfl, rfl⟩ := Prod.mk.inj heq
      rw [if_neg (by rw [hinc]; omega), hinc, harray, hcached, hbrk]
      have hsum : ((F : ℤ) + total).toNat = F + total := by omega
      refine ⟨_, rfl, rfl, hlist, hmem, rfl, ?_, ?_⟩
      · rw [libcBreak]
        dsimp only
        rw [hsum, if_neg (by omega)]
      · dsimp only
        omega
  · rw [if_neg hnew] at hbrk
    rw [Lestra.sbrk, if_neg (by omega)] at heq
    rw [sbrkCached_refused hd (by rw [arrayKernel, if_neg hnew]; exact hsys _)] at heq
    obtain ⟨rfl, rfl⟩ := Prod.mk.inj heq
    rw [Lestra.sbrk, if_neg hnew, sbrkCached_refused hd (hsys _)]
    exact ⟨_, rfl, harray, hlist, hmem, hcached, by rw [libcBreak, if_neg hnew]; exact hbrk, hbound⟩

theorem FallbackSim.growHeap (hsim : FallbackSim F h g) (hsys : ∀ a, sys a ≤ 0) (hF : 0 < F)
    (hend : F + 2 ^ 20 < 2 ^ 63) (hpos : 0 < total) (htotal : g.brk + total < 2 ^ 64)
    (hfirst : h.heapBrk = 0 → total < 2 ^ 63)
    (heq : Lestra.growHeap g (arrayKernel h sys) prev total = (g', p)) :
    ∃ h', Lestra.growHeap h sys prev total = (h', p) ∧ FallbackSim F h' g' := by
  unfold Lestra.growHeap at heq ⊢
  cases hres : Lestra.sbrk g (arrayKernel h sys) (toPtrdiff total) with
  | mk g₁ r =>
    obtain ⟨h₁, hres', hsim₁⟩ := hsim.sbrk hsys hF hend hpos htotal hfirst hres
    rw [hres] at heq
    rw [hres']
    cases r with
    | none =>
      obtain ⟨rfl, rfl⟩ := Prod.mk.inj heq
      exact ⟨_, rfl, { hsim₁ with }⟩
    | some newBlock =>
      dsimp only at heq ⊢
      rw [hsim₁.mem] at heq
      by_cases hprev : prev ≠ 0
      · rw [if_pos hprev] at heq ⊢
        obtain ⟨rfl, rfl⟩ := Prod.mk.inj heq
        exact ⟨_, rfl, hsim₁.withMem _⟩
      · rw [if_neg hprev] at heq ⊢
        obtain ⟨rfl, rfl⟩ := Prod.mk.inj heq
        exact ⟨_, rfl, { hsim₁.withMem _ with freeList := rfl }⟩

/-- What the simulation needs of a request. -/
theorem BrkKernel.Room.sim (hsim : FallbackSim F h g) (hroom : BrkKernel.refuses.Room h size) :
    FitsBreak g.brk size ∧ blockTotal size = 24 + (size + 15) / 16 * 16 ∧
      (h.heapBrk = 0 → blockTotal size < 2 ^ 63) := by
  obtain ⟨hfits, hfirst⟩ := hroom
  rw [← hsim.brk] at hfits
  have hlt : g.brk + (24 + (size + 15) / 16 * 16) < 2 ^ 64 := hfits
  have htotal := @blockTotal_of_lt size (by omega)
  exact ⟨hfits, htotal, fun hnew => htotal ▸ hfirst rfl hnew⟩

theorem FallbackSim.malloc (hsim : FallbackSim F h g) (hsys : ∀ a, sys a ≤ 0) (hF : 0 < F)
    (hend : F + 2 ^ 20 < 2 ^ 63) (hroom : BrkKernel.refuses.Room h size)
    (heq : Lestra.malloc g (arrayKernel h sys) size = some (g', p)) :
    ∃ h', Lestra.malloc h sys size = some (h', p) ∧ FallbackSim F h' g' := by
  obtain ⟨hfits, htotal, hfirst⟩ := hroom.sim hsim
  have hlt : g.brk + (24 + (size + 15) / 16 * 16) < 2 ^ 64 := hfits
  unfold Lestra.malloc at heq ⊢
  dsimp only at heq ⊢
  rw [hsim.mem, hsim.freeList] at heq
  split at heq
  · next hzero =>
    rw [if_pos hzero]
    obtain ⟨rfl, rfl⟩ := Prod.mk.inj (Option.some.inj heq)
    exact ⟨h, rfl, hsim⟩
  · next hzero =>
    rw [if_neg hzero]
    cases hfind : findFit h.mem (blockTotal size) (2 ^ 64) 0 h.freeList with
    | none =>
      rw [hfind] at heq
      cases heq
    | some found =>
      obtain ⟨prev, curr⟩ := found
      rw [hfind] at heq
      dsimp only at heq ⊢
      by_cases hcurr : curr ≠ 0
      · rw [if_pos hcurr] at heq ⊢
        obtain ⟨rfl, rfl⟩ := Prod.mk.inj (Option.some.inj heq)
        exact ⟨_, rfl, { hsim.withMem _ with freeList := rfl }⟩
      · rw [if_neg hcurr] at heq ⊢
        obtain ⟨h', hgrow, hsim'⟩ := hsim.growHeap hsys hF hend (by omega) (by omega) hfirst
          (Option.some.inj heq)
        exact ⟨h', by rw [hgrow], hsim'⟩

theorem FallbackSim.calloc {nmemb : ℕ} (hsim : FallbackSim F h g) (hsys : ∀ a, sys a ≤ 0)
    (hF : 0 < F) (hend : F + 2 ^ 20 < 2 ^ 63)
    (hroom : nmemb * size < 2 ^ 64 → BrkKernel.refuses.Room h (nmemb * size))
    (heq : Lestra.calloc g (arrayKernel h sys) nmemb size = some (g', p)) :
    ∃ h', Lestra.calloc h sys nmemb size = some (h', p) ∧ FallbackSim F h' g' := by
  unfold Lestra.calloc at heq ⊢
  dsimp only at heq ⊢
  by_cases hover : nmemb ≠ 0 ∧ sizeMax / nmemb < size
  · rw [if_pos hover] at heq ⊢
    obtain ⟨rfl, rfl⟩ := Prod.mk.inj (Option.some.inj heq)
    exact ⟨_, rfl, { hsim with }⟩
  · have hlt := mul_of_not_overflow hover
    rw [if_neg hover, mul_of_lt hlt] at heq ⊢
    cases hres : Lestra.malloc g (arrayKernel h sys) (nmemb * size) with
    | none =>
      rw [hres] at heq
      cases heq
    | some res =>
      obtain ⟨g₁, q⟩ := res
      obtain ⟨h₁, hres', hsim₁⟩ := hsim.malloc hsys hF hend (hroom hlt) hres
      rw [hres] at heq
      rw [hres']
      dsimp only at heq ⊢
      by_cases hq : q ≠ 0
      · rw [if_pos hq] at heq ⊢
        obtain ⟨rfl, rfl⟩ := Prod.mk.inj (Option.some.inj heq)
        rw [hsim₁.mem]
        exact ⟨_, rfl, hsim₁.withMem _⟩
      · rw [if_neg hq] at heq ⊢
        obtain ⟨rfl, rfl⟩ := Prod.mk.inj (Option.some.inj heq)
        exact ⟨h₁, rfl, hsim₁⟩

theorem FallbackSim.free (hsim : FallbackSim F h g) (heq : Lestra.free g ptr = some g') :
    ∃ h', Lestra.free h ptr = some h' ∧ FallbackSim F h' g' := by
  unfold Lestra.free at heq ⊢
  dsimp only at heq ⊢
  rw [hsim.mem, hsim.freeList] at heq
  by_cases hnull : ptr = 0
  · rw [if_pos hnull] at heq ⊢
    obtain rfl := Option.some.inj heq
    exact ⟨h, rfl, hsim⟩
  · rw [if_neg hnull] at heq ⊢
    cases hfind : findPred (freeForward h.mem (ptr - blockHeader)) (ptr - blockHeader) (2 ^ 64) 0
        h.freeList with
    | none =>
      rw [hfind] at heq
      cases heq
    | some pred =>
      rw [hfind] at heq
      dsimp only at heq ⊢
      split at heq
      · next hmerge =>
        rw [if_pos hmerge]
        obtain rfl := Option.some.inj heq
        exact ⟨_, rfl, { hsim.withMem _ with freeList := rfl }⟩
      · next hmerge =>
        rw [if_neg hmerge]
        obtain rfl := Option.some.inj heq
        exact ⟨_, rfl, { hsim.withMem _ with freeList := rfl }⟩

theorem FallbackSim.realloc (hsim : FallbackSim F h g) (hsys : ∀ a, sys a ≤ 0) (hF : 0 < F)
    (hend : F + 2 ^ 20 < 2 ^ 63) (hroom : BrkKernel.refuses.Room h size)
    (heq : Lestra.realloc g (arrayKernel h sys) ptr size = some (g', p)) :
    ∃ h', Lestra.realloc h sys ptr size = some (h', p) ∧ FallbackSim F h' g' := by
  unfold Lestra.realloc at heq ⊢
  dsimp only at heq ⊢
  rw [hsim.mem] at heq
  by_cases hnull : ptr = 0
  · rw [if_pos hnull] at heq ⊢
    exact hsim.malloc hsys hF hend hroom heq
  rw [if_neg hnull] at heq ⊢
  by_cases hzero : size = 0
  · rw [if_pos hzero] at heq ⊢
    obtain ⟨g₁, hfree, hpair⟩ := Option.map_eq_some_iff.mp heq
    obtain ⟨h₁, hfree', hsim₁⟩ := hsim.free hfree
    obtain ⟨rfl, rfl⟩ := Prod.mk.inj hpair
    exact ⟨h₁, by rw [hfree']; rfl, hsim₁⟩
  rw [if_neg hzero] at heq ⊢
  by_cases hroomy : blockTotal size ≤ getSize h.mem (ptr - blockHeader)
  · rw [if_pos hroomy] at heq ⊢
    obtain ⟨rfl, rfl⟩ := Prod.mk.inj (Option.some.inj heq)
    exact ⟨h, rfl, hsim⟩
  rw [if_neg hroomy] at heq ⊢
  split at heq
  · next hgrow =>
    rw [if_pos hgrow]
    obtain ⟨rfl, rfl⟩ := Prod.mk.inj (Option.some.inj heq)
    exact ⟨_, rfl, hsim.withMem _⟩
  · next hgrow =>
    rw [if_neg hgrow]
    cases hres : Lestra.malloc g (arrayKernel h sys) size with
    | none =>
      rw [hres] at heq
      cases heq
    | some res =>
      obtain ⟨g₁, q⟩ := res
      obtain ⟨h₁, hres', hsim₁⟩ := hsim.malloc hsys hF hend hroom hres
      rw [hres] at heq
      rw [hres']
      dsimp only at heq ⊢
      by_cases hq : q = 0
      · rw [if_pos hq] at heq ⊢
        obtain ⟨rfl, rfl⟩ := Prod.mk.inj (Option.some.inj heq)
        exact ⟨h₁, rfl, hsim₁⟩
      · rw [if_neg hq] at heq ⊢
        rw [hsim₁.mem] at heq
        obtain ⟨g₂, hfree, hpair⟩ := Option.map_eq_some_iff.mp heq
        obtain ⟨h₂, hfree', hsim₂⟩ := (hsim₁.withMem _).free hfree
        obtain ⟨rfl, rfl⟩ := Prod.mk.inj hpair
        exact ⟨h₂, by rw [hfree']; rfl, hsim₂⟩

end Array

-- ---------------------------------------------------------------------------
-- Runs
-- ---------------------------------------------------------------------------

/-- The call with the kernel that grants the array. -/
def LibcOp.inArray (h : LibcHeap) : LibcOp → LibcOp
  | .malloc sys size => .malloc (arrayKernel h sys) size
  | .calloc sys nmemb size => .calloc (arrayKernel h sys) nmemb size
  | .realloc sys ptr size => .realloc (arrayKernel h sys) ptr size
  | .free ptr => .free ptr
  | .store ptr i v => .store ptr i v

structure RunSim (F : ℕ) (r q : LibcRun) : Prop where
  heap : FallbackSim F r.heap q.heap
  live : q.live = r.live

section Runs

variable {F s : ℕ} {r q q' : LibcRun} {op : LibcOp} {L : List Block} {k : BrkKernel}

/-- The kernel of the array answers as the calls rely on. -/
theorem FallbackSim.answers {h g : LibcHeap} {sys : ℕ → ℤ} (hsim : FallbackSim F h g)
    (hsys : ∀ a, sys a ≤ 0) (hF : 0 < F) (hend : F + 2 ^ 20 < 2 ^ 63) :
    BrkAnswers g (arrayKernel h sys) where
  query hnew := by
    have hcached := hsim.cached
    have hbrk := hsim.brk
    have harray := hsim.array
    rw [libcBreak] at hbrk
    split at hbrk <;> omega
  moves a _ := by
    unfold arrayKernel
    split
    · split
      · exact Or.inl rfl
      · exact Or.inr (Or.inl (by decide))
    · exact Or.inr (Or.inl (hsys a))
  int64 a := by
    unfold arrayKernel fallbackEnd
    rw [hsim.array]
    split
    · split
      · omega
      · decide
    · have hle := hsys a
      omega

theorem RunSim.fitting (hsim : RunSim F r q) (hF : 0 < F) (hend : F + 2 ^ 20 < 2 ^ 63)
    (hop : r.Sized .refuses op) : q.Fitting (op.inArray r.heap) := by
  cases op with
  | malloc sys size => exact ⟨hsim.heap.answers hop.1 hF hend, (hop.2.sim hsim.heap).1⟩
  | calloc sys nmemb size =>
    exact ⟨hsim.heap.answers hop.1 hF hend, fun hlt => ((hop.2 hlt).sim hsim.heap).1⟩
  | realloc sys ptr size =>
    exact ⟨hsim.heap.answers hop.1 hF hend, (hop.2.1.sim hsim.heap).1, hsim.live ▸ hop.2.2⟩
  | free ptr =>
    change _ ∨ ∃ c, q.live ptr = some c
    rw [hsim.live]
    exact hop
  | store ptr i v =>
    change ∃ c, q.live ptr = some c ∧ i < c.length
    rw [hsim.live]
    exact hop

/-- What is granted to one run is granted to the other. -/
theorem RunSim.grant {h g : LibcHeap} {live : ℕ → Option (List UInt8)} {p : ℕ} {c : List UInt8}
    (hsim : FallbackSim F h g) (heq : LibcRun.grant g live p c = some q') :
    ∃ r', LibcRun.grant h live p c = some r' ∧ RunSim F r' q' := by
  unfold LibcRun.grant at heq ⊢
  by_cases hnull : p = 0
  · rw [if_pos hnull] at heq ⊢
    obtain rfl := Option.some.inj heq
    exact ⟨_, rfl, hsim, rfl⟩
  · rw [if_neg hnull] at heq ⊢
    by_cases hlive : (live p).isSome
    · rw [if_pos hlive] at heq
      cases heq
    · rw [if_neg hlive] at heq ⊢
      obtain rfl := Option.some.inj heq
      exact ⟨_, rfl, hsim, rfl⟩

/-- A step of the run with the array for a kernel is a step of the run in the array. -/
theorem RunSim.step (hsim : RunSim F r q) (hF : 0 < F) (hend : F + 2 ^ 20 < 2 ^ 63)
    (hop : r.Sized .refuses op) (heq : q.step (op.inArray r.heap) = some q') :
    ∃ r', r.step op = some r' ∧ RunSim F r' q' := by
  obtain ⟨hheap, hlive⟩ := hsim
  cases op with
  | malloc sys size =>
    obtain ⟨⟨g', p⟩, hcall, hgrant⟩ := Option.bind_eq_some_iff.mp heq
    obtain ⟨h', hcall', hsim'⟩ := hheap.malloc hop.1 hF hend hop.2 hcall
    rw [hlive, hsim'.mem] at hgrant
    rw [LibcRun.step, hcall']
    exact RunSim.grant hsim' hgrant
  | calloc sys nmemb size =>
    obtain ⟨⟨g', p⟩, hcall, hgrant⟩ := Option.bind_eq_some_iff.mp heq
    obtain ⟨h', hcall', hsim'⟩ := hheap.calloc hop.1 hF hend hop.2 hcall
    rw [hlive] at hgrant
    rw [LibcRun.step, hcall']
    exact RunSim.grant hsim' hgrant
  | realloc sys ptr size =>
    obtain ⟨⟨g', p⟩, hcall, hgrant⟩ := Option.bind_eq_some_iff.mp heq
    obtain ⟨h', hcall', hsim'⟩ := hheap.realloc hop.1 hF hend hop.2.1 hcall
    rw [hlive] at hgrant
    dsimp only at hgrant
    rw [hsim'.mem] at hgrant
    rw [LibcRun.step, hcall', Option.bind_some]
    dsimp only
    by_cases hfail : p = 0 ∧ size ≠ 0
    · rw [if_pos hfail] at hgrant ⊢
      obtain rfl := Option.some.inj hgrant
      exact ⟨_, rfl, hsim', rfl⟩
    · rw [if_neg hfail] at hgrant ⊢
      exact RunSim.grant hsim' hgrant
  | free ptr =>
    obtain ⟨g', hcall, rfl⟩ := Option.map_eq_some_iff.mp heq
    obtain ⟨h', hcall', hsim'⟩ := hheap.free hcall
    rw [LibcRun.step, hcall', hlive]
    exact ⟨_, rfl, hsim', rfl⟩
  | store ptr i v =>
    obtain rfl := Option.some.inj heq
    refine ⟨_, rfl, ?_, ?_⟩
    · rw [hheap.mem]
      exact hheap.withMem _
    · rw [hlive]

/-- The invariant: the run keeps the blocks, or in the static array a run does that has the
array for a kernel. -/
def SizesAt (F s : ℕ) : BrkKernel → LibcRun → List Block → Prop
  | .gives, r, L => LibcRunAt s r L
  | .refuses, r, L => ∃ q, RunSim F r q ∧ LibcRunAt F q L

theorem SizesAt.step (hr : SizesAt F s k r L) (hF : 0 < F) (hend : F + 2 ^ 20 < 2 ^ 63)
    (hop : r.Sized k op) : ∃ r' L', r.step op = some r' ∧ SizesAt F s k r' L' := by
  cases k with
  | gives =>
    have hfit : r.Fitting op := by
      cases op with
      | malloc sys size => exact ⟨hop.1.answers, hop.2.1⟩
      | calloc sys nmemb size => exact ⟨hop.1.answers, fun hlt => (hop.2 hlt).1⟩
      | realloc sys ptr size => exact ⟨hop.1.answers, hop.2.1.1, hop.2.2⟩
      | free ptr => exact hop
      | store ptr i v => exact hop
    obtain ⟨r', L', heq, hr', -⟩ := libc_step hr op hfit
    exact ⟨r', L', heq, hr'⟩
  | refuses =>
    obtain ⟨q, hsim, hq⟩ := hr
    obtain ⟨q', L', heq, hq', -⟩ := libc_step hq _ (hsim.fitting hF hend hop)
    obtain ⟨r', heq', hsim'⟩ := hsim.step hF hend hop heq
    exact ⟨r', L', heq', q', hsim', hq'⟩

/-- A live block lies below the break, and its header says its size. -/
theorem LibcRunAt.usable (hr : LibcRunAt s r L) {p : ℕ} {c : List UInt8} (hp : r.live p = some c)
    (hbrk : L ≠ [] → r.heap.heapBrk = r.heap.brk) : ∃ b, Usable r.heap L p c.length b := by
  obtain ⟨b, hb⟩ := hr.live p c hp
  obtain ⟨n, hn⟩ := hr.heap.holds hb.mem
  refine ⟨b, hb.mem, hb.inUse, hb.ptr, hn.size, hb.room, ?_⟩
  rw [hbrk (List.ne_nil_of_mem hb.mem)]
  exact (hr.heap.tiled.inside hb.mem).2.2

theorem SizesAt.law (hr : SizesAt F s k r L) : LibcSizeLaw k r L := by
  cases k with
  | gives =>
    refine ⟨hr.heap.tiled.sorted, fun p c hp => hr.usable hp fun hne => ?_, fun hne => ?_⟩
    · rcases hr.heap.cached with hc | ⟨-, hnil⟩
      · exact hc
      · exact absurd hnil hne
    · rcases hr.heap.cached with hc | ⟨hzero, -⟩
      · exact hc
      · exact absurd hzero hne
  | refuses =>
    obtain ⟨q, hsim, hq⟩ := hr
    have hbrk := hsim.heap.brk
    refine ⟨hq.heap.tiled.sorted, fun p c hp => ?_, fun hne => ?_⟩
    · obtain ⟨b, hb⟩ := hq.usable (hsim.live ▸ hp) fun _ => hsim.heap.cached
      obtain ⟨hmem, hused, hptr, hsize, hroom, hbelow⟩ := hb
      refine ⟨b, hmem, hused, hptr, hsim.heap.mem ▸ hsize, hroom, ?_⟩
      -- with nothing cached there is no block
      have hin := hq.heap.tiled.inside hmem
      rw [libcBreak, hsim.heap.array] at hbrk
      split at hbrk
      · omega
      · rw [hsim.heap.cached, hbrk] at hbelow
        exact hbelow
    · have hbound := hsim.heap.bound
      rw [libcBreak, if_neg hne] at hbrk
      rw [fallbackEnd, hsim.heap.array]
      omega

end Runs

/-- **The size law of the C library.** With a kernel that gives a break, or with the static
array of one that refuses: in every run whose requests each fit behind the break, every call
returns, what was requested for a live pointer is usable, and no live block is above the
break. -/
theorem libc_size_law {s F : ℕ} (k : BrkKernel) (m : Mem) (hs : 0 < s) (hlt : s < 2 ^ 63)
    (hF : 0 < F) (hend : F + 2 ^ 20 < 2 ^ 63) (ops : List LibcOp)
    (hops : Run.AllowedOption LibcRun.step (LibcRun.Sized k) (LibcRun.start s F m) ops) :
    ∃ r L, Run.runOption LibcRun.step (LibcRun.start s F m) ops = some r ∧ LibcSizeLaw k r L := by
  have hstart : SizesAt F s k (LibcRun.start s F m) [] := by
    cases k with
    | gives => exact runAt_start F m hs hlt
    | refuses =>
      have hsim : FallbackSim F ⟨0, 0, F, 0, m, s, []⟩ ⟨0, F, F, 0, m, F, []⟩ :=
        ⟨rfl, rfl, rfl, rfl, rfl, Nat.le_add_right _ _⟩
      have hlt' : F < 2 ^ 63 := by omega
      exact ⟨⟨⟨0, F, F, 0, m, F, []⟩, fun _ => none⟩, ⟨hsim, rfl⟩,
        ⟨rfl, rfl, List.isChain_nil, hF, hlt', Or.inl rfl⟩, fun p c hp => nomatch hp⟩
  obtain ⟨r, hrun, L, hr⟩ := Run.inv_runOption (I := fun r => ∃ L, SizesAt F s k r L)
    (fun r op ⟨L, hr⟩ hop => by
      obtain ⟨r', L', heq, hr'⟩ := hr.step hF hend hop
      exact ⟨r', heq, L', hr'⟩) ops _ ⟨[], hstart⟩ hops
  exact ⟨r, L, hrun, hr.law⟩

theorem libc_size_law_huge : ∃ r L,
    Run.runOption LibcRun.step (LibcRun.start 0x40000000 0x600000 fun _ => 0)
        [.malloc roomyKernel (2 ^ 63)] = some r ∧ LibcSizeLaw .gives r L :=
  libc_size_law (s := 0x40000000) (F := 0x600000) .gives (fun _ => 0) (by decide) (by decide)
    (by decide) (by decide) _
    ⟨⟨roomyKernel_replies, show 0x40000000 + (24 + (2 ^ 63 + 15) / 16 * 16) < 2 ^ 64 by decide,
      fun hk => nomatch hk⟩, fun _ _ => trivial⟩

/-- A size near 2^64 gives a block without a usable byte, and a request for 2^64 - 4096 bytes
lowers the break below the block that is live. -/
theorem libc_size_law_broken :
    (∃ r c, Run.runOption LibcRun.step (LibcRun.start 0x40000000 0x600000 fun _ => 0)
        [.malloc roomyKernel (2 ^ 64 - 1)] = some r ∧
      r.live 0x40000018 = some c ∧ c.length = 2 ^ 64 - 1 ∧ r.heap.brk = 0x40000018) ∧
    ∃ r c, Run.runOption LibcRun.step (LibcRun.start 0x40000000 0x600000 fun _ => 0)
        [.malloc roomyKernel 100, .malloc roomyKernel (2 ^ 64 - 4096)] = some r ∧
      r.live 0x40000018 = some c ∧ c.length = 100 ∧ r.heap.brk < 0x40000018 := by
  constructor
  · refine ⟨_, _, rfl, rfl, length_load _ _ _, rfl⟩
  · refine ⟨_, _, rfl, rfl, length_load _ _ _, ?_⟩
    decide

end Lestra
