import Lestra.Lib.Run
import Lestra.Libc.FreeSpec

/-!
# The C library's heap: runs

A `LibcRun` is the heap with the pointers the program holds and the bytes it has in each:
those it has stored, and before that what it was given.

* `LibcRunAt` — the blocks tile the heap, and each live pointer is that of a block in use with
  its bytes
* `libc_heap_integrity` — every run of calls and stores keeps it, and no call asks the kernel
  for memory that a free block has
-/

namespace Lestra

open Word64 ByteMem BlockList

-- ---------------------------------------------------------------------------
-- Runs
-- ---------------------------------------------------------------------------

/-- A call with the kernel's answers to it, or a store into a live block. -/
inductive LibcOp where
  | malloc (sys : ℕ → ℤ) (size : ℕ)
  | calloc (sys : ℕ → ℤ) (nmemb size : ℕ)
  | realloc (sys : ℕ → ℤ) (ptr size : ℕ)
  | free (ptr : ℕ)
  | store (ptr i : ℕ) (v : UInt8)

structure LibcRun where
  heap : LibcHeap
  live : ℕ → Option (List UInt8)

/-- The program is given `p` with the bytes `c`; null is no pointer, and `none` stands for a
pointer it holds already. -/
def LibcRun.grant (h : LibcHeap) (live : ℕ → Option (List UInt8)) (p : ℕ) (c : List UInt8) :
    Option LibcRun :=
  if p = 0 then some ⟨h, live⟩
  else if (live p).isSome then none
  else some ⟨h, Function.update live p (some c)⟩

/-- What a block of `size` bytes at `p` holds after the bytes `c` were moved there. -/
def movedBytes (m : Mem) (p : ℕ) (c : List UInt8) (size : ℕ) : List UInt8 :=
  c.take size ++ load m (p + c.length) (size - c.length)

/-- One step; `none` if the call never returns, or returns a live pointer. -/
def LibcRun.step (r : LibcRun) : LibcOp → Option LibcRun
  | .malloc sys size =>
    (malloc r.heap sys size).bind fun res => grant res.1 r.live res.2 (load res.1.mem res.2 size)
  | .calloc sys nmemb size =>
    (calloc r.heap sys nmemb size).bind fun res =>
      grant res.1 r.live res.2 (List.replicate (nmemb * size) 0)
  | .realloc sys ptr size =>
    (realloc r.heap sys ptr size).bind fun res =>
      if res.2 = 0 ∧ size ≠ 0 then some ⟨res.1, r.live⟩
      else
        grant res.1 (Function.update r.live ptr none) res.2
          (movedBytes res.1.mem res.2 ((r.live ptr).getD []) size)
  | .free ptr => (free r.heap ptr).map fun h => ⟨h, Function.update r.live ptr none⟩
  | .store ptr i v =>
    some ⟨{ r.heap with mem := ByteMem.store r.heap.mem (ptr + i) [v] },
      Function.update r.live ptr ((r.live ptr).map fun c => c.set i v)⟩

/-- The bytes that a call requests. -/
def LibcOp.request : LibcOp → ℕ
  | .malloc _ size => size
  | .calloc _ nmemb size => nmemb * size
  | .realloc _ _ size => size
  | .free _ => 0
  | .store _ _ _ => 0

/-- Only null and live pointers are given back, stores stay inside a live block, and requests
are of at most 2^62 bytes; `calloc` sees to a product that wraps. -/
def LibcRun.Allowed (r : LibcRun) : LibcOp → Prop
  | .malloc sys size => BrkReplies r.heap.brk sys ∧ size ≤ 2 ^ 62
  | .calloc sys nmemb size =>
    BrkReplies r.heap.brk sys ∧ (nmemb * size < 2 ^ 64 → nmemb * size ≤ 2 ^ 62)
  | .realloc sys ptr size =>
    BrkReplies r.heap.brk sys ∧ size ≤ 2 ^ 62 ∧ (ptr = 0 ∨ ∃ c, r.live ptr = some c)
  | .free ptr => ptr = 0 ∨ ∃ c, r.live ptr = some c
  | .store ptr i _ => ∃ c, r.live ptr = some c ∧ i < c.length

-- ---------------------------------------------------------------------------
-- The invariant
-- ---------------------------------------------------------------------------

/-- The block of a live pointer, with its bytes in memory. -/
structure LiveIn (m : Mem) (L : List Block) (p : ℕ) (c : List UInt8) (b : Block) : Prop where
  mem : b ∈ L
  inUse : b.free = false
  ptr : p = b.addr + 24
  room : c.length + 24 ≤ b.size
  bytes : load m p c.length = c

def AllLive (m : Mem) (L : List Block) (live : ℕ → Option (List UInt8)) : Prop :=
  ∀ p c, live p = some c → ∃ b, LiveIn m L p c b

structure LibcRunAt (s : ℕ) (r : LibcRun) (L : List Block) : Prop where
  heap : HeapAt s r.heap L
  live : AllLive r.heap.mem L r.live

section Live

variable {m m' : Mem} {L L' : List Block} {live : ℕ → Option (List UInt8)} {p q : ℕ}
  {c : List UInt8} {b : Block}

/-- A live block whose bytes stay, in a list that still has it. -/
theorem LiveIn.kept (h : LiveIn m L p c b) (hmem : b ∈ L')
    (hm : ∀ x, b.addr + 24 ≤ x → x < b.addr + b.size → m' x = m x) : LiveIn m' L' p c b where
  mem := hmem
  inUse := h.inUse
  ptr := h.ptr
  room := h.room
  bytes := by
    obtain ⟨-, -, rfl, hroom, hbytes⟩ := h
    rw [load_congr fun x h₁ h₂ => hm x h₁ (by omega), hbytes]

/-- A block is added to the live ones. -/
theorem AllLive.grant (h : AllLive m L live) (hg : Granted L L' b) (hk : KeepsUsed L m m')
    (hroom : c.length + 24 ≤ b.size) (hbytes : load m' (b.addr + 24) c.length = c) :
    live (b.addr + 24) = none ∧
      AllLive m' L' (Function.update live (b.addr + 24) (some c)) := by
  refine ⟨?_, fun q d hq => ?_⟩
  · by_contra hsome
    obtain ⟨d, hd⟩ := Option.ne_none_iff_exists'.mp hsome
    obtain ⟨b', hb'⟩ := h _ d hd
    have haddr := hb'.ptr
    exact hg.fresh b' hb'.mem hb'.inUse (by omega)
  · by_cases hqb : q = b.addr + 24
    · subst hqb
      obtain rfl : c = d := by simpa using hq
      exact ⟨b, (hg.used b hg.inUse).mpr (Or.inr rfl), hg.inUse, rfl, hroom, hbytes⟩
    · rw [Function.update_of_ne hqb] at hq
      obtain ⟨b', hb'⟩ := h q d hq
      exact ⟨b', hb'.kept ((hg.used b' hb'.inUse).mpr (Or.inl hb'.mem)) (hk b' hb'.mem hb'.inUse)⟩

/-- A block is no longer live. -/
theorem AllLive.drop (h : AllLive m L live) (p : ℕ) (hkept : ∀ b ∈ L, b.free = false →
      b.addr + 24 ≠ p → b ∈ L' ∧ ∀ x, b.addr + 24 ≤ x → x < b.addr + b.size → m' x = m x) :
    AllLive m' L' (Function.update live p none) := by
  intro q d hq
  by_cases hqp : q = p
  · subst hqp
    rw [Function.update_self] at hq
    cases hq
  · rw [Function.update_of_ne hqp] at hq
    obtain ⟨b, hb⟩ := h q d hq
    obtain ⟨hmem, hbytes⟩ := hkept b hb.mem hb.inUse (hb.ptr ▸ hqp)
    exact ⟨b, hb.kept hmem hbytes⟩

theorem AllLive.ptr_pos (h : AllLive m L live) : live 0 = none := by
  by_contra hsome
  obtain ⟨d, hd⟩ := Option.ne_none_iff_exists'.mp hsome
  obtain ⟨b, hb⟩ := h 0 d hd
  have hptr := hb.ptr
  omega

end Live

-- ---------------------------------------------------------------------------
-- Steps
-- ---------------------------------------------------------------------------

section Steps

variable {s size : ℕ} {r : LibcRun} {L : List Block} {sys : ℕ → ℤ}

/-- The step returns, keeps the invariant, and asks the kernel only if no free block holds
what it requests. -/
def StepDone (s : ℕ) (r : LibcRun) (L : List Block) (op : LibcOp) : Prop :=
  ∃ r' L', r.step op = some r' ∧ LibcRunAt s r' L' ∧
    (r'.heap.asked ≠ r.heap.asked → NoFit L (blockTotal op.request))

/-- The run after an allocation, whose bytes are `c`. -/
theorem grant_allocated {h h' : LibcHeap} {live : ℕ → Option (List UInt8)} {p : ℕ}
    {c : List UInt8} (hlive : AllLive h.mem L live) (halloc : Allocated s h L size h' p)
    (hlen : c.length = size) (hbytes : p ≠ 0 → load h'.mem p c.length = c) :
    ∃ r' L', LibcRun.grant h' live p c = some r' ∧ r'.heap = h' ∧ LibcRunAt s r' L' := by
  unfold LibcRun.grant
  rcases halloc with ⟨rfl, hI, hmem⟩ | ⟨L', b, rfl, hI, hg, hroom, hk⟩
  · rw [if_pos rfl]
    exact ⟨_, L, rfl, rfl, hI, hmem ▸ hlive⟩
  · obtain ⟨hnone, hlive'⟩ := hlive.grant hg hk (by omega) (hbytes (by omega))
    rw [if_neg (by omega), hnone, if_neg (by simp)]
    exact ⟨_, L', rfl, rfl, hI, hlive'⟩

theorem malloc_step (hr : LibcRunAt s r L) (hsys : BrkAnswers r.heap sys)
    (hsize : FitsBreak r.heap.brk size) : StepDone s r L (.malloc sys size) := by
  obtain ⟨h', p, heq, halloc, hask⟩ := malloc_spec hr.heap hsys hsize
  obtain ⟨r', L', hgrant, hheap, hr'⟩ := grant_allocated hr.live halloc
    (c := load h'.mem p size) (length_load _ _ _) fun _ => by rw [length_load]
  refine ⟨r', L', ?_, hr', hheap ▸ hask⟩
  rw [LibcRun.step, heq, Option.bind_some]
  exact hgrant

theorem calloc_step {nmemb : ℕ} (hr : LibcRunAt s r L) (hsys : BrkAnswers r.heap sys)
    (hsize : nmemb * size < 2 ^ 64 → FitsBreak r.heap.brk (nmemb * size)) :
    StepDone s r L (.calloc sys nmemb size) := by
  obtain ⟨h', p, heq, halloc, hzero, hask⟩ := calloc_spec hr.heap hsys hsize
  obtain ⟨r', L', hgrant, hheap, hr'⟩ := grant_allocated hr.live halloc
    (c := List.replicate (nmemb * size) 0) List.length_replicate fun hp => by
      rw [List.length_replicate]
      exact hzero hp
  refine ⟨r', L', ?_, hr', hheap ▸ hask⟩
  rw [LibcRun.step, heq, Option.bind_some]
  exact hgrant

theorem free_step {ptr : ℕ} (hr : LibcRunAt s r L) (hptr : ptr = 0 ∨ ∃ c, r.live ptr = some c) :
    StepDone s r L (.free ptr) := by
  rcases hptr with rfl | ⟨c, hc⟩
  · refine ⟨⟨r.heap, Function.update r.live 0 none⟩, L, rfl, ⟨hr.heap, ?_⟩,
      fun hne => absurd rfl hne⟩
    exact hr.live.drop 0 fun b hb _ _ => ⟨hb, fun _ _ _ => rfl⟩
  · obtain ⟨b, hb, hused, rfl, -, -⟩ := hr.live ptr c hc
    obtain ⟨h', L', heq, hI, hL', hk, hasked⟩ := free_spec hr.heap hb hused
    refine ⟨⟨h', Function.update r.live (b.addr + 24) none⟩, L', ?_, ⟨hI, ?_⟩,
      fun hne => absurd hasked hne⟩
    · rw [LibcRun.step, heq, Option.map_some]
    · refine hr.live.drop _ fun d hd hdused hne => ⟨?_, hk d hd hdused⟩
      exact (hL' d hdused).mpr ⟨hd, fun heq => hne (by rw [heq])⟩

/-- A byte is stored in a live block. -/
theorem AllLive.store {live : ℕ → Option (List UInt8)} {m : Mem} {e i : ℕ} {b : Block}
    {c : List UInt8} (h : AllLive m L live) (hT : Tiled 24 s L e) (hb : LiveIn m L (b.addr + 24) c b)
    (hi : i < c.length) (v : UInt8) :
    AllLive (ByteMem.store m (b.addr + 24 + i) [v]) L
      (Function.update live (b.addr + 24) (some (c.set i v))) := by
  have hroom := hb.room
  intro q d hq
  by_cases hqb : q = b.addr + 24
  · subst hqb
    obtain rfl : c.set i v = d := by simpa using hq
    refine ⟨b, hb.mem, hb.inUse, rfl, by simpa using hroom, ?_⟩
    refine List.ext_getElem (by simp) fun j h₁ h₂ => ?_
    have hj : j < c.length := by simpa using h₂
    have hold : m (b.addr + 24 + j) = c.get ⟨j, hj⟩ := by
      have hget := List.getElem_of_eq hb.bytes (by simpa using hj : j < _)
      simpa [load] using hget
    simp only [load, List.getElem_map, List.getElem_range, List.getElem_set]
    by_cases hij : i = j
    · subst hij
      rw [if_pos rfl]
      exact store_at (i := 0) (by simp)
    · rw [if_neg hij, store_out (by simp; omega)]
      exact hold
  · rw [Function.update_of_ne hqb] at hq
    obtain ⟨b', hb'⟩ := h q d hq
    have hne : b' ≠ b := fun heq => hqb (by rw [hb'.ptr, heq])
    have hapart := hT.apart hb'.mem hb.mem hne
    refine ⟨b', hb'.kept hb'.mem fun x h₁ h₂ => store_out ?_⟩
    simp only [List.length_singleton]
    omega

theorem store_step {ptr i : ℕ} {v : UInt8} (hr : LibcRunAt s r L)
    (hptr : ∃ c, r.live ptr = some c ∧ i < c.length) : StepDone s r L (.store ptr i v) := by
  obtain ⟨c, hc, hi⟩ := hptr
  obtain ⟨b, hb⟩ := hr.live ptr c hc
  obtain rfl := hb.ptr
  have hroom := hb.room
  refine ⟨⟨{ r.heap with mem := ByteMem.store r.heap.mem (b.addr + 24 + i) [v] },
    Function.update r.live (b.addr + 24) (some (c.set i v))⟩, L,
    by rw [LibcRun.step, hc, Option.map_some], ⟨?_, ?_⟩, fun hne => absurd rfl hne⟩
  · exact hr.heap.storeData hb.mem (by omega) (by simp; omega)
  · exact hr.live.store hr.heap.tiled hb hi v

/-- The prefix of the data that fits both blocks. -/
theorem Resized.kept_bytes {h h' : LibcHeap} {L' : List Block} {b b' : Block} {c : List UInt8}
    (h₁ : Resized s h L b size h' L' b') (hb : LiveIn h.mem L (b.addr + 24) c b) {k : ℕ}
    (hk : k ≤ c.length) (hks : k ≤ size) : load h'.mem (b'.addr + 24) k = c.take k := by
  have hroom := hb.room
  have hsame : load h'.mem (b'.addr + 24) k = load h.mem (b.addr + 24) k := by
    refine List.map_congr_left fun i hi => h₁.data i ?_ ?_
    · have := List.mem_range.mp hi
      omega
    · have := List.mem_range.mp hi
      omega
  rw [hsame, ← load_take hk, hb.bytes]

theorem Resized.bytes {h h' : LibcHeap} {L' : List Block} {b b' : Block} {c : List UInt8}
    (h₁ : Resized s h L b size h' L' b') (hb : LiveIn h.mem L (b.addr + 24) c b) :
    load h'.mem (b'.addr + 24) size = movedBytes h'.mem (b'.addr + 24) c size := by
  unfold movedBytes
  rcases Nat.le_total c.length size with hle | hle
  · have hprefix := h₁.kept_bytes hb le_rfl hle
    obtain ⟨k, rfl⟩ := Nat.exists_eq_add_of_le hle
    rw [load_append, hprefix, List.take_of_length_le le_rfl, List.take_of_length_le hle,
      Nat.add_sub_cancel_left]
  · rw [h₁.kept_bytes hb hle le_rfl, Nat.sub_eq_zero_of_le hle]
    simp [load]

theorem length_movedBytes (m : Mem) (p : ℕ) (c : List UInt8) (size : ℕ) :
    (movedBytes m p c size).length = size := by
  simp only [movedBytes, List.length_append, List.length_take, length_load]
  omega

/-- A block that was live is resized. -/
theorem AllLive.resized {h h' : LibcHeap} {live : ℕ → Option (List UInt8)} {L' : List Block}
    {b b' : Block} {c : List UInt8} (hlive : AllLive h.mem L live)
    (hb : LiveIn h.mem L (b.addr + 24) c b) (hres : Resized s h L b size h' L' b') :
    Function.update live (b.addr + 24) none (b'.addr + 24) = none ∧
      AllLive h'.mem L' (Function.update (Function.update live (b.addr + 24) none) (b'.addr + 24)
        (some (movedBytes h'.mem (b'.addr + 24) c size))) := by
  refine ⟨?_, fun q d hq => ?_⟩
  · by_cases haddr : b'.addr + 24 = b.addr + 24
    · rw [haddr, Function.update_self]
    · rw [Function.update_of_ne haddr]
      by_contra hsome
      obtain ⟨d, hd⟩ := Option.ne_none_iff_exists'.mp hsome
      obtain ⟨b₂, hb₂⟩ := hlive _ d hd
      have hptr := hb₂.ptr
      have hne : b₂ ≠ b := by
        rintro rfl
        exact haddr hptr
      exact hres.fresh b₂ hb₂.mem hb₂.inUse hne (by omega)
  · by_cases hqb : q = b'.addr + 24
    · subst hqb
      rw [Function.update_self, Option.some.injEq] at hq
      subst hq
      refine ⟨b', (hres.used b' hres.inUse).mpr (Or.inr rfl), hres.inUse, rfl, ?_, ?_⟩
      · rw [length_movedBytes]
        exact hres.room
      · rw [length_movedBytes]
        exact hres.bytes hb
    · rw [Function.update_of_ne hqb] at hq
      by_cases hqo : q = b.addr + 24
      · subst hqo
        rw [Function.update_self] at hq
        cases hq
      · rw [Function.update_of_ne hqo] at hq
        obtain ⟨b₂, hb₂⟩ := hlive q d hq
        have hne : b₂ ≠ b := fun heq => hqo (by rw [hb₂.ptr, heq])
        exact ⟨b₂, hb₂.kept ((hres.used b₂ hb₂.inUse).mpr (Or.inl ⟨hb₂.mem, hne⟩))
          (hres.others b₂ hb₂.mem hb₂.inUse hne)⟩

theorem realloc_step {ptr : ℕ} (hr : LibcRunAt s r L) (hsys : BrkAnswers r.heap sys)
    (hsize : FitsBreak r.heap.brk size) (hptr : ptr = 0 ∨ ∃ c, r.live ptr = some c) :
    StepDone s r L (.realloc sys ptr size) := by
  rcases hptr with rfl | ⟨c, hc⟩
  · obtain ⟨h', p, heq, halloc, hask⟩ := malloc_spec hr.heap hsys hsize
    have hnull := hr.live.ptr_pos
    have hrealloc : realloc r.heap sys 0 size = some (h', p) := by rw [realloc, if_pos rfl, heq]
    have hbytes : movedBytes h'.mem p [] size = load h'.mem p size := by simp [movedBytes]
    have hdrop : Function.update r.live 0 none = r.live := by
      rw [← hnull, Function.update_eq_self]
    unfold StepDone
    rw [LibcRun.step, hrealloc, Option.bind_some]
    dsimp only
    rw [hnull, Option.getD_none, hbytes, hdrop]
    by_cases hfail : p = 0 ∧ size ≠ 0
    · rw [if_pos hfail]
      rcases halloc with ⟨-, hI, hmem⟩ | ⟨L', b, hp, -⟩
      · exact ⟨_, L, rfl, ⟨hI, hmem ▸ hr.live⟩, hask⟩
      · omega
    · rw [if_neg hfail]
      obtain ⟨r', L', hgrant, hheap, hr'⟩ := grant_allocated hr.live halloc
        (c := load h'.mem p size) (length_load _ _ _) fun _ => by rw [length_load]
      exact ⟨r', L', hgrant, hr', hheap ▸ hask⟩
  · obtain ⟨b, hb⟩ := hr.live ptr c hc
    obtain rfl := hb.ptr
    by_cases hzero : size = 0
    · subst hzero
      obtain ⟨r', L', heq, hr', hask⟩ := free_step hr (Or.inr ⟨c, hc⟩)
      obtain ⟨h', hfree, rfl⟩ := Option.map_eq_some_iff.mp heq
      refine ⟨_, L', ?_, hr', hask⟩
      rw [LibcRun.step, realloc, if_neg (by omega), if_pos rfl, hfree]
      rfl
    · obtain ⟨h', p, heq, hres, hask⟩ :=
        realloc_spec hr.heap hsys hb.mem hb.inUse (Nat.pos_of_ne_zero hzero) hsize
      unfold StepDone
      rw [LibcRun.step, heq, Option.bind_some]
      dsimp only
      rcases hres with ⟨rfl, hI, hmem⟩ | ⟨L', b', rfl, hres⟩
      · rw [if_pos ⟨rfl, hzero⟩]
        exact ⟨_, L, rfl, ⟨hI, hmem ▸ hr.live⟩, hask⟩
      · obtain ⟨hnone, hlive⟩ := hr.live.resized hb hres
        rw [if_neg fun hno => by omega, hc, Option.getD_some, LibcRun.grant, if_neg (by omega),
          hnone, if_neg (by simp)]
        exact ⟨_, L', rfl, ⟨hres.heap, hlive⟩, hask⟩

end Steps

/-- The condition of a step when sizes are bounded by the room behind the break. -/
def LibcRun.Fitting (r : LibcRun) : LibcOp → Prop
  | .malloc sys size => BrkAnswers r.heap sys ∧ FitsBreak r.heap.brk size
  | .calloc sys nmemb size =>
    BrkAnswers r.heap sys ∧ (nmemb * size < 2 ^ 64 → FitsBreak r.heap.brk (nmemb * size))
  | .realloc sys ptr size =>
    BrkAnswers r.heap sys ∧ FitsBreak r.heap.brk size ∧ (ptr = 0 ∨ ∃ c, r.live ptr = some c)
  | .free ptr => ptr = 0 ∨ ∃ c, r.live ptr = some c
  | .store ptr i _ => ∃ c, r.live ptr = some c ∧ i < c.length

theorem LibcRun.Allowed.fitting {r : LibcRun} {op : LibcOp} (hbrk : r.heap.brk < 2 ^ 63)
    (hop : r.Allowed op) : r.Fitting op := by
  cases op with
  | malloc sys size => exact ⟨hop.1.answers, fitsBreak_of_le hbrk hop.2⟩
  | calloc sys nmemb size => exact ⟨hop.1.answers, fun hlt => fitsBreak_of_le hbrk (hop.2 hlt)⟩
  | realloc sys ptr size => exact ⟨hop.1.answers, fitsBreak_of_le hbrk hop.2.1, hop.2.2⟩
  | free ptr => exact hop
  | store ptr i v => exact hop

theorem libc_step {s : ℕ} {r : LibcRun} {L : List Block} (hr : LibcRunAt s r L) (op : LibcOp)
    (hop : r.Fitting op) : StepDone s r L op := by
  cases op with
  | malloc sys size => exact malloc_step hr hop.1 hop.2
  | calloc sys nmemb size => exact calloc_step hr hop.1 hop.2
  | realloc sys ptr size => exact realloc_step hr hop.1 hop.2.1 hop.2.2
  | free ptr => exact free_step hr hop
  | store ptr i v => exact store_step hr hop

-- ---------------------------------------------------------------------------
-- Integrity
-- ---------------------------------------------------------------------------

/-- The block list from the first break `s` to the current one, and the live blocks in it. -/
structure LibcIntegrity (s : ℕ) (r : LibcRun) (L : List Block) : Prop where
  linked : Linked r.heap.mem r.heap.freeList L 0
  increasing : L.Pairwise fun b c => b.addr < c.addr
  tiled : Tiled 24 s L r.heap.brk
  cached : r.heap.heapBrk = r.heap.brk ∨ r.heap.heapBrk = 0 ∧ L = []
  merged : Merged L
  inUse : ∀ p c, r.live p = some c →
    ∃ b ∈ L, b.free = false ∧ p = b.addr + 24 ∧ p + c.length ≤ b.addr + b.size
  disjoint : ∀ p c q d, r.live p = some c → r.live q = some d → p ≠ q →
    p + c.length ≤ q ∨ q + d.length ≤ p
  contents : ∀ p c, r.live p = some c → load r.heap.mem p c.length = c

theorem LibcRunAt.integrity {s : ℕ} {r : LibcRun} {L : List Block} (h : LibcRunAt s r L) :
    LibcIntegrity s r L where
  linked := h.heap.linked
  increasing := by
    refine h.heap.tiled.sorted.imp_of_mem fun {b c} hb _ hbc => ?_
    have hb24 := (h.heap.inside hb).2.1
    omega
  tiled := h.heap.tiled
  cached := h.heap.cached
  merged := h.heap.merged
  inUse p c hp := by
    obtain ⟨b, hb, hused, rfl, hroom, -⟩ := h.live p c hp
    exact ⟨b, hb, hused, rfl, by omega⟩
  disjoint p c q d hp hq hpq := by
    obtain ⟨b, hb, -, rfl, hbroom, -⟩ := h.live p c hp
    obtain ⟨b', hb', -, rfl, hb'room, -⟩ := h.live q d hq
    have hne : b ≠ b' := fun heq => hpq (by rw [heq])
    have hapart := h.heap.tiled.apart hb hb' hne
    omega
  contents p c hp := by
    obtain ⟨b, hb⟩ := h.live p c hp
    exact hb.bytes

/-- The state before the first call: no block, no cached break, and the kernel's break at
`s`. -/
def LibcRun.start (s fallbackHeap : ℕ) (m : Mem) : LibcRun :=
  ⟨⟨0, 0, fallbackHeap, 0, m, s, []⟩, fun _ => none⟩

theorem runAt_start {s : ℕ} (fallbackHeap : ℕ) (m : Mem) (hs : 0 < s) (hlt : s < 2 ^ 63) :
    LibcRunAt s (LibcRun.start s fallbackHeap m) [] where
  heap := ⟨rfl, rfl, List.isChain_nil, hs, hlt, Or.inr ⟨rfl, rfl⟩⟩
  live p c hp := by cases hp

/-- **Integrity of the C library's heap.** From a positive break, every run of `malloc`,
`calloc`, `realloc` and `free` with the program's stores in between returns, whatever requests
for memory the kernel grants. The blocks tile the heap in list order, no two neighbours are
free, the live blocks are disjoint and hold their bytes, and the next call asks the kernel only
if no free block holds what it requests. -/
theorem libc_heap_integrity {s : ℕ} (fallbackHeap : ℕ) (m : Mem) (hs : 0 < s) (hlt : s < 2 ^ 63)
    (ops : List LibcOp) (hops : Run.AllowedOption LibcRun.step LibcRun.Allowed
      (LibcRun.start s fallbackHeap m) ops) :
    ∃ r L, Run.runOption LibcRun.step (LibcRun.start s fallbackHeap m) ops = some r ∧
      LibcIntegrity s r L ∧
      ∀ op, r.Allowed op → ∃ r', r.step op = some r' ∧
        (r'.heap.asked ≠ r.heap.asked → NoFit L (blockTotal op.request)) := by
  obtain ⟨r, hrun, L, hr⟩ := Run.inv_runOption (I := fun r => ∃ L, LibcRunAt s r L)
    (fun r op ⟨L, hr⟩ hop => by
      obtain ⟨r', L', heq, hr', -⟩ := libc_step hr op (hop.fitting hr.heap.brk_lt)
      exact ⟨r', heq, L', hr'⟩) ops _ ⟨[], runAt_start fallbackHeap m hs hlt⟩ hops
  refine ⟨r, L, hrun, hr.integrity, fun op hop => ?_⟩
  obtain ⟨r', L', heq, -, hask⟩ := libc_step hr op (hop.fitting hr.heap.brk_lt)
  exact ⟨r', heq, hask⟩

/-- A kernel whose break is at 1 GB and that grants every address below 2^47. -/
def roomyKernel (a : ℕ) : ℤ := if a = 0 then 0x40000000 else if a < 2 ^ 47 then a else -12

theorem roomyKernel_replies : BrkReplies 0x40000000 roomyKernel where
  query := rfl
  moves a ha := by
    rw [roomyKernel, if_neg ha]
    split
    · exact Or.inl rfl
    · exact Or.inr (Or.inl (by decide))
  int64 a := by
    unfold roomyKernel
    split
    · decide
    · split
      · omega
      · decide

theorem libc_heap_one_block : ∃ r L,
    Run.runOption LibcRun.step (LibcRun.start 0x40000000 0x600000 fun _ => 0)
        [.malloc roomyKernel 100] = some r ∧ LibcIntegrity 0x40000000 r L := by
  obtain ⟨r, L, hrun, hint, -⟩ := libc_heap_integrity (s := 0x40000000) 0x600000 (fun _ => 0)
    (by decide) (by decide) [.malloc roomyKernel 100]
    ⟨⟨roomyKernel_replies, by decide⟩, fun _ _ => trivial⟩
  exact ⟨r, L, hrun, hint⟩

end Lestra
