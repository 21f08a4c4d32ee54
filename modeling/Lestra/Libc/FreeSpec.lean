import Lestra.Libc.MallocSpec

/-!
# The C library's heap: giving a block back

`free` marks the block, merges the free block behind it into it, and then merges it into the
free block before it; `realloc` grows a block over the free block behind it, or moves it.
-/

namespace Lestra

open Word64 ByteMem BlockList

-- ---------------------------------------------------------------------------
-- Merging
-- ---------------------------------------------------------------------------

section Merge

variable {m : Mem} {s e fl : ℕ} {pre post : List Block} {b c : Block}

theorem merge_tiled (a z : ℕ) (h : Tiled 24 a [b, c] z) : Tiled 24 a [merge b c] z := by
  obtain ⟨rfl, hb, hc, hsize, rfl⟩ := h
  refine ⟨rfl, ?_, ?_⟩
  · change 24 ≤ b.size + c.size
    omega
  · change b.addr + (b.size + c.size) = b.addr + b.size + c.size
    omega

/-- The block behind another starts at its end. -/
theorem tiled_next (h : Tiled 24 s (pre ++ b :: c :: post) e) :
    c.addr = b.addr + b.size ∧ 24 ≤ b.size ∧ c.addr + c.size ≤ e := by
  obtain ⟨-, hsize, hrest⟩ := h.middle
  have hc := h.inside (b := c) (by simp)
  exact ⟨hrest.1, hsize, hc.2.2⟩

/-- A block absorbs the one behind it. -/
theorem absorb_spec (hL : Linked m fl (pre ++ b :: c :: post) 0)
    (hT : Tiled 24 s (pre ++ b :: c :: post) e) (he : e < 2 ^ 63) :
    Linked (absorb m b.addr c.addr) fl (pre ++ merge b c :: post) 0 ∧
      Tiled 24 s (pre ++ merge b c :: post) e ∧
      SameOutside m (absorb m b.addr c.addr) b.addr (b.addr + 24) := by
  obtain ⟨hnext, hsize, hend⟩ := tiled_next hT
  have hsame := sameOutside_absorb m b.addr c.addr
  refine ⟨?_, Tiled.edit [b, c] [merge b c] hT merge_tiled, hsame⟩
  refine Linked.edit [b, c] [merge b c] hL hsame (fun d hd => ?_) (fun d hd => ?_)
    fun a n hn => absorb_linked hn (by omega) (by omega)
  · have hbefore := hT.around.1 d hd
    have hd24 := (hT.inside (b := d) (by simp [hd])).2.1
    omega
  · have hbehind := hT.around.2 d (by simp [hd])
    omega

end Merge

-- ---------------------------------------------------------------------------
-- free
-- ---------------------------------------------------------------------------

section Free

variable {m : Mem} {s e fl : ℕ} {L pre post : List Block} {b c : Block} {h : LibcHeap}

/-- The list when `free` has marked the block and merged what is behind it: only the block
before may be a free neighbour. -/
structure Forward (m' : Mem) (s e fl : ℕ) (pre post : List Block) (b' : Block)
    (post' : List Block) : Prop where
  linked : Linked m' fl (pre ++ b' :: post') 0
  tiled : Tiled 24 s (pre ++ b' :: post') e
  free : b'.free = true
  behind : ∀ c ∈ post'.head?, NotBothFree b' c
  merged : Merged post'
  used : ∀ c, c.free = false → (c ∈ post' ↔ c ∈ post)

theorem markFree_linked (hL : Linked m fl (pre ++ b :: post) 0)
    (hT : Tiled 24 s (pre ++ b :: post) e) :
    Linked (setFree m b.addr 1) fl (pre ++ { b with free := true } :: post) 0 := by
  have hsame : SameOutside m (setFree m b.addr 1) b.addr (b.addr + 24) :=
    sameOutside_setFree _ _ le_rfl le_rfl
  refine Linked.edit [b] [{ b with free := true }] hL hsame (fun d hd => ?_)
    (fun d hd => ?_) fun a n hn => ?_
  · have hbefore := hT.around.1 d hd
    have hd24 := (hT.inside (b := d) (by simp [hd])).2.1
    omega
  · have hbehind := hT.around.2 d hd
    have hb24 := (hT.inside (b := b) (by simp)).2.1
    omega
  · obtain ⟨rfl, hb⟩ := linked_one.mp hn
    exact linked_one.mpr ⟨rfl, hb.setFree true⟩

theorem freeForward_spec (hL : Linked m fl (pre ++ b :: post) 0)
    (hT : Tiled 24 s (pre ++ b :: post) e) (hM : Merged (pre ++ b :: post)) (hs : 0 < s)
    (he : e < 2 ^ 63) :
    SameOutside m (freeForward m b.addr) b.addr (b.addr + 24) ∧
      ∃ b' post', b'.addr = b.addr ∧ Forward (freeForward m b.addr) s e fl pre post b' post' := by
  have hmark := markFree_linked hL hT
  have hTmark : Tiled 24 s (pre ++ { b with free := true } :: post) e :=
    Tiled.edit [b] [{ b with free := true }] hT fun a z hz => hz
  have hsame : SameOutside m (setFree m b.addr 1) b.addr (b.addr + 24) :=
    sameOutside_setFree _ _ le_rfl le_rfl
  obtain ⟨-, -, -, hpost⟩ := merged_middle.mp hM
  obtain ⟨-, n, hb, hrest⟩ := linked_middle.mp hmark
  unfold freeForward
  dsimp only
  have hnext : getNext (setFree m b.addr 1) b.addr = n := hb.next
  have hsize : getSize (setFree m b.addr 1) b.addr = b.size := hb.size
  rw [hnext]
  cases post with
  | nil =>
    obtain rfl : n = 0 := hrest
    rw [if_neg (by simp)]
    exact ⟨hsame, { b with free := true }, [], rfl, hmark, hTmark, rfl, by simp, hpost, fun _ _ => Iff.rfl⟩
  | cons c post =>
    obtain ⟨rfl, n', hc, -⟩ := hrest
    have hcin := hT.inside (b := c) (by simp)
    have hadj := (tiled_next hT).1
    by_cases hfree : c.free = true
    · rw [if_pos ⟨by omega, hc.free.mpr hfree, by rw [hsize]; exact hadj⟩]
      obtain ⟨hL', hT', hsame'⟩ := absorb_spec hmark hTmark he
      have hM' := (merged_middle (p := [])).mp hpost
      refine ⟨hsame.trans hsame', merge { b with free := true } c, post, rfl, hL', hT', rfl, fun d hd hboth => ?_, hM'.2.2.2,
        fun d hd => ?_⟩
      · exact hM'.2.2.1 d hd ⟨hfree, hboth.2⟩
      · have hdc : d ≠ c := by
          rintro rfl
          rw [hfree] at hd
          cases hd
        simp [hdc]
    · rw [if_neg fun hno => hfree (hc.free.mp hno.2.1)]
      refine ⟨hsame, { b with free := true }, c :: post, rfl, hmark, hTmark, rfl, fun d hd hboth => ?_, hpost,
        fun _ _ => Iff.rfl⟩
      obtain rfl : c = d := by simpa using hd
      exact hfree hboth.2

/-- **`free`.** The call returns, and the blocks in use are the others. -/
theorem free_spec (hI : HeapAt s h L) (hb : b ∈ L) (hused : b.free = false) :
    ∃ h' L', free h (b.addr + 24) = some h' ∧ HeapAt s h' L' ∧
      (∀ c, c.free = false → (c ∈ L' ↔ c ∈ L ∧ c ≠ b)) ∧ KeepsUsed L h.mem h'.mem ∧
      h'.asked = h.asked := by
  obtain ⟨pre, post, rfl⟩ := List.append_of_mem hb
  obtain ⟨hpre, hprev, -, -⟩ := merged_middle.mp hI.merged
  obtain ⟨hsame, b', post', haddr, hF⟩ :=
    freeForward_spec hI.linked hI.tiled hI.merged hI.pos hI.brk_lt
  have hfind : findPred (freeForward h.mem b.addr) b.addr (2 ^ 64) 0 h.freeList =
      some (lastAddr 0 pre) := by
    have hlen := hI.length_lt
    have hwalk := @findPred_spec _ _ _ _ _ 0 (2 ^ 64) hF.linked (fun c hc => ?_) ?_
    · rwa [haddr] at hwalk
    · have hbefore := hF.tiled.around.1 c hc
      have hin := hI.inside (b := c) (by simp [hc])
      omega
    · simp only [List.length_append] at hlen
      omega
  have hnotused : ∀ c, c.free = false → c ≠ b' := by
    rintro c hc rfl
    rw [hF.free] at hc
    cases hc
  -- a block equal to the freed one is neither before nor behind it
  have hself : ∀ c, c ∈ pre ∨ c ∈ post → c ≠ b := by
    rintro c hc rfl
    have hin := hI.inside (b := c) (by simp)
    rcases hc with hc | hc
    · have := hI.tiled.around.1 c hc
      omega
    · have := hI.tiled.around.2 c hc
      omega
  have hkeeps := keepsUsed_header hI.tiled (b := b) (by simp) hsame
  have hblock : b.addr + 24 - blockHeader = b.addr := Nat.add_sub_cancel b.addr 24
  unfold free
  rw [if_neg (by omega)]
  dsimp only
  rw [hblock, hfind]
  dsimp only
  generalize freeForward h.mem b.addr = m' at hF hkeeps ⊢
  rcases List.eq_nil_or_concat pre with rfl | ⟨pre, p, rfl⟩
  · rw [if_neg (by simp [lastAddr])]
    refine ⟨_, b' :: post', rfl, hI.withMem (b := b) (by simp) hF.linked hF.tiled ?_,
      fun c hc => ?_, hkeeps, rfl⟩
    · exact (merged_middle (p := [])).mpr ⟨hpre, by simp, hF.behind, hF.merged⟩
    · have hne := hself c
      have hne' := hnotused c hc
      simp only [List.mem_cons, List.nil_append, hF.used c hc]
      tauto
  · rw [List.concat_eq_append] at *
    have hassoc : pre ++ [p] ++ b' :: post' = pre ++ p :: b' :: post' := by simp
    rw [lastAddr_append]
    have hL := hF.linked
    have hT := hF.tiled
    rw [hassoc] at hL hT
    obtain ⟨-, n, hp, -⟩ := linked_middle.mp hL
    have hadj := (tiled_next hT).1
    have hpin := hI.inside (b := p) (by simp)
    obtain ⟨hpre', hprev', -, -⟩ := merged_middle.mp hpre
    by_cases hfree : p.free = true
    · rw [if_pos ⟨hpin.1, hp.free.mpr hfree, by rw [hp.size]; omega⟩]
      obtain ⟨hL', hT', hsame'⟩ := absorb_spec hL hT hI.brk_lt
      rw [haddr] at hL' hsame'
      have hkeeps' := hkeeps.trans (keepsUsed_header hI.tiled (b := p) (by simp) hsame')
      generalize absorb m' p.addr b.addr = m'' at hL' hkeeps' ⊢
      refine ⟨_, pre ++ merge p b' :: post', rfl, hI.withMem (b := b) (by simp) hL' hT' ?_,
        fun c hc => ?_, hkeeps', rfl⟩
      · refine merged_middle.mpr ⟨hpre', hprev', fun c hc hboth => ?_, hF.merged⟩
        exact hF.behind c hc ⟨hF.free, hboth.2⟩
      · have hcm : c ≠ merge p b' := by
          rintro rfl
          exact Bool.noConfusion (hfree.symm.trans hc)
        have hcp : c ≠ p := by
          rintro rfl
          exact Bool.noConfusion (hfree.symm.trans hc)
        have hne := hself c
        simp only [List.mem_append, List.mem_cons, List.not_mem_nil, or_false, hF.used c hc, hcm,
          hcp, false_or] at hne ⊢
        tauto
    · rw [if_neg fun hno => hfree (hp.free.mp hno.2.1)]
      refine ⟨_, pre ++ [p] ++ b' :: post', rfl,
        hI.withMem (b := b) (by simp) hF.linked hF.tiled ?_, fun c hc => ?_, hkeeps, rfl⟩
      · refine merged_middle.mpr ⟨hpre, fun c hc hboth => ?_, hF.behind, hF.merged⟩
        obtain rfl : p = c := by simpa using hc
        exact hfree hboth.1
      · have hne := hself c
        have hne' := hnotused c hc
        simp only [List.mem_append, List.mem_cons, hF.used c hc] at hne ⊢
        tauto

end Free

-- ---------------------------------------------------------------------------
-- realloc
-- ---------------------------------------------------------------------------

section Realloc

variable {s size : ℕ} {h : LibcHeap} {L pre post : List Block} {b c : Block} {sys : ℕ → ℤ}

/-- The block `b` is now `b'`: the other blocks in use keep their bytes, and the new block
starts with those of the old one. -/
structure Resized (s : ℕ) (h : LibcHeap) (L : List Block) (b : Block) (size : ℕ) (h' : LibcHeap)
    (L' : List Block) (b' : Block) : Prop where
  heap : HeapAt s h' L'
  inUse : b'.free = false
  room : size + 24 ≤ b'.size
  used : ∀ c, c.free = false → (c ∈ L' ↔ c ∈ L ∧ c ≠ b ∨ c = b')
  fresh : ∀ c ∈ L, c.free = false → c ≠ b → c.addr ≠ b'.addr
  others : ∀ c ∈ L, c.free = false → c ≠ b → ∀ x, c.addr + 24 ≤ x → x < c.addr + c.size →
    h'.mem x = h.mem x
  data : ∀ i, i + 24 < b.size → i < size → h'.mem (b'.addr + 24 + i) = h.mem (b.addr + 24 + i)

/-- Two blocks of the list with one address are one. -/
theorem HeapAt.eq_of_addr (hI : HeapAt s h L) (hb : b ∈ L) (hc : c ∈ L) (haddr : c.addr = b.addr) :
    c = b := by
  by_contra hne
  have hapart := hI.tiled.apart hc hb hne
  have hb24 := (hI.inside hb).2.1
  have hc24 := (hI.inside hc).2.1
  omega

/-- The header of a block in memory. -/
theorem HeapAt.holds (hI : HeapAt s h L) (hb : b ∈ L) : ∃ n, Holds h.mem b n := by
  obtain ⟨pre, post, rfl⟩ := List.append_of_mem hb
  obtain ⟨-, n, hn, -⟩ := linked_middle.mp hI.linked
  exact ⟨n, hn⟩

/-- The block stays where it is. -/
theorem HeapAt.resized_self (hI : HeapAt s h L) (hb : b ∈ L) (hused : b.free = false)
    (hroom : size + 24 ≤ b.size) : Resized s h L b size h L b where
  heap := hI
  inUse := hused
  room := hroom
  used c _ := by
    by_cases hcb : c = b
    · subst hcb
      simp [hb]
    · simp [hcb]
  fresh c hc _ hne haddr := hne (hI.eq_of_addr hb hc haddr)
  others _ _ _ _ _ _ _ := rfl
  data _ _ _ := rfl

/-- The block grows over the free one behind it. -/
theorem HeapAt.resized_grown (hI : HeapAt s h (pre ++ b :: c :: post)) (hused : b.free = false)
    (hfree : c.free = true) (hroom : size + 24 ≤ b.size + c.size) :
    Resized s h (pre ++ b :: c :: post) b size { h with mem := absorb h.mem b.addr c.addr }
      (pre ++ merge b c :: post) (merge b c) := by
  obtain ⟨hL', hT', hsame⟩ := absorb_spec hI.linked hI.tiled hI.brk_lt
  obtain ⟨hpre, hprev, -, hrest⟩ := merged_middle.mp hI.merged
  obtain ⟨-, -, -, hpost⟩ := (merged_middle (p := [])).mp hrest
  have hkeeps := keepsUsed_header hI.tiled (b := b) (by simp) hsame
  have hc : c ∈ pre ++ b :: c :: post := by simp
  have hnotc : ∀ d, d.free = false → d ≠ c := by
    rintro d hd rfl
    exact Bool.noConfusion (hfree.symm.trans hd)
  generalize absorb h.mem b.addr c.addr = m' at hL' hsame hkeeps ⊢
  refine ⟨hI.withMem hc hL' hT' ?_, hused, hroom, fun d hd => ?_, fun d hd _ hne haddr => ?_,
    fun d hd hdused _ => hkeeps d hd hdused, fun i _ _ => ?_⟩
  · refine merged_middle.mpr ⟨hpre, fun d _ hboth => ?_, fun d _ hboth => ?_, hpost⟩
    · exact Bool.noConfusion (hused.symm.trans hboth.2)
    · exact Bool.noConfusion (hused.symm.trans hboth.1)
  · have hself : ∀ d, d ∈ pre ∨ d ∈ post → d ≠ b := by
      rintro d hd rfl
      have hin := hI.inside (b := d) (by simp)
      rcases hd with hd | hd
      · have := hI.tiled.around.1 d hd
        omega
      · have := hI.tiled.around.2 d (by simp [hd])
        omega
    have hne := hself d
    have hdc := hnotc d hd
    simp only [List.mem_append, List.mem_cons, hdc, false_or]
    tauto
  · exact hne (hI.eq_of_addr (b := b) (by simp) hd haddr)
  · exact hsame _ (Or.inr (by
      change b.addr + 24 ≤ b.addr + 24 + i
      omega))

/-- The bytes are copied to a block just handed out, and the old one is freed. -/
theorem HeapAt.resized_copy (hb : b ∈ L) (hused : b.free = false)
    {h₁ : LibcHeap} {L₁ : List Block} (hI₁ : HeapAt s h₁ L₁) (hg : Granted L L₁ c)
    (hroom : size + 24 ≤ c.size) (hkeeps : KeepsUsed L h.mem h₁.mem) :
    ∃ h' L', free { h₁ with
        mem := copy h₁.mem (c.addr + 24) (b.addr + 24) (min (b.size - 24) size) } (b.addr + 24)
          = some h' ∧
      Resized s h L b size h' L' c ∧ h'.asked = h₁.asked := by
  have hc₁ : c ∈ L₁ := (hg.used c hg.inUse).mpr (Or.inr rfl)
  have hb₁ : b ∈ L₁ := (hg.used b hused).mpr (Or.inl hb)
  have hbc : b ≠ c := fun heq => hg.fresh b hb hused (by rw [heq])
  have hlen := length_load h₁.mem (b.addr + 24) (min (b.size - 24) size)
  have hin : c.addr + 24 + (load h₁.mem (b.addr + 24) (min (b.size - 24) size)).length ≤
      c.addr + c.size := by omega
  have hcopy := hI₁.storeData hc₁ le_rfl hin
  change HeapAt s { h₁ with
    mem := copy h₁.mem (c.addr + 24) (b.addr + 24) (min (b.size - 24) size) } L₁ at hcopy
  have hcopied : ∀ i, i + 24 < b.size → i < size →
      copy h₁.mem (c.addr + 24) (b.addr + 24) (min (b.size - 24) size) (c.addr + 24 + i) =
        h.mem (b.addr + 24 + i) := by
    intro i hib his
    rw [copy_at (by omega)]
    exact hkeeps b hb hused _ (by omega) (by omega)
  have hothers : ∀ d ∈ L, d.free = false → ∀ x, d.addr + 24 ≤ x → x < d.addr + d.size →
      copy h₁.mem (c.addr + 24) (b.addr + 24) (min (b.size - 24) size) x = h.mem x := by
    intro d hd hdused x hx₁ hx₂
    have hd₁ : d ∈ L₁ := (hg.used d hdused).mpr (Or.inl hd)
    have hdc : d ≠ c := fun heq => hg.fresh d hd hdused (by rw [heq])
    have hapart := hI₁.tiled.apart hd₁ hc₁ hdc
    rw [copy_out (by omega)]
    exact hkeeps d hd hdused x hx₁ hx₂
  generalize copy h₁.mem (c.addr + 24) (b.addr + 24) (min (b.size - 24) size) = m₂
    at hcopy hcopied hothers ⊢
  obtain ⟨h', L', heq, hI', hL', hkept, hasked⟩ := free_spec hcopy hb₁ hused
  refine ⟨h', L', heq, ⟨hI', hg.inUse, hroom, fun d hd => ?_, fun d hd hdused _ => ?_,
    fun d hd hdused hne x hx₁ hx₂ => ?_, fun i hib his => ?_⟩, hasked⟩
  · rw [hL' d hd, hg.used d hd]
    constructor
    · rintro ⟨hd | rfl, hne⟩
      · exact Or.inl ⟨hd, hne⟩
      · exact Or.inr rfl
    · rintro (⟨hd, hne⟩ | rfl)
      · exact ⟨Or.inl hd, hne⟩
      · exact ⟨Or.inr rfl, hbc.symm⟩
  · exact hg.fresh d hd hdused
  · have hd₁ : d ∈ L₁ := (hg.used d hdused).mpr (Or.inl hd)
    rw [hkept d hd₁ hdused x hx₁ hx₂]
    exact hothers d hd hdused x hx₁ hx₂
  · rw [hkept c hc₁ hg.inUse _ (by omega) (by omega)]
    exact hcopied i hib his

/-- **`realloc`** of a block in use. -/
theorem realloc_spec (hI : HeapAt s h L) (hsys : BrkAnswers h sys) (hb : b ∈ L)
    (hused : b.free = false) (hpos : 0 < size) (hsize : FitsBreak h.brk size) :
    ∃ h' p, realloc h sys (b.addr + 24) size = some (h', p) ∧
      (p = 0 ∧ HeapAt s h' L ∧ h'.mem = h.mem ∨
        ∃ L' b', p = b'.addr + 24 ∧ Resized s h L b size h' L' b') ∧
      (h'.asked ≠ h.asked → NoFit L (blockTotal size)) := by
  have hroom : h.brk + (24 + (size + 15) / 16 * 16) < 2 ^ 64 := hsize
  have htotal := @blockTotal_of_lt size (by omega)
  have hin := hI.inside hb
  have hblock : b.addr + 24 - blockHeader = b.addr := Nat.add_sub_cancel b.addr 24
  obtain ⟨n, hn⟩ := hI.holds hb
  unfold realloc
  rw [if_neg (by omega), if_neg (by omega)]
  dsimp only
  rw [hblock, hn.size, hn.next]
  by_cases hfits : blockTotal size ≤ b.size
  · rw [if_pos hfits]
    exact ⟨h, _, rfl, Or.inr ⟨L, b, rfl, hI.resized_self hb hused (by omega)⟩,
      fun hne => absurd rfl hne⟩
  · rw [if_neg hfits]
    by_cases hgrow : n ≠ 0 ∧ freeBehind h.mem b.addr n ∧
        blockTotal size ≤ add b.size (getSize h.mem n)
    · rw [if_pos hgrow]
      obtain ⟨pre, post, rfl⟩ := List.append_of_mem hb
      obtain ⟨-, n', hn', hrest⟩ := linked_middle.mp hI.linked
      obtain rfl : n' = n := hn'.next.symm.trans hn.next
      cases post with
      | nil => exact absurd hrest hgrow.1
      | cons c post =>
        obtain ⟨rfl, n'', hc, -⟩ := hrest
        have hcin := hI.inside (b := c) (by simp)
        have hroom := hgrow.2.2
        rw [hc.size, add_of_lt (by omega)] at hroom
        exact ⟨_, _, rfl, Or.inr ⟨_, merge b c, rfl,
          hI.resized_grown hused (hc.free.mp hgrow.2.1.1) (by omega)⟩, fun hne => absurd rfl hne⟩
    · rw [if_neg hgrow]
      obtain ⟨h₁, p, heq, halloc, hask⟩ := malloc_spec hI hsys hsize
      rw [heq]
      dsimp only
      rcases halloc with ⟨rfl, hI₁, hmem⟩ | ⟨L₁, c, rfl, hI₁, hg, hroom, hkeeps⟩
      · rw [if_pos rfl]
        exact ⟨h₁, 0, rfl, Or.inl ⟨rfl, hI₁, hmem⟩, hask⟩
      · have hb₁ : b ∈ L₁ := (hg.used b hused).mpr (Or.inl hb)
        obtain ⟨n₁, hn₁⟩ := hI₁.holds hb₁
        rw [if_neg (by omega), hn₁.size, blockHeader_eq, sub_of_le (by omega) (by omega)]
        obtain ⟨h', L', hfree, hres, hasked⟩ := HeapAt.resized_copy hb hused hI₁ hg hroom hkeeps
        rw [hfree]
        refine ⟨h', c.addr + 24, rfl, Or.inr ⟨L', c, rfl, hres⟩, ?_⟩
        rw [hasked]
        exact hask

end Realloc

end Lestra
