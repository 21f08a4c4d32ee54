import Lestra.Exec.AddressSpace
import Lestra.Lib.Run
import Lestra.Mm.Teardown
import Lestra.Mm.VmmView

/-!
# User address spaces — effective permissions

What user code may do with a page is decided by all four entries of its walk.
`user_map_page` makes tables with the flags of the page they are made for and
never widens them, so a later page below the same table may not get what it asks
for. `PathPermits` is what a call needs of the path it finds; with it every page
keeps exactly the permission of the last call for it.
-/

namespace Lestra

open Word64 Radix

def isNx (e : BitVec 64) : Bool := e &&& pageNx != 0#64

/-- Writable, user and no-execute. -/
structure Perm where
  writable : Bool
  user : Bool
  nx : Bool
deriving DecidableEq, Repr

/-- What the MMU makes of the entries of a walk. -/
def effectivePerm (es : List (BitVec 64)) : Perm where
  writable := es.all isWritable
  user := es.all isUser
  nx := es.any isNx

def requestedPerm (flags : BitVec 64) : Perm := ⟨isWritable flags, isUser flags, isNx flags⟩

-- ---------------------------------------------------------------------------
-- Runs of calls
-- ---------------------------------------------------------------------------

/-- An address space, and the flags of the last call for every page number. -/
structure PermState where
  machine : Machine
  requested : Nat → Option (BitVec 64)

/-- A call of `user_map_page` for the page at frame `frame`, or frames taken, filled and returned
in between. -/
inductive PermOp where
  | map (vaddr : BitVec 64) (frame : Nat) (flags : BitVec 64)
  | elsewhere (m : Machine)

def permStep (pml4 : Nat) (s : PermState) : PermOp → PermState
  | .map vaddr frame flags =>
    { machine := userMapPage s.machine pml4 vaddr (BitVec.ofNat 64 (frame * pageSize)) flags
      requested := Function.update s.requested (pageNumber vaddr) (some flags) }
  | .elsewhere m => { s with machine := m }

/-- Every page that is there has the permission of the last call for it. -/
def PermsRequested (pml4 : Nat) (s : PermState) : Prop :=
  ∀ w flags, s.requested (pageNumber w) = some flags → PageHere s.machine pml4 w →
    effectivePerm (walk s.machine pml4 w) = requestedPerm flags

/-- The entry takes nothing away that the flags ask for. -/
def Permits (flags e : BitVec 64) : Prop :=
  (isWritable flags = true → isWritable e = true) ∧ (isNx flags = false → isNx e = false)

/-- The tables and the 2 MB page that are already there on the path permit what the flags ask for,
and there is no 1 GB page. -/
structure PathPermits (flags : BitVec 64) (es : List (BitVec 64)) : Prop where
  permits : ∀ k e, k < 3 → es[k]? = some e → isPresent e = true ∨ isHuge e = true → Permits flags e
  small : ∀ e, es[1]? = some e → isPresent e = true → isHuge e = false

/-- A frame is there for the pieces of a 2 MB page on the path. -/
def CanSplit (m : Machine) (es : List (BitVec 64)) : Prop :=
  ∀ e, es[2]? = some e → isHuge e = true → (pmmAllocPage m.pmm).2 ≠ 0

/-- What a step has to meet. The first line of `map` is what all callers pass: `PAGE_*` flags and
the address of a frame. -/
def PermAllowed (pml4 : Nat) (s : PermState) : PermOp → Prop
  | .map vaddr frame flags =>
    (flags &&& ptePhysMask = 0#64 ∧ isHuge flags = false ∧ frame < 2 ^ 40) ∧
      PathPermits flags (walk s.machine pml4 vaddr) ∧
      CanSplit s.machine (walk s.machine pml4 vaddr)
  | .elsewhere m => Steady m pml4 ∧ ∀ t, IsTable s.machine pml4 t → m.mem t = s.machine.mem t

-- ---------------------------------------------------------------------------
-- Permissions of a walk
-- ---------------------------------------------------------------------------

theorem isNx_eq (e : BitVec 64) : isNx e = e.getLsbD 63 :=
  and_twoPow_bne_zero e (k := 63) (by decide)

@[simp] theorem isNx_or (a b : BitVec 64) : isNx (a ||| b) = (isNx a || isNx b) := by
  simp [isNx_eq]

@[simp] theorem isNx_markUser (user : Bool) (e : BitVec 64) : isNx (markUser user e) = isNx e := by
  cases user
  · rfl
  · rw [markUser, if_pos rfl, isNx_or, show isNx pageUser = false by decide, Bool.or_false]

theorem Permits.mark {flags e : BitVec 64} (h : Permits flags e) (user : Bool) :
    Permits flags (markUser user e) := by
  rw [Permits, isWritable_markUser, isNx_markUser]
  exact h

/-- A table entry that grants the permission to the page below. -/
def Grantor (flags e : BitVec 64) : Prop :=
  isPresent e = true ∧ Permits flags e ∧ (isUser flags = true → isUser e = true)

/-- A complete walk with the permission of `flags`. -/
def PermWalk (flags : BitVec 64) (es : List (BitVec 64)) : Prop :=
  ∃ a b c leaf, es = [a, b, c, leaf] ∧ (∀ e ∈ [a, b, c], Grantor flags e) ∧
    isWritable leaf = isWritable flags ∧ isUser leaf = isUser flags ∧ isNx leaf = isNx flags

theorem PermWalk.effective {flags : BitVec 64} {es : List (BitVec 64)} (h : PermWalk flags es) :
    effectivePerm es = requestedPerm flags := by
  obtain ⟨a, b, c, leaf, rfl, hup, hw, hu, hn⟩ := h
  have ha := hup a (by simp)
  have hb := hup b (by simp)
  have hc := hup c (by simp)
  have hwr : (isWritable a && (isWritable b && (isWritable c && isWritable flags))) =
      isWritable flags := by
    cases hf : isWritable flags with
    | false => simp
    | true => simp [ha.2.1.1 hf, hb.2.1.1 hf, hc.2.1.1 hf]
  have hus : (isUser a && (isUser b && (isUser c && isUser flags))) = isUser flags := by
    cases hf : isUser flags with
    | false => simp
    | true => simp [ha.2.2 hf, hb.2.2 hf, hc.2.2 hf]
  have hnx : (isNx a || (isNx b || (isNx c || isNx flags))) = isNx flags := by
    cases hf : isNx flags with
    | false => simp [ha.2.1.2 hf, hb.2.1.2 hf, hc.2.1.2 hf]
    | true => simp
  simp only [effectivePerm, requestedPerm, List.all_cons, List.all_nil, List.any_cons, List.any_nil,
    Bool.and_true, Bool.or_false, hw, hu, hn, hwr, hus, hnx]

theorem Grantor.mark {flags e : BitVec 64} (h : Grantor flags e) (user : Bool) :
    Grantor flags (markUser user e) := by
  refine ⟨by rw [isPresent_markUser]; exact h.1, h.2.1.mark user, fun hu => ?_⟩
  rw [isUser_markUser, h.2.2 hu, Bool.or_true]

/-- Marking a table entry of such a walk keeps its permission. -/
theorem PermWalk.set_mark {flags : BitVec 64} {es : List (BitVec 64)} {k : Nat} {e : BitVec 64}
    (h : PermWalk flags es) (hk : k < 3) (he : es[k]? = some e) (user : Bool) :
    PermWalk flags (es.set k (markUser user e)) := by
  obtain ⟨a, b, c, leaf, rfl, hup, hleaf⟩ := h
  have ha := hup a (by simp)
  have hb := hup b (by simp)
  have hc := hup c (by simp)
  have hthree : ∀ x y z, Grantor flags x → Grantor flags y → Grantor flags z →
      ∀ e ∈ [x, y, z], Grantor flags e := by
    intro x y z hx hy hz e he
    simp only [List.mem_cons, List.not_mem_nil, or_false] at he
    rcases he with rfl | rfl | rfl
    · exact hx
    · exact hy
    · exact hz
  match k, hk with
  | 0, _ =>
    obtain rfl : a = e := by simpa using he
    exact ⟨_, b, c, leaf, rfl, hthree _ _ _ (ha.mark user) hb hc, hleaf⟩
  | 1, _ =>
    obtain rfl : b = e := by simpa using he
    exact ⟨a, _, c, leaf, rfl, hthree _ _ _ ha (hb.mark user) hc, hleaf⟩
  | 2, _ =>
    obtain rfl : c = e := by simpa using he
    exact ⟨a, b, _, leaf, rfl, hthree _ _ _ ha hb (hc.mark user), hleaf⟩

theorem PermWalk.length {flags : BitVec 64} {es : List (BitVec 64)} (h : PermWalk flags es) :
    es.length = 4 := by
  obtain ⟨a, b, c, leaf, rfl, -⟩ := h
  rfl

-- ---------------------------------------------------------------------------
-- The stages of a call
-- ---------------------------------------------------------------------------

/-- Every page for which there was a call is absent, or has the permission of the last one. -/
def PermsKept (requested : Nat → Option (BitVec 64)) (m : Machine) (r : Nat) : Prop :=
  ∀ w flags, requested (pageNumber w) = some flags →
    Broken (walk m r w) ∨ PermWalk flags (walk m r w)

section Stages

variable {requested : Nat → Option (BitVec 64)} {m : Machine} {r t f n : Nat} {i : Fin 512}
  {p q : List (Fin 512)} {v flags e : BitVec 64}

theorem PermsKept.mark (h : PermsKept requested m r) (hS : Steady m r)
    (hp : tableAt tableChild m.mem 3 r p = some t) (hlen : p.length ≤ 2) (user : Bool) :
    PermsKept requested (m.mark user t i) r := by
  intro w fl hw
  have hR := hS.ready 0
  by_cases hpre : p ++ [i] <+: vpath w
  · obtain ⟨q, hq⟩ := hpre
    have hpath : vpath w = p ++ i :: q := by rw [← hq]; simp
    have hget := walk_getElem? hp hpath
    rw [hR.walk_mark_on hp hpath]
    rcases h w fl hw with hb | hg
    · exact .inl (hb.set_mark hget user)
    · exact .inr (hg.set_mark (by omega) hget user)
  · rw [hR.walk_mark_off hp hpre]
    exact h w fl hw

/-- A walk that ended at the entry is absent before and after, or was the walk of a 2 MB page. -/
theorem PermsKept.attach {row : Fin 512 → BitVec 64} (h : PermsKept requested m r) (hS : Steady m r)
    (hA : Attaches m r t i p f row e n) (hlen : p.length ≤ 2)
    (hpres : ∀ j, isPresent (row j) = isPresent (m.mem t i)) :
    PermsKept requested (m.attach t i f row e) r := by
  intro w fl hw
  have hR : Ready m r (0 + 1) := hS.ready 1
  by_cases hpre : p ++ [i] <+: vpath w
  · obtain ⟨j, q, hpath⟩ := exists_next_index hlen hpre
    have htr := length_trail hA.at_path
    have hwalk := hA.walk hpath
    rw [hR.walk_attach_on hA hpath]
    rcases h w fl hw with hb | hg
    · rw [hwalk, broken_append, broken_single] at hb
      rw [broken_append, broken_pair, hpres j]
      exact .inl (hb.imp_right .inr)
    · have h4 := hg.length
      rw [hwalk, List.length_append, htr, List.length_singleton] at h4
      omega
  · rw [hR.walk_attach_off hA hpre]
    exact h w fl hw

/-- The machine `m` after some stages of a call for `v`: the path still permits what the call asks
for, and the first `d` entries grant it. -/
structure Granting (requested : Nat → Option (BitVec 64)) (m : Machine) (r : Nat)
    (v flags : BitVec 64) (d : Nat) : Prop where
  steady : Steady m r
  kept : PermsKept requested m r
  path : PathPermits flags (walk m r v)
  split : CanSplit m (walk m r v)
  opened : ∀ k < d, ∃ e, (walk m r v)[k]? = some e ∧ Grantor flags e

/-- The call gave up: the page is absent. -/
structure Missed (requested : Nat → Option (BitVec 64)) (m : Machine) (r : Nat)
    (v : BitVec 64) : Prop where
  steady : Steady m r
  kept : PermsKept requested m r
  absent : Broken (walk m r v)

/-- The flags for new tables. -/
def userTableFlags (flags : BitVec 64) : BitVec 64 := (flags &&& ~~~pageNx) ||| pagePresent

theorem isWritable_tableFlags (flags : BitVec 64) :
    isWritable (userTableFlags flags) = isWritable flags := by
  simp [userTableFlags, isWritable_eq, pageNx, pagePresent]

theorem isUser_tableFlags (flags : BitVec 64) : isUser (userTableFlags flags) = isUser flags := by
  simp [userTableFlags, isUser_eq, pageNx, pagePresent]

theorem isNx_tableFlags (flags : BitVec 64) : isNx (userTableFlags flags) = false := by
  simp [userTableFlags, isNx_eq, pageNx, pagePresent]

theorem tableFlags_userTableFlags (hmask : flags &&& ptePhysMask = 0#64)
    (hsmall : isHuge flags = false) : TableFlags (userTableFlags flags) where
  mask := by
    rw [userTableFlags, BitVec.and_or_distrib_right, BitVec.and_assoc, BitVec.and_comm _ ptePhysMask,
      ← BitVec.and_assoc, hmask]
    decide
  present := by
    rw [userTableFlags, isPresent_or, show isPresent pagePresent = true by decide, Bool.or_true]
  huge := by
    rw [isHuge_eq] at hsmall
    simpa [userTableFlags, isHuge_eq, pageNx, pagePresent] using hsmall

theorem PathPermits.set_mark {es : List (BitVec 64)} {k : Nat} (h : PathPermits flags es)
    (he : es[k]? = some e) (user : Bool) : PathPermits flags (es.set k (markUser user e)) := by
  -- every entry is an old one, marked or not
  have hent : ∀ (d : Nat) (a : BitVec 64), (es.set k (markUser user e))[d]? = some a →
      ∃ b u, es[d]? = some b ∧ a = markUser u b := by
    intro d a ha
    by_cases hd : k = d
    · subst hd
      rw [List.getElem?_set_self (List.getElem?_eq_some_iff.mp he).1] at ha
      exact ⟨e, user, he, (Option.some.inj ha).symm⟩
    · rw [List.getElem?_set_ne hd] at ha
      exact ⟨a, false, ha, rfl⟩
  refine ⟨fun d a hd ha hP => ?_, fun a ha hP => ?_⟩
  · obtain ⟨b, u, hb, rfl⟩ := hent d a ha
    rw [isPresent_markUser, isHuge_markUser] at hP
    exact (h.permits d b hd hb hP).mark u
  · obtain ⟨b, u, hb, rfl⟩ := hent 1 a ha
    rw [isPresent_markUser] at hP
    rw [isHuge_markUser]
    exact h.small b hb hP

theorem CanSplit.set_mark {es : List (BitVec 64)} {k : Nat} (h : CanSplit m es)
    (he : es[k]? = some e) (user : Bool) : CanSplit m (es.set k (markUser user e)) := by
  intro a ha hH
  by_cases hk : k = 2
  · subst hk
    rw [List.getElem?_set_self (List.getElem?_eq_some_iff.mp he).1] at ha
    obtain rfl := Option.some.inj ha
    rw [isHuge_markUser] at hH
    exact h e he hH
  · rw [List.getElem?_set_ne hk] at ha
    exact h a ha hH

theorem Granting.mark (h : Granting requested m r v flags p.length) (hv : vpath v = p ++ i :: q)
    (hlen : p.length ≤ 2) (hp : tableAt tableChild m.mem 3 r p = some t)
    (hP : isPresent (m.mem t i) = true) :
    Granting requested (m.mark (isUser flags) t i) r v flags (p.length + 1) := by
  have hget := walk_getElem? hp hv
  have hwalk : walk (m.mark (isUser flags) t i) r v =
      (walk m r v).set p.length (markUser (isUser flags) (m.mem t i)) :=
    (h.steady.ready 0).walk_mark_on hp hv
  refine ⟨h.steady.mark hp _, h.kept.mark h.steady hp hlen _, ?_, ?_, fun k hk => ?_⟩
  · rw [hwalk]
    exact h.path.set_mark hget _
  · rw [hwalk]
    exact h.split.set_mark hget _
  · rw [hwalk]
    by_cases hkp : k = p.length
    · subst hkp
      refine ⟨_, List.getElem?_set_self (List.getElem?_eq_some_iff.mp hget).1, ?_, ?_, fun hu => ?_⟩
      · rw [isPresent_markUser, hP]
      · exact (h.path.permits p.length _ (by omega) hget (.inl hP)).mark _
      · rw [isUser_markUser, hu, Bool.true_or]
    · rw [List.getElem?_set_ne (Ne.symm hkp)]
      exact h.opened k (by omega)

/-- Where a table is hung below an entry of the path, the walk is the old one up to the entry, then
the new entry and one entry of the new table. -/
theorem Granting.attach {row : Fin 512 → BitVec 64} (h : Granting requested m r v flags p.length)
    (hv : vpath v = p ++ i :: q) (hlen : p.length ≤ 2) (hA : Attaches m r t i p f row e n)
    (hpres : ∀ j, isPresent (row j) = isPresent (m.mem t i))
    (hrow : p.length ≤ 1 → ∀ j, row j = 0#64) (hhuge : isHuge e = false)
    (hgrant : Grantor flags e) :
    Granting requested (m.attach t i f row e) r v flags (p.length + 1) := by
  have hpre : p ++ [i] <+: vpath v := ⟨q, by rw [hv]; simp⟩
  obtain ⟨j, q', hpath⟩ := exists_next_index hlen hpre
  have htr := length_trail hA.at_path
  have hR : Ready m r (0 + 1) := h.steady.ready 1
  have hold := hA.walk hpath
  have hnew := hR.walk_attach_on hA hpath
  -- the entries before the new one are those of the old walk
  have hbefore : ∀ k, k < p.length →
      (walk (m.attach t i f row e) r v)[k]? = (walk m r v)[k]? := by
    intro k hk
    rw [hnew, hold, List.getElem?_append_left (by omega), List.getElem?_append_left (by omega)]
  have hat : (walk (m.attach t i f row e) r v)[p.length]? = some e := by
    rw [hnew, List.getElem?_append_right (by omega), htr, Nat.sub_self]
    rfl
  -- an entry after the new one, above the leaf table, is empty
  have hafter : ∀ k a, p.length < k → k < 3 → (walk (m.attach t i f row e) r v)[k]? = some a →
      a = 0#64 := by
    intro k a hk hk3 ha
    rw [hnew, List.getElem?_append_right (by omega), htr] at ha
    obtain ⟨d, hd⟩ : ∃ d, k - p.length = d + 1 := ⟨k - p.length - 1, by omega⟩
    rw [hd] at ha
    cases d with
    | zero =>
      obtain rfl : row j = a := by simpa using ha
      exact hrow (by omega) j
    | succ d => simp at ha
  refine ⟨h.steady.attach hA, h.kept.attach h.steady hA hlen hpres, ⟨fun k a hk ha hP => ?_,
    fun a ha hP => ?_⟩, fun a ha hH => ?_, fun k hk => ?_⟩
  · rcases Nat.lt_trichotomy k p.length with hlt | rfl | hgt
    · rw [hbefore k hlt] at ha
      exact h.path.permits k a hk ha hP
    · rw [hat] at ha
      exact Option.some.inj ha ▸ hgrant.2.1
    · rw [hafter k a hgt hk ha] at hP
      exact absurd hP (by decide)
  · rcases Nat.lt_trichotomy 1 p.length with hlt | heq | hgt
    · rw [hbefore 1 hlt] at ha
      exact h.path.small a ha hP
    · rw [heq, hat] at ha
      exact Option.some.inj ha ▸ hhuge
    · rw [hafter 1 a hgt (by decide) ha]
      decide
  · exfalso
    rcases Nat.lt_or_ge p.length 2 with hlt | hge
    · rw [hafter 2 a hlt (by decide) ha] at hH
      exact absurd hH (by decide)
    · rw [show 2 = p.length by omega, hat] at ha
      rw [← Option.some.inj ha, hhuge] at hH
      exact Bool.noConfusion hH
  · by_cases hkp : k = p.length
    · exact ⟨e, by rw [hkp, hat], hgrant⟩
    · rw [hbefore k (by omega)]
      exact h.opened k (by omega)

/-- A frame address has none of the permission bits. -/
theorem frame_bits (hf : f < 2 ^ 40) : isWritable (BitVec.ofNat 64 (f * 4096)) = false ∧
    isUser (BitVec.ofNat 64 (f * 4096)) = false ∧ isNx (BitVec.ofNat 64 (f * 4096)) = false := by
  have hbit : ∀ b, b < 12 ∨ 52 ≤ b → (BitVec.ofNat 64 (f * 4096)).getLsbD b = false := by
    intro b hb
    rw [← ofNat_frame_and_mask hf, BitVec.getLsbD_and, getLsbD_ptePhysMask]
    have hno : ¬ (12 ≤ b ∧ b < 52) := by omega
    simp [hno]
  rw [isWritable_eq, isUser_eq, isNx_eq]
  exact ⟨hbit 1 (by decide), hbit 2 (by decide), hbit 63 (by decide)⟩

/-- Taking the address and the size bit out of a 2 MB entry leaves its permission. -/
theorem isWritable_clearAddr (e : BitVec 64) :
    isWritable (e &&& ~~~pageHuge &&& ~~~ptePhysMask) = isWritable e := by
  rw [isWritable_eq, isWritable_eq]
  simp only [BitVec.getLsbD_and, BitVec.getLsbD_not, getLsbD_ptePhysMask]
  simp [pageHuge]

theorem isNx_clearAddr (e : BitVec 64) :
    isNx (e &&& ~~~pageHuge &&& ~~~ptePhysMask) = isNx e := by
  rw [isNx_eq, isNx_eq]
  simp only [BitVec.getLsbD_and, BitVec.getLsbD_not, getLsbD_ptePhysMask]
  simp [pageHuge]

theorem granting_stageRule (hF : TableFlags (userTableFlags flags)) :
    StageRule r v (userTableFlags flags) (isUser flags)
      (fun d m => Granting requested m r v flags d) (fun m => Missed requested m r v) where
  ready := fun _ h => h.steady.ready 1
  mark := fun h hv hlen hp _ hP => h.mark hv hlen hp hP
  attach := by
    intro m t i p q f h hv hlen hp _ hP hg
    obtain ⟨n, hn⟩ : ∃ n, 3 - p.length = n + 1 := ⟨2 - p.length, by omega⟩
    have hR : Ready m r (0 + 1) := h.steady.ready 1
    have hA := attaches_empty hR hp hn hg hP hF.mask hF.present hF.huge (isUser flags)
    obtain ⟨-, -, hnx⟩ := frame_bits (hg.lt hR)
    refine h.attach hv hlen hA (fun _ => by rw [hP]; decide) (fun _ _ => rfl) ?_
      ⟨(tableChild_eq_some hA.new).1, ⟨fun hw => ?_, fun hn => ?_⟩, fun hu => ?_⟩
    · rw [isHuge_markUser, isHuge_or, isHuge_ofNat_frame, hF.huge]
      rfl
    · rw [isWritable_markUser, isWritable_or, isWritable_tableFlags, hw, Bool.or_true]
    · rw [isNx_markUser, isNx_or, isNx_tableFlags, hnx]
      rfl
    · rw [isUser_markUser, hu, Bool.true_or]
  starved := by
    intro m t i p q h hv hlen hp hP _
    refine ⟨h.steady.starved, h.kept, ?_⟩
    have hw : walk m r v = trail tableChild m.mem 3 r p ++ [m.mem t i] := by
      rw [walk, hv]
      exact trail_of_child_none hp (k := 2 - p.length) (by omega) (tableChild_absent hP) q
    show Broken (walk m r v)
    rw [hw]
    exact broken_append_absent _ hP
  giant := by
    intro m t h hp hH
    have hget : (walk m r v)[1]? = some (m.mem t (pdptIdx v)) :=
      walk_getElem? (p := [pml4Idx v]) hp rfl
    obtain ⟨e, he, hP, -⟩ := h.opened 1 (by decide)
    obtain rfl := Option.some.inj (hget.symm.trans he)
    exact absurd (h.path.small _ hget hP) (by rw [hH]; simp)
  split := by
    intro m t f h hp hH hg
    have hR : Ready m r (0 + 1) := h.steady.ready 1
    have hA := attaches_pieces hR hp rfl hg hH (isUser flags)
    have hget : (walk m r v)[2]? = some (m.mem t (pdIdx v)) :=
      walk_getElem? (p := [pml4Idx v, pdptIdx v]) hp rfl
    have hpermits := h.path.permits 2 _ (by decide) hget (.inr hH)
    obtain ⟨-, -, hnx⟩ := frame_bits (hg.lt hR)
    refine h.attach (p := [pml4Idx v, pdptIdx v]) (q := [ptIdx v]) rfl (by simp) hA
      (fun j => isPresent_hugePiece _ j) (fun hlen => by simp at hlen)
      ((tableChild_eq_some hA.new).2.1 (by decide))
      ⟨(tableChild_eq_some hA.new).1, ⟨fun hw => ?_, fun hn => ?_⟩, fun hu => ?_⟩
    · have hold := hpermits.1 hw
      rw [isWritable_markUser, isWritable_or, isWritable_or, isWritable_clearAddr, hold]
      simp
    · have hold := hpermits.2 hn
      rw [isNx_markUser, isNx_or, isNx_or, hnx, isNx_clearAddr, hold]
      decide
    · rw [isUser_markUser, hu, Bool.true_or]
  unsplit := by
    intro m t h hp hH h0
    have hget : (walk m r v)[2]? = some (m.mem t (pdIdx v)) :=
      walk_getElem? (p := [pml4Idx v, pdptIdx v]) hp rfl
    exact absurd h0 (h.split _ hget hH)

-- ---------------------------------------------------------------------------
-- One call
-- ---------------------------------------------------------------------------

/-- A call for a path that permits what it asks for. -/
theorem userMapPage_keeps (hS : Steady m r) (hK : PermsKept requested m r)
    (hmask : flags &&& ptePhysMask = 0#64) (hsmall : isHuge flags = false) (hf : f < 2 ^ 40)
    (hpath : PathPermits flags (walk m r v)) (hsplit : CanSplit m (walk m r v)) :
    Steady (userMapPage m r v (BitVec.ofNat 64 (f * pageSize)) flags) r ∧
      PermsKept (Function.update requested (pageNumber v) (some flags))
        (userMapPage m r v (BitVec.ofNat 64 (f * pageSize)) flags) r := by
  have hF := tableFlags_userTableFlags hmask hsmall
  have hrule : StageRule r v (userTableFlags flags) (isUser flags)
      (fun d m => Granting requested m r v flags d) (fun m => Missed requested m r v) :=
    granting_stageRule hF
  have hstart : Granting requested m r v flags 0 := ⟨hS, hK, hpath, hsplit, fun k hk => by omega⟩
  rw [pageSize_eq]
  unfold userMapPage
  rw [← userTableFlags]
  rcases hrule.openPath hF hstart with ⟨m₁, hm₁, hM⟩ | ⟨m₁, pt, hm₁, hG, hpt⟩
  · rw [hm₁]
    refine ⟨hM.steady, fun w fl hw => ?_⟩
    by_cases hpn : pageNumber w = pageNumber v
    · exact .inl (by rw [walk_congr hpn]; exact hM.absent)
    · rw [Function.update_of_ne hpn] at hw
      exact hM.kept w fl hw
  · rw [hm₁]
    obtain ⟨hother, a, b, c, hold, hnew⟩ := walk_storeLeaf hG.steady hpt (fun _ _ => rfl)
      (BitVec.ofNat 64 (f * 4096) ||| flags ||| pagePresent) m₁.pmm
    refine ⟨hG.steady.setLeaf hpt rfl _, fun w fl hw => ?_⟩
    show Broken (walk ⟨m₁.pmm, write m₁.mem pt (ptIdx v) _⟩ r w) ∨
      PermWalk fl (walk ⟨m₁.pmm, write m₁.mem pt (ptIdx v) _⟩ r w)
    by_cases hpn : pageNumber w = pageNumber v
    · rw [hpn, Function.update_self] at hw
      obtain rfl := Option.some.inj hw
      obtain ⟨hwr, hus, hnx⟩ := frame_bits hf
      rw [walk_congr hpn, hnew]
      refine .inr ⟨a, b, c, _, rfl, fun e he => ?_, ?_, ?_, ?_⟩
      · obtain ⟨k, hk⟩ := List.mem_iff_getElem?.mp he
        have hk3 : k < 3 := (List.getElem?_eq_some_iff.mp hk).1
        obtain ⟨e', he', hgr⟩ := hG.opened k hk3
        rw [hold, show [a, b, c, m₁.mem pt (ptIdx v)] = [a, b, c] ++ [m₁.mem pt (ptIdx v)] from rfl,
          List.getElem?_append_left hk3, hk] at he'
        exact Option.some.inj he' ▸ hgr
      · rw [isWritable_or, isWritable_or, hwr, show isWritable pagePresent = false by decide,
          Bool.false_or, Bool.or_false]
      · rw [isUser_or, isUser_or, hus, show isUser pagePresent = false by decide, Bool.false_or,
          Bool.or_false]
      · rw [isNx_or, isNx_or, hnx, show isNx pagePresent = false by decide, Bool.false_or,
          Bool.or_false]
    · rw [Function.update_of_ne hpn] at hw
      rw [hother w hpn]
      exact hG.kept w fl hw

end Stages

-- ---------------------------------------------------------------------------
-- Runs
-- ---------------------------------------------------------------------------

theorem permStep_keeps {r : Nat} (s : PermState) (op : PermOp)
    (hI : Steady s.machine r ∧ PermsKept s.requested s.machine r) (hA : PermAllowed r s op) :
    Steady (permStep r s op).machine r ∧
      PermsKept (permStep r s op).requested (permStep r s op).machine r := by
  cases op with
  | map vaddr frame flags =>
    obtain ⟨⟨hmask, hsmall, hf⟩, hpath, hsplit⟩ := hA
    exact userMapPage_keeps hI.1 hI.2 hmask hsmall hf hpath hsplit
  | elsewhere m =>
    obtain ⟨hS, hmem⟩ := hA
    refine ⟨hS, fun w fl hw => ?_⟩
    have hwalk : walk m r w = walk s.machine r w := trail_congr hmem (vpath w)
    show Broken (walk m r w) ∨ PermWalk fl (walk m r w)
    rw [hwalk]
    exact hI.2 w fl hw

/--
**Effective permissions.** Start with an address space for which there was no call and run any
sequence of calls of `user_map_page`, in any order, with frames taken and filled in between. If
every call found a path that permits what it asks for, and a frame for the pieces of a 2 MB page on
it, then every page that is there has exactly the permission of the last call for it.
-/
theorem user_permissions_requested (m : Machine) (pml4 : Nat) (hS : Steady m pml4)
    (ops : List PermOp)
    (hops : Run.Allowed (permStep pml4) (PermAllowed pml4) ⟨m, fun _ => none⟩ ops) :
    PermsRequested pml4 (Run.run (permStep pml4) ⟨m, fun _ => none⟩ ops) := by
  have hI := Run.inv_run (I := fun s : PermState => Steady s.machine pml4 ∧ PermsKept s.requested s.machine pml4)
    permStep_keeps ops ⟨m, fun _ => none⟩ ⟨hS, fun _ _ h => nomatch h⟩ hops
  intro w flags hw hhere
  exact ((hI.2 w flags hw).resolve_left hhere).effective

theorem Space.steady {m : Machine} {r : Nat} {base : Nat → Prop} {hand : List Nat}
    (hS : Space m r base hand) : Steady m r where
  covers := hS.covers
  physical := hS.physical
  distinct := distinct_tables hS.distinct
  fresh := fun f hf ⟨q, hq⟩ => (hS.held f (Or.inl ⟨q, tableAt_page_of_table hq⟩)).1 hf

/-- A new address space, at frame 1, and the frames 2 and 3 taken for its pages. -/
def loadMachine : Machine := (createUserAddressSpace bareMachine 20).1.starved.starved

theorem loadMachine_steady : Steady loadMachine 1 := by
  have hS := create_space bareMachine_sound
    (Or.inl fun i _ => by simp [bareMachine, blankMem, isPresent])
    (show (createUserAddressSpace bareMachine 20).2 ≠ 0 by
      rw [createUserAddressSpace_frame bareMachine_grants]
      decide)
  rw [createUserAddressSpace_frame bareMachine_grants] at hS
  exact hS.steady.starved.starved

/-- A read-only page that may be executed. -/
def textPage : PermOp := .map 0x400000#64 2 0x5#64

/-- The page after it, writable and not executable. -/
def dataPage : PermOp := .map 0x401000#64 3 0x8000000000000007#64

/-- The data page first: its tables are writable and the text page may use them. -/
theorem user_permissions_requested_data :
    PermsRequested 1 (Run.run (permStep 1) ⟨loadMachine, fun _ => none⟩ [dataPage, textPage]) := by
  have hfirst : walk loadMachine 1 0x401000#64 = [0#64] := by decide +kernel
  have hsecond : walk (permStep 1 ⟨loadMachine, fun _ => none⟩ dataPage).machine 1 0x400000#64 =
      [0x4007#64, 0x5007#64, 0x6007#64, 0#64] := by decide +kernel
  refine user_permissions_requested loadMachine 1 loadMachine_steady [dataPage, textPage]
    ⟨⟨by decide, ?_, ?_⟩, ⟨by decide, ?_, ?_⟩, trivial⟩
  · rw [hfirst]
    refine ⟨fun k e _ he hP => ?_, fun e he => by simp at he⟩
    have h0 := List.mem_singleton.mp (List.mem_of_getElem? he)
    exact absurd (h0 ▸ hP) (by decide)
  · rw [hfirst]
    exact fun e he => by simp at he
  · rw [hsecond]
    refine ⟨fun k e hk he _ => ?_, fun e he _ => ?_⟩
    · have hmem := List.mem_of_getElem? (he ▸ List.getElem?_take_of_lt hk)
      simp only [List.take_succ_cons, List.take_zero, List.mem_cons, List.not_mem_nil,
        or_false] at hmem
      rcases hmem with rfl | rfl | rfl <;> exact ⟨fun _ => by decide, fun _ => by decide⟩
    · obtain rfl : 0x5007#64 = e := by simpa using he
      decide
  · rw [hsecond]
    intro e he hH
    obtain rfl : 0x6007#64 = e := by simpa using he
    exact absurd hH (by decide)

/-- The text page first: its tables are not writable, so neither is the data page. -/
theorem text_page_denies_write : Steady loadMachine 1 ∧
    ¬ PermsRequested 1 (Run.run (permStep 1) ⟨loadMachine, fun _ => none⟩ [textPage, dataPage]) := by
  refine ⟨loadMachine_steady, fun h => ?_⟩
  have hwalk : walk (Run.run (permStep 1) ⟨loadMachine, fun _ => none⟩ [textPage, dataPage]).machine
      1 0x401000#64 = [0x4005#64, 0x5005#64, 0x6005#64, 0x8000000000003007#64] := by decide +kernel
  have hhere : PageHere (Run.run (permStep 1) ⟨loadMachine, fun _ => none⟩
      [textPage, dataPage]).machine 1 0x401000#64 := by
    intro hbroken
    obtain ⟨e, he, hP⟩ := hwalk ▸ hbroken
    simp only [List.mem_cons, List.not_mem_nil, or_false] at he
    rcases he with rfl | rfl | rfl | rfl <;> exact absurd hP (by decide)
  have hperm := h 0x401000#64 0x8000000000000007#64 (by decide) hhere
  rw [hwalk] at hperm
  exact absurd hperm (by decide)

end Lestra
