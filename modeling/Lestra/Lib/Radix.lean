import Mathlib.Data.List.Nodup
import Mathlib.Logic.Function.Basic
import Mathlib.Tactic.Common

/-!
# Radix trees in flat memory

A radix tree of bounded depth kept in an array of tables: `mem t i` is entry
`i` of table `t`, and `child n e` is the table that an entry `e` found `n`
levels above the leaves points to, if it points to one. A lookup along a path
reads one entry per table until it meets an entry without a child; `trail` is
the list of entries it reads, and `tableAt` the table it arrives at.

When the tables of a tree are `Distinct` (no table is reached along two paths),
writing one entry is seen by exactly the lookups that read it. Two kinds of
write keep a tree a tree:

* `relabel` — the new entry has the child the old one had;
* `attach` — the old entry had no child, and the new one points to a table that
  was not in the tree and has no children.
-/

namespace Radix

variable {T I E : Type*} (child : Nat → E → Option T)

/-- The entries read by a lookup of a path from table `t`, `n` levels above the leaves. -/
def trail (mem : T → I → E) : Nat → T → List I → List E
  | _, _, [] => []
  | 0, t, i :: _ => [mem t i]
  | n + 1, t, i :: is =>
    mem t i :: match child (n + 1) (mem t i) with
      | some u => trail mem n u is
      | none => []

/-- The table that a lookup of a path arrives at. -/
def tableAt (mem : T → I → E) : Nat → T → List I → Option T
  | _, t, [] => some t
  | 0, _, _ :: _ => none
  | n + 1, t, i :: is => (child (n + 1) (mem t i)).bind fun u => tableAt mem n u is

/-- No table is reached along two paths. -/
def Distinct (mem : T → I → E) (n : Nat) (t : T) : Prop :=
  ∀ p q u, tableAt child mem n t p = some u → tableAt child mem n t q = some u → p = q

/-- The table `u` is part of the tree below `t`. -/
def InTree (mem : T → I → E) (n : Nat) (t u : T) : Prop :=
  ∃ p, tableAt child mem n t p = some u

/-- Store `e` in entry `i` of table `t`. -/
def write [DecidableEq T] [DecidableEq I] (mem : T → I → E) (t : T) (i : I) (e : E) : T → I → E :=
  Function.update mem t (Function.update (mem t) i e)

/-- The number of leading indices that two paths share. -/
def shared [DecidableEq I] : List I → List I → Nat
  | i :: p, j :: q => if i = j then shared p q + 1 else 0
  | _, _ => 0

theorem take_prefix_iff [DecidableEq I] : ∀ {p q : List I} {k : Nat}, k ≤ p.length →
    (p.take k <+: q ↔ k ≤ shared p q)
  | _, _, 0, _ => by simp
  | [], _, k + 1, h => by simp at h
  | i :: p, [], k + 1, _ => by simp [shared]
  | i :: p, j :: q, k + 1, h => by
    rw [List.length_cons] at h
    have ih := take_prefix_iff (p := p) (q := q) (k := k) (by omega)
    rw [List.take_succ_cons, List.cons_prefix_cons, ih, shared]
    split
    · next hij => simp [hij]
    · next hij => simp [hij]

section Lookup

variable {child} {mem mem' : T → I → E} {n : Nat} {t u : T} {i : I} {p q : List I}

theorem inTree_root : InTree child mem n t t := by
  refine ⟨[], ?_⟩
  cases n <;> rfl

theorem tableAt_nil : tableAt child mem n t [] = some t := by
  cases n <;> rfl

theorem tableAt_cons : tableAt child mem (n + 1) t (i :: p) =
    (child (n + 1) (mem t i)).bind fun u => tableAt child mem n u p := rfl

/-- A path to a table is no longer than the height of the tree. -/
theorem length_le_of_tableAt : ∀ {n : Nat} {t u : T} {p : List I},
    tableAt child mem n t p = some u → p.length ≤ n
  | _, _, _, [], _ => Nat.zero_le _
  | 0, _, _, _ :: _, h => by simp [tableAt] at h
  | n + 1, t, u, i :: p, h => by
    rw [tableAt_cons, Option.bind_eq_some_iff] at h
    obtain ⟨v, -, hv⟩ := h
    have := length_le_of_tableAt hv
    rw [List.length_cons]
    omega

/-- A lookup continues from the table it has arrived at. -/
theorem tableAt_append : ∀ {n : Nat} {t u : T} {p : List I},
    tableAt child mem n t p = some u →
    ∀ q, tableAt child mem n t (p ++ q) = tableAt child mem (n - p.length) u q
  | _, _, _, [], h, q => by
    rw [tableAt_nil, Option.some.injEq] at h
    subst h
    rfl
  | 0, _, _, _ :: _, h, _ => by simp [tableAt] at h
  | n + 1, t, u, i :: p, h, q => by
    rw [tableAt_cons, Option.bind_eq_some_iff] at h
    obtain ⟨v, hc, hv⟩ := h
    rw [List.cons_append, tableAt_cons, hc, Option.bind_some, tableAt_append hv q,
      List.length_cons, Nat.add_sub_add_right]

theorem trail_append : ∀ {n : Nat} {t u : T} {p : List I},
    tableAt child mem n t p = some u →
    ∀ q, trail child mem n t (p ++ q) = trail child mem n t p ++ trail child mem (n - p.length) u q
  | _, _, _, [], h, q => by
    rw [tableAt_nil, Option.some.injEq] at h
    subst h
    simp [trail]
  | 0, _, _, _ :: _, h, _ => by simp [tableAt] at h
  | n + 1, t, u, i :: p, h, q => by
    rw [tableAt_cons, Option.bind_eq_some_iff] at h
    obtain ⟨v, hc, hv⟩ := h
    simp only [List.cons_append, trail, hc, trail_append hv q, List.length_cons,
      Nat.add_sub_add_right]

theorem length_trail : ∀ {n : Nat} {t u : T} {p : List I},
    tableAt child mem n t p = some u → (trail child mem n t p).length = p.length
  | _, _, _, [], _ => by simp [trail]
  | 0, _, _, _ :: _, h => by simp [tableAt] at h
  | n + 1, t, u, i :: p, h => by
    rw [tableAt_cons, Option.bind_eq_some_iff] at h
    obtain ⟨v, hc, hv⟩ := h
    simp only [trail, hc, List.length_cons, length_trail hv]

/-- The entry that a lookup reads in the table it has arrived at. -/
theorem trail_getElem? (h : tableAt child mem n t p = some u) (i : I) (q : List I) :
    (trail child mem n t (p ++ i :: q))[p.length]? = some (mem u i) := by
  rw [trail_append h, ← length_trail h, List.getElem?_append_right (Nat.le_refl _), Nat.sub_self]
  cases n - (trail child mem n t p).length <;> rfl

/-- Every entry that a lookup reads is an entry of a table it has arrived at. -/
theorem tableAt_of_trail_getElem? {e : E} : ∀ {n : Nat} {t : T} {q : List I} {k : Nat},
    (trail child mem n t q)[k]? = some e →
    ∃ u i, tableAt child mem n t (q.take k) = some u ∧ q[k]? = some i ∧ e = mem u i
  | n, t, [], k, h => by simp [trail] at h
  | 0, t, i :: q, 0, h => ⟨t, i, tableAt_nil, rfl, by simpa [trail] using h.symm⟩
  | 0, t, i :: q, k + 1, h => by simp [trail] at h
  | n + 1, t, i :: q, 0, h => ⟨t, i, tableAt_nil, rfl, by simpa [trail] using h.symm⟩
  | n + 1, t, i :: q, k + 1, h => by
    rw [trail, List.getElem?_cons_succ] at h
    rw [List.take_succ_cons, List.getElem?_cons_succ, tableAt_cons]
    cases hc : child (n + 1) (mem t i) with
    | none => simp [hc] at h
    | some v =>
      rw [hc] at h
      exact tableAt_of_trail_getElem? h

/-- Every entry that a lookup reads but the last has a child. -/
theorem child_of_trail_getElem? {e : E} : ∀ {n : Nat} {t : T} {q : List I} {k : Nat},
    (trail child mem n t q)[k]? = some e → k + 1 < (trail child mem n t q).length →
    ∃ u, child (n - k) e = some u
  | n, t, [], k, h, _ => by simp [trail] at h
  | 0, t, i :: q, k, _, hk => by simp [trail] at hk
  | n + 1, t, i :: q, k, h, hk => by
    cases hc : child (n + 1) (mem t i) with
    | none => simp [trail, hc] at hk
    | some v =>
      simp only [trail, hc, List.length_cons] at h hk
      cases k with
      | zero =>
        rw [List.getElem?_cons_zero, Option.some.injEq] at h
        exact ⟨v, by rw [← h]; exact hc⟩
      | succ k =>
        rw [List.getElem?_cons_succ] at h
        obtain ⟨u, hu⟩ := child_of_trail_getElem? h (by omega)
        exact ⟨u, by rw [Nat.add_sub_add_right]; exact hu⟩

theorem Distinct.sub (hD : Distinct child mem (n + 1) t)
    (hc : child (n + 1) (mem t i) = some u) : Distinct child mem n u := by
  intro p q v hp hq
  have hp' : tableAt child mem (n + 1) t (i :: p) = some v := by rw [tableAt_cons, hc]; exact hp
  have hq' : tableAt child mem (n + 1) t (i :: q) = some v := by rw [tableAt_cons, hc]; exact hq
  exact (List.cons.inj (hD _ _ v hp' hq')).2

/-- In a tree only the lookups along `p ++ [i]` come past entry `i` of the table at `p`. -/
theorem Distinct.off_path (hD : Distinct child mem n t) (hp : tableAt child mem n t p = some u)
    (hq : ¬ p ++ [i] <+: q) :
    ∀ p', tableAt child mem n t p' = some u → ¬ p' ++ [i] <+: q := by
  intro p' hp' hpre
  rw [hD p' p u hp' hp] at hpre
  exact hq hpre

/-- The table at `p` is not below its own entries. -/
theorem Distinct.not_below {k : Nat} {v : T} (hD : Distinct child mem n t)
    (hp : tableAt child mem n t p = some u) (hk : n - p.length = k + 1)
    (hc : child (k + 1) (mem u i) = some v) : ¬ InTree child mem k v u := by
  rintro ⟨p', hp'⟩
  have hcycle : tableAt child mem n t (p ++ i :: p') = some u := by
    rw [tableAt_append hp, hk, tableAt_cons, hc]
    exact hp'
  have hlen := congrArg List.length (hD p _ u hp hcycle)
  rw [List.length_append, List.length_cons] at hlen
  omega

end Lookup

-- ---------------------------------------------------------------------------
-- Locality
-- ---------------------------------------------------------------------------

section Locality

variable {child} {mem mem' : T → I → E}

/-- Lookups see only the tables of the tree. -/
theorem tableAt_congr : ∀ {n : Nat} {t : T},
    (∀ u, InTree child mem n t u → mem' u = mem u) →
    ∀ q, tableAt child mem' n t q = tableAt child mem n t q
  | _, _, _, [] => by rw [tableAt_nil, tableAt_nil]
  | 0, _, _, _ :: _ => rfl
  | n + 1, t, h, i :: q => by
    rw [tableAt_cons, tableAt_cons, h t inTree_root]
    cases hc : child (n + 1) (mem t i) with
    | none => rfl
    | some u =>
      simp only [Option.bind_some]
      refine tableAt_congr (fun v hv => h v ?_) q
      obtain ⟨p, hp⟩ := hv
      exact ⟨i :: p, by rw [tableAt_cons, hc]; exact hp⟩

theorem trail_congr : ∀ {n : Nat} {t : T},
    (∀ u, InTree child mem n t u → mem' u = mem u) →
    ∀ q, trail child mem' n t q = trail child mem n t q
  | n, _, _, [] => by cases n <;> rfl
  | 0, t, h, i :: _ => by simp only [trail, h t inTree_root]
  | n + 1, t, h, i :: q => by
    simp only [trail, h t inTree_root]
    cases hc : child (n + 1) (mem t i) with
    | none => rfl
    | some u =>
      have hsub : ∀ v, InTree child mem n u v → mem' v = mem v := by
        rintro v ⟨p, hp⟩
        exact h v ⟨i :: p, by rw [tableAt_cons, hc]; exact hp⟩
      simp only [trail_congr hsub q]

end Locality

-- ---------------------------------------------------------------------------
-- Writing one entry
-- ---------------------------------------------------------------------------

section Write

variable {child} [DecidableEq T] [DecidableEq I] {mem : T → I → E} {n : Nat} {r t u : T} {i j : I}
  {e : E} {p q : List I}

@[simp] theorem write_self : write mem t i e t i = e := by
  simp [write]

theorem write_of_ne (h : u ≠ t ∨ j ≠ i) : write mem t i e u j = mem u j := by
  unfold write
  by_cases hu : u = t
  · subst hu
    simp [h.resolve_left (fun hn => hn rfl)]
  · simp [hu]

theorem write_table_of_ne (h : u ≠ t) : write mem t i e u = mem u := by
  simp [write, h]

@[simp] theorem write_write (e' : E) : write (write mem t i e) t i e' = write mem t i e' := by
  simp [write]

/-- A lookup that does not come past the written entry arrives where it did. -/
theorem tableAt_write : ∀ {n : Nat} {r : T} {q : List I},
    (∀ p, tableAt child mem n r p = some t → ¬ p ++ [i] <+: q) →
    tableAt child (write mem t i e) n r q = tableAt child mem n r q
  | _, _, [], _ => by rw [tableAt_nil, tableAt_nil]
  | 0, _, _ :: _, _ => rfl
  | n + 1, r, j :: q, h => by
    have hne : r ≠ t ∨ j ≠ i := by
      by_contra hc
      simp only [not_or, not_not] at hc
      exact h [] (by rw [tableAt_nil, hc.1]) (by simp [hc.2])
    rw [tableAt_cons, tableAt_cons, write_of_ne hne]
    cases hc : child (n + 1) (mem r j) with
    | none => rfl
    | some u =>
      refine tableAt_write fun p hp hpre => ?_
      refine h (j :: p) (by rw [tableAt_cons, hc]; exact hp) ?_
      simpa using hpre

/-- A lookup that does not come past the written entry reads what it did. -/
theorem trail_write : ∀ {n : Nat} {r : T} {q : List I},
    (∀ p, tableAt child mem n r p = some t → ¬ p ++ [i] <+: q) →
    trail child (write mem t i e) n r q = trail child mem n r q
  | n, _, [], _ => by cases n <;> rfl
  | n, r, j :: q, h => by
    have hne : r ≠ t ∨ j ≠ i := by
      by_contra hc
      simp only [not_or, not_not] at hc
      exact h [] (by rw [tableAt_nil, hc.1]) (by simp [hc.2])
    cases n with
    | zero => simp only [trail, write_of_ne hne]
    | succ n =>
      simp only [trail, write_of_ne hne]
      cases hc : child (n + 1) (mem r j) with
      | none => rfl
      | some u =>
        have hsub : ∀ p, tableAt child mem n u p = some t → ¬ p ++ [i] <+: q := by
          intro p hp hpre
          refine h (j :: p) (by rw [tableAt_cons, hc]; exact hp) ?_
          simpa using hpre
        simp only [trail_write hsub]

section Tree

variable (hD : Distinct child mem n r) (hp : tableAt child mem n r p = some t)
include hD hp

theorem Distinct.tableAt_write_off (hq : ¬ p ++ [i] <+: q) :
    tableAt child (write mem t i e) n r q = tableAt child mem n r q :=
  tableAt_write (hD.off_path hp hq)

theorem Distinct.trail_write_off (hq : ¬ p ++ [i] <+: q) :
    trail child (write mem t i e) n r q = trail child mem n r q :=
  trail_write (hD.off_path hp hq)

theorem Distinct.tableAt_write_self : tableAt child (write mem t i e) n r p = some t := by
  rw [hD.tableAt_write_off hp, hp]
  intro hpre
  have := hpre.length_le
  rw [List.length_append, List.length_singleton] at this
  omega

/-- The lookups past the written entry: unchanged up to it, then the new entry
and what it points to. -/
theorem Distinct.trail_write_on (q : List I) :
    trail child (write mem t i e) n r (p ++ i :: q) =
      trail child mem n r p ++ trail child (write mem t i e) (n - p.length) t (i :: q) := by
  rw [trail_append (hD.tableAt_write_self hp), hD.trail_write_off hp]
  intro hpre
  have := hpre.length_le
  rw [List.length_append, List.length_singleton] at this
  omega

-- Relabelling: the new entry has the child of the old one.

theorem Distinct.tableAt_relabel (hch : child (n - p.length) e = child (n - p.length) (mem t i))
    (q : List I) : tableAt child (write mem t i e) n r q = tableAt child mem n r q := by
  by_cases hq : p ++ [i] <+: q
  · obtain ⟨q, rfl⟩ := hq
    rw [List.append_assoc, List.singleton_append, tableAt_append hp,
      tableAt_append (hD.tableAt_write_self hp)]
    cases hk : n - p.length with
    | zero => rfl
    | succ k =>
      rw [hk] at hch
      rw [tableAt_cons, tableAt_cons, write_self, hch]
      cases hc : child (k + 1) (mem t i) with
      | none => rfl
      | some u =>
        refine tableAt_congr (fun v hv => write_table_of_ne ?_) q
        rintro rfl
        exact hD.not_below hp hk hc hv
  · exact hD.tableAt_write_off hp hq

theorem Distinct.relabel (hch : child (n - p.length) e = child (n - p.length) (mem t i)) :
    Distinct child (write mem t i e) n r := by
  intro p' q' v hp' hq'
  rw [hD.tableAt_relabel hp hch] at hp' hq'
  exact hD p' q' v hp' hq'

theorem Distinct.trail_relabel (hch : child (n - p.length) e = child (n - p.length) (mem t i))
    (q : List I) : trail child (write mem t i e) n r (p ++ i :: q) =
      (trail child mem n r (p ++ i :: q)).set p.length e := by
  rw [hD.trail_write_on hp, trail_append hp, ← length_trail hp,
    List.set_append_right _ _ (Nat.le_refl _), Nat.sub_self, length_trail hp]
  congr 1
  cases hk : n - p.length with
  | zero => simp [trail]
  | succ k =>
    rw [hk] at hch
    simp only [trail, write_self, List.set_cons_zero, hch]
    cases hc : child (k + 1) (mem t i) with
    | none => rfl
    | some u =>
      have hsub : ∀ v, InTree child mem k u v → write mem t i e v = mem v := by
        intro v hv
        refine write_table_of_ne ?_
        rintro rfl
        exact hD.not_below hp hk hc hv
      simp only [trail_congr hsub q]

-- Attaching: an entry without a child gets a new table without children.

variable {k : Nat} {row : I → E} (hk : n - p.length = k + 1)
  (hold : child (k + 1) (mem t i) = none) (hnew : child (k + 1) e = some u)
  (hu : ¬ InTree child mem n r u) (hrow : ∀ j, child k (row j) = none)

omit [DecidableEq I] hD hp in
include hu in
theorem update_congr : ∀ v, InTree child mem n r v → Function.update mem u row v = mem v := by
  intro v hv
  refine Function.update_of_ne ?_ _ _
  rintro rfl
  exact hu hv

include hk hold hnew hu hrow

theorem Distinct.tableAt_attach (q : List I) :
    tableAt child (write (Function.update mem u row) t i e) n r q =
      if q = p ++ [i] then some u else tableAt child mem n r q := by
  have hut : u ≠ t := by
    rintro rfl
    exact hu ⟨p, hp⟩
  have hsame : ∀ q, tableAt child (Function.update mem u row) n r q = tableAt child mem n r q :=
    tableAt_congr (update_congr hu)
  have hD1 : Distinct child (Function.update mem u row) n r := by
    intro p' q' v hp' hq'
    rw [hsame] at hp' hq'
    exact hD p' q' v hp' hq'
  have hp1 : tableAt child (Function.update mem u row) n r p = some t := by rw [hsame, hp]
  by_cases hq : p ++ [i] <+: q
  · obtain ⟨q, rfl⟩ := hq
    rw [List.append_assoc, List.singleton_append, tableAt_append (hD1.tableAt_write_self hp1),
      tableAt_append hp, hk, tableAt_cons, tableAt_cons, write_self, hnew, hold, Option.bind_some,
      Option.bind_none]
    cases q with
    | nil => rw [tableAt_nil, if_pos rfl]
    | cons j q =>
      rw [if_neg (by simp)]
      cases k with
      | zero => rfl
      | succ k =>
        rw [tableAt_cons, write_table_of_ne hut, Function.update_self, hrow j, Option.bind_none]
  · rw [hD1.tableAt_write_off hp1 hq, hsame, if_neg]
    rintro rfl
    exact hq (List.prefix_refl _)

theorem Distinct.attach :
    Distinct child (write (Function.update mem u row) t i e) n r := by
  intro p' q' v hp' hq'
  rw [hD.tableAt_attach hp hk hold hnew hu hrow] at hp' hq'
  split at hp' <;> split at hq'
  · next h1 h2 => rw [h1, h2]
  · next h1 h2 =>
    rw [Option.some.injEq] at hp'
    exact absurd ⟨q', hp' ▸ hq'⟩ hu
  · next h1 h2 =>
    rw [Option.some.injEq] at hq'
    exact absurd ⟨p', hq' ▸ hp'⟩ hu
  · exact hD p' q' v hp' hq'

theorem Distinct.inTree_attach (v : T) :
    InTree child (write (Function.update mem u row) t i e) n r v ↔
      InTree child mem n r v ∨ v = u := by
  constructor
  · rintro ⟨q, hq⟩
    rw [hD.tableAt_attach hp hk hold hnew hu hrow] at hq
    split at hq
    · exact Or.inr (Option.some.inj hq).symm
    · exact Or.inl ⟨q, hq⟩
  · rintro (⟨q, hq⟩ | rfl)
    · refine ⟨q, ?_⟩
      rw [hD.tableAt_attach hp hk hold hnew hu hrow, if_neg, hq]
      rintro rfl
      rw [tableAt_append hp, hk, tableAt_cons, hold] at hq
      simp at hq
    · exact ⟨p ++ [i], by rw [hD.tableAt_attach hp hk hold hnew hu hrow, if_pos rfl]⟩

omit hk hold hnew hrow in
theorem Distinct.trail_attach_off (hq : ¬ p ++ [i] <+: q) :
    trail child (write (Function.update mem u row) t i e) n r q = trail child mem n r q := by
  have hsame : ∀ q, tableAt child (Function.update mem u row) n r q = tableAt child mem n r q :=
    tableAt_congr (update_congr hu)
  rw [trail_write, trail_congr (update_congr hu)]
  intro p' hp'
  rw [hsame] at hp'
  exact hD.off_path hp hq p' hp'

theorem Distinct.trail_attach (j : I) (q : List I) :
    trail child (write (Function.update mem u row) t i e) n r (p ++ i :: j :: q) =
      trail child mem n r p ++ [e, row j] := by
  have hut : u ≠ t := by
    rintro rfl
    exact hu ⟨p, hp⟩
  have hself : tableAt child (write (Function.update mem u row) t i e) n r p = some t := by
    rw [hD.tableAt_attach hp hk hold hnew hu hrow, if_neg (by simp), hp]
  have hpre : ¬ p ++ [i] <+: p := by
    intro hpre
    have := hpre.length_le
    rw [List.length_append, List.length_singleton] at this
    omega
  rw [trail_append hself, hD.trail_attach_off hp hu hpre, hk]
  simp only [trail, write_self, hnew]
  cases k with
  | zero => simp [trail, write_table_of_ne hut]
  | succ k => simp [trail, write_table_of_ne hut, hrow j]

end Tree

section Detach

variable (hD : Distinct child mem n r) (hp : tableAt child mem n r p = some t)
include hD hp

-- Detaching: the new entry has no child.

theorem Distinct.tableAt_detach (hnone : child (n - p.length) e = none) (q : List I) :
    tableAt child (write mem t i e) n r q =
      if p ++ [i] <+: q then none else tableAt child mem n r q := by
  split
  · next hq =>
    obtain ⟨q, rfl⟩ := hq
    rw [List.append_assoc, List.singleton_append, tableAt_append (hD.tableAt_write_self hp)]
    cases hk : n - p.length with
    | zero => rfl
    | succ k =>
      rw [hk] at hnone
      rw [tableAt_cons, write_self, hnone, Option.bind_none]
  · next hq => exact hD.tableAt_write_off hp hq

theorem Distinct.detach (hnone : child (n - p.length) e = none) :
    Distinct child (write mem t i e) n r := by
  intro p' q' v hp' hq'
  rw [hD.tableAt_detach hp hnone] at hp' hq'
  split at hp' <;> split at hq'
  · simp at hp'
  · simp at hp'
  · simp at hq'
  · exact hD p' q' v hp' hq'

/-- Detaching a node without children takes that node out of the tree. -/
theorem Distinct.inTree_detach (hnone : child (n - p.length) e = none)
    (hk : n - p.length = 1) (hold : child 1 (mem t i) = some u) (v : T) :
    InTree child (write mem t i e) n r v ↔ InTree child mem n r v ∧ v ≠ u := by
  have hu : tableAt child mem n r (p ++ [i]) = some u := by
    rw [tableAt_append hp, hk, tableAt_cons, hold]
    rfl
  constructor
  · rintro ⟨q, hq⟩
    rw [hD.tableAt_detach hp hnone] at hq
    split at hq
    · simp at hq
    · next hpre =>
      refine ⟨⟨q, hq⟩, ?_⟩
      rintro rfl
      exact hpre (hD _ _ v hu hq ▸ List.prefix_refl _)
  · rintro ⟨⟨q, hq⟩, hv⟩
    refine ⟨q, ?_⟩
    rw [hD.tableAt_detach hp hnone, if_neg, hq]
    rintro ⟨q', rfl⟩
    rw [tableAt_append hu] at hq
    cases q' with
    | nil =>
      rw [tableAt_nil] at hq
      exact hv (Option.some.inj hq).symm
    | cons j q' =>
      rw [List.length_append, List.length_singleton, show n - (p.length + 1) = 0 by omega] at hq
      simp [tableAt] at hq

end Detach

section Ended

variable {k : Nat}

omit [DecidableEq T] [DecidableEq I] in
/-- Before, the lookups past the entry ended there. -/
theorem trail_of_child_none (hp : tableAt child mem n r p = some t) (hk : n - p.length = k + 1)
    (hold : child (k + 1) (mem t i) = none) (q : List I) :
    trail child mem n r (p ++ i :: q) = trail child mem n r p ++ [mem t i] := by
  rw [trail_append hp, hk]
  simp only [trail, hold]

end Ended

end Write

-- ---------------------------------------------------------------------------
-- Traversal
-- ---------------------------------------------------------------------------

section Traversal

variable (idx : List I) (mem : T → I → E)

/-- The tables below `t` in post-order, for `idx` the indices of a table. -/
def nodes : Nat → T → List T
  | 0, _ => []
  | n + 1, t => idx.flatMap fun i =>
    match child (n + 1) (mem t i) with
    | some u => nodes n u ++ [u]
    | none => []

variable {child idx mem}

/-- What the traversal lists for one entry is what lies on the paths through it. -/
theorem mem_below {n : Nat} {t v : T} {i : I}
    (ih : ∀ u, v ∈ nodes child idx mem n u ↔ ∃ j p, tableAt child mem n u (j :: p) = some v) :
    v ∈ (match child (n + 1) (mem t i) with
      | some u => nodes child idx mem n u ++ [u]
      | none => []) ↔ ∃ p, tableAt child mem (n + 1) t (i :: p) = some v := by
  simp only [tableAt_cons]
  cases hc : child (n + 1) (mem t i) with
  | none => simp
  | some u =>
    simp only [List.mem_append, List.mem_singleton, Option.bind_some, ih]
    constructor
    · rintro (⟨j, p, hp⟩ | rfl)
      · exact ⟨j :: p, hp⟩
      · exact ⟨[], tableAt_nil⟩
    · rintro ⟨p, hp⟩
      cases p with
      | nil => exact .inr (Option.some.inj (tableAt_nil.symm.trans hp)).symm
      | cons j p => exact .inl ⟨j, p, hp⟩

theorem mem_nodes (hall : ∀ i, i ∈ idx) : ∀ {n : Nat} {t v : T},
    v ∈ nodes child idx mem n t ↔ ∃ i p, tableAt child mem n t (i :: p) = some v
  | 0, t, v => by simp [nodes, tableAt]
  | n + 1, t, v => by
    rw [nodes, List.mem_flatMap]
    constructor
    · rintro ⟨i, -, hv⟩
      exact ⟨i, (mem_below fun _ => mem_nodes hall).mp hv⟩
    · rintro ⟨i, hp⟩
      exact ⟨i, hall i, (mem_below fun _ => mem_nodes hall).mpr hp⟩

theorem Distinct.nodup_nodes (hall : ∀ i, i ∈ idx) (hnd : idx.Nodup) : ∀ {n : Nat} {t : T},
    Distinct child mem n t → (nodes child idx mem n t).Nodup
  | 0, _, _ => by simp [nodes]
  | n + 1, t, hD => by
    rw [nodes, List.nodup_flatMap]
    refine ⟨fun i _ => ?_, hnd.imp fun {i j} hij => ?_⟩
    · cases hc : child (n + 1) (mem t i) with
      | none => simp
      | some u =>
        simp only
        rw [List.nodup_append]
        refine ⟨(hD.sub hc).nodup_nodes hall hnd, by simp, fun a ha b hb hab => ?_⟩
        obtain ⟨j, p, hp⟩ := (mem_nodes hall).mp ha
        rw [List.mem_singleton] at hb
        have hroot : tableAt child mem n u [] = some a := by rw [tableAt_nil, hab, hb]
        exact List.cons_ne_nil j p (hD.sub hc _ _ a hp hroot)
    · -- a table below two entries would be reached along two paths
      intro v hvi hvj
      obtain ⟨p, hp⟩ := (mem_below fun _ => mem_nodes hall).mp hvi
      obtain ⟨q, hq⟩ := (mem_below fun _ => mem_nodes hall).mp hvj
      exact hij (List.cons.inj (hD _ _ v hp hq)).1

end Traversal

end Radix
