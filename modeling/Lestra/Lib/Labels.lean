import Mathlib.Data.List.Basic

/-!
# Names that are divided into labels

A name is divided at its separators, and a separator at its end divides nothing. Joining the
labels again puts a separator behind each of them.
-/

namespace Labels

variable {α : Type*} [DecidableEq α] (sep : α)

/-- The labels of a name. -/
def split (name : List α) : List (List α) :=
  let parts := name.splitOn sep
  if parts.getLast? = some [] then parts.dropLast else parts

/-- The labels, each with a separator behind it. -/
def join (labels : List (List α)) : List α := labels.flatMap (· ++ [sep])

variable {sep} {label rest name : List α} {labels : List (List α)}

theorem split_nil : split sep ([] : List α) = [] := rfl

theorem split_last (h : sep ∉ label) (hne : label ≠ []) : split sep label = [label] := by
  rw [split, List.splitOn_eq_singleton h]
  exact if_neg fun hlast => hne (Option.some.inj hlast)

theorem split_cons (h : sep ∉ label) (rest : List α) :
    split sep (label ++ sep :: rest) = label :: split sep rest := by
  have hne : rest.splitOn sep ≠ [] := List.splitOn_ne_nil sep rest
  rw [split, split, List.splitOn_append_cons_self_of_not_mem h,
    List.getLast?_cons_of_ne_nil hne, List.dropLast_cons_of_ne_nil hne]
  split <;> rfl

/-- Induction over the labels of a name. -/
theorem induct (sep : α) {motive : List α → Prop} (nil : motive [])
    (last : ∀ label, sep ∉ label → label ≠ [] → motive label)
    (cons : ∀ label rest, sep ∉ label → motive rest → motive (label ++ sep :: rest))
    (name : List α) : motive name := by
  induction hn : name.length using Nat.strongRecOn generalizing name with
  | ind n ih =>
    by_cases hmem : sep ∈ name
    · obtain ⟨label, rest, rfl, hnot⟩ := List.eq_append_cons_of_mem hmem
      refine cons label rest hnot (ih rest.length ?_ rest rfl)
      rw [← hn, List.length_append, List.length_cons]
      omega
    · by_cases hnil : name = []
      · rw [hnil]
        exact nil
      · exact last name hmem hnil

omit [DecidableEq α] in
theorem join_cons : join sep (label :: labels) = label ++ sep :: join sep labels := by
  rw [join, List.flatMap_cons, List.append_assoc]
  rfl

theorem not_mem_of_split : ∀ label ∈ split sep name, sep ∉ label := by
  induction name using induct sep with
  | nil => exact nofun
  | last label h hne =>
    rw [split_last h hne]
    exact List.forall_mem_singleton.mpr h
  | cons label rest h ih =>
    rw [split_cons h]
    exact List.forall_mem_cons.mpr ⟨h, ih⟩

/-- Joined again, a name is as before, or has got a separator at its end. -/
theorem join_split (name : List α) :
    join sep (split sep name) = name ∨ join sep (split sep name) = name ++ [sep] := by
  induction name using induct sep with
  | nil => exact .inl rfl
  | last label h hne =>
    rw [split_last h hne]
    exact .inr (List.append_nil _)
  | cons label rest h ih =>
    rw [split_cons h, join_cons]
    rcases ih with ih | ih
    · exact .inl (by rw [ih])
    · exact .inr (by rw [ih, List.append_assoc, List.cons_append])

theorem split_join (h : ∀ label ∈ labels, sep ∉ label) : split sep (join sep labels) = labels := by
  induction labels with
  | nil => rfl
  | cons label labels ih =>
    rw [List.forall_mem_cons] at h
    rw [join_cons, split_cons h.1, ih h.2]

end Labels
