import Mathlib.Data.List.TakeWhile

/-!
# Fields between blanks

A text is cut into the fields between its blanks. `Spaced` says which fields a text has, and
`cut` reads at most so many of them.
-/

namespace Fields

variable {α : Type*} (blank : α → Bool)

/-- The text has the fields, with blanks between them and around them. -/
inductive Spaced : List (List α) → List α → Prop
  | nil : Spaced [] []
  | blank {fs c s} : blank c = true → Spaced fs s → Spaced fs (c :: s)
  | last {f} : f ≠ [] → (∀ c ∈ f, blank c = false) → Spaced [f] f
  | field {fs f c s} : f ≠ [] → (∀ c ∈ f, blank c = false) → blank c = true → Spaced fs s →
      Spaced (f :: fs) (f ++ c :: s)

/-- At most so many fields; what follows the last is not looked at. -/
def cut : ℕ → List α → List (List α)
  | 0, _ => []
  | n + 1, s =>
    match s.dropWhile blank with
    | [] => []
    | q => q.takeWhile (!blank ·) :: cut n (q.dropWhile (!blank ·)).tail

variable {blank} {fs gs : List (List α)} {f s : List α} {c : α}

theorem cut_blank (h : blank c = true) (n : ℕ) : cut blank n (c :: s) = cut blank n s := by
  cases n with
  | zero => rfl
  | succ n => rw [cut, cut, List.dropWhile_cons_of_pos h]

theorem cut_nil (n : ℕ) : cut blank n [] = [] := by
  cases n <;> rfl

/-- A field at the front, up to a blank or to the end. -/
theorem cut_field (hne : f ≠ []) (hf : ∀ c ∈ f, blank c = false)
    (hs : ∀ c ∈ s.head?, blank c = true) (n : ℕ) :
    cut blank (n + 1) (f ++ s) = f :: cut blank n s.tail := by
  obtain ⟨a, f', rfl⟩ := List.exists_cons_of_ne_nil hne
  have hdrop : (a :: f' ++ s).dropWhile blank = a :: (f' ++ s) := by
    rw [List.cons_append, List.dropWhile_cons_of_neg]
    rw [hf a List.mem_cons_self]
    exact Bool.false_ne_true
  have hall : ∀ c ∈ a :: f', (!blank c) = true := fun c hc => by rw [hf c hc]; rfl
  have hhead : s.takeWhile (!blank ·) = [] ∧ s.dropWhile (!blank ·) = s := by
    cases s with
    | nil => exact ⟨rfl, rfl⟩
    | cons b s =>
      have hb : (!blank b) = false := by rw [hs b rfl]; rfl
      exact ⟨List.takeWhile_cons_of_neg (by rw [hb]; exact Bool.false_ne_true),
        List.dropWhile_cons_of_neg (by rw [hb]; exact Bool.false_ne_true)⟩
  rw [cut, hdrop]
  dsimp only
  rw [← List.cons_append, List.takeWhile_append_of_pos hall, List.dropWhile_append_of_pos hall,
    hhead.1, hhead.2, List.append_nil]

/-- The fields that are read are the first fields of the text. -/
theorem Spaced.cut_eq (h : Spaced blank fs s) (n : ℕ) : cut blank n s = fs.take n := by
  induction h generalizing n with
  | nil => rw [cut_nil, List.take_nil]
  | blank hc _ ih => rw [cut_blank hc, ih]
  | @last f hne hf =>
    cases n with
    | zero => rfl
    | succ n =>
      have hcut := cut_field (s := []) hne hf (fun _ => nofun) n
      rw [List.append_nil] at hcut
      rw [hcut, List.tail_nil, cut_nil, List.take_succ_cons, List.take_nil]
  | @field fs f c s hne hf hc _ ih =>
    cases n with
    | zero => rfl
    | succ n =>
      rw [cut_field hne hf (by rintro _ ⟨⟩; exact hc), List.tail_cons, ih, List.take_succ_cons]

/-- A further character in front is a field of its own, or extends the first one. -/
theorem Spaced.push (h : Spaced blank fs s) (hc : blank c = false) :
    ∃ gs, Spaced blank gs (c :: s) := by
  have hone : ∀ a ∈ [c], blank a = false := List.forall_mem_singleton.mpr hc
  cases h with
  | nil => exact ⟨_, .last (List.cons_ne_nil _ _) hone⟩
  | blank hb h => exact ⟨_, .field (List.cons_ne_nil _ _) hone hb h⟩
  | last _ hf => exact ⟨_, .last (List.cons_ne_nil _ _) (List.forall_mem_cons.mpr ⟨hc, hf⟩)⟩
  | field _ hf hb h =>
    exact ⟨_, .field (List.cons_ne_nil _ _) (List.forall_mem_cons.mpr ⟨hc, hf⟩) hb h⟩

/-- Every text has fields. -/
theorem exists_spaced (blank : α → Bool) (s : List α) : ∃ fs, Spaced blank fs s := by
  induction s with
  | nil => exact ⟨[], .nil⟩
  | cons c s ih =>
    obtain ⟨fs, hfs⟩ := ih
    cases hc : blank c with
    | true => exact ⟨fs, hfs.blank hc⟩
    | false => exact hfs.push hc

/-- A text has its fields in one way only. -/
theorem Spaced.unique (h : Spaced blank fs s) (h' : Spaced blank gs s) : fs = gs := by
  have hfs := h.cut_eq (max fs.length gs.length)
  have hgs := h'.cut_eq (max fs.length gs.length)
  rw [List.take_of_length_le (le_max_left _ _)] at hfs
  rw [List.take_of_length_le (le_max_right _ _)] at hgs
  exact hfs.symm.trans hgs

end Fields
