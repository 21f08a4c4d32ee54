import Mathlib.Data.List.Induction
import Mathlib.Data.List.GetD
import Mathlib.Logic.Function.Basic
import Mathlib.Order.Nat
import Mathlib.Order.MinMax

/-!
# Output with a limit

Values are put out one after the other into a buffer. Those from the limit on are counted but
not stored, so the count is that of the whole text and the buffer holds a prefix of it.
-/

namespace Sink

variable {α : Type*}

structure Out (α : Type*) where
  buf : ℕ → α
  count : ℕ

/-- One value is put out. -/
def put (limit : ℕ) (o : Out α) (c : α) : Out α :=
  ⟨if o.count < limit then Function.update o.buf o.count c else o.buf, o.count + 1⟩

def putAll (limit : ℕ) (o : Out α) (text : List α) : Out α := text.foldl (put limit) o

/-- The operation puts out the text. -/
def Emits (limit : ℕ) (f : Out α → Out α) (text : List α) : Prop := ∀ o, f o = putAll limit o text

/-- The end of the text, or of the buffer. -/
def finish (limit : ℕ) (nul : α) (o : Out α) : ℕ → α :=
  Function.update o.buf (min o.count limit) nul

variable {limit : ℕ} {f g : Out α → Out α} {s t : List α}

theorem emits_id : Emits limit (id : Out α → Out α) [] := fun _ => rfl

theorem emits_put (c : α) : Emits limit (fun o => put limit o c) [c] := fun _ => rfl

/-- Texts are put out one behind the other. -/
theorem Emits.comp (hf : Emits limit f s) (hg : Emits limit g t) :
    Emits limit (fun o => g (f o)) (s ++ t) := fun o => by
  change g (f o) = _
  rw [hg, hf, putAll, putAll, putAll, List.foldl_append]

theorem putAll_concat (o : Out α) (s : List α) (c : α) :
    putAll limit o (s ++ [c]) = put limit (putAll limit o s) c := by
  rw [putAll, List.foldl_append]
  rfl

theorem putAll_count (o : Out α) (s : List α) :
    (putAll limit o s).count = o.count + s.length := by
  induction s using List.reverseRecOn with
  | nil => rfl
  | append_singleton s c ih =>
    rw [putAll_concat, put, ih, List.length_append, List.length_singleton, Nat.add_assoc]

/-- The buffer holds the text up to the limit, and behind it what was there before. -/
theorem putAll_buf (b : ℕ → α) (s : List α) (i : ℕ) :
    (putAll limit ⟨b, 0⟩ s).buf i = (s.take limit).getD i (b i) := by
  induction s using List.reverseRecOn with
  | nil => rw [List.take_nil, List.getD_nil]; rfl
  | append_singleton s c ih =>
    have hcount : (putAll limit ⟨b, 0⟩ s).count = s.length := by rw [putAll_count, Nat.zero_add]
    rw [putAll_concat, put, hcount]
    dsimp only
    by_cases hlt : s.length < limit
    · have hle : (s ++ [c]).length ≤ limit := by
        rw [List.length_append, List.length_singleton]
        exact hlt
      rw [List.take_of_length_le hlt.le] at ih
      rw [if_pos hlt, List.take_of_length_le hle]
      rcases lt_trichotomy i s.length with hi | rfl | hi
      · rw [Function.update_of_ne hi.ne, ih, List.getD_append _ _ _ _ hi]
      · rw [Function.update_self, List.getD_append_right _ _ _ _ le_rfl, Nat.sub_self]
        rfl
      · rw [Function.update_of_ne hi.ne', ih, List.getD_eq_default _ _ hi.le,
          List.getD_eq_default _ _ (by rw [List.length_append, List.length_singleton]; exact hi)]
    · rw [if_neg hlt, ih, List.take_append_of_le_length (not_lt.mp hlt)]

/-- **What a finished text leaves.** A prefix, the terminator, and the old values behind it. -/
theorem finish_putAll (b : ℕ → α) (nul : α) (s : List α) (i : ℕ) :
    finish limit nul (putAll limit ⟨b, 0⟩ s) i =
      if i < min s.length limit then s.getD i nul
      else if i = min s.length limit then nul else b i := by
  rw [finish, putAll_count, Nat.zero_add]
  rcases lt_trichotomy i (min s.length limit) with hi | rfl | hi
  · rw [Function.update_of_ne hi.ne, if_pos hi, putAll_buf]
    obtain ⟨hs, hl⟩ := lt_min_iff.mp hi
    rw [List.getD_eq_getElem _ _ (by rw [List.length_take]; exact lt_min hl hs),
      List.getD_eq_getElem _ _ hs, List.getElem_take]
  · rw [Function.update_self, if_neg (lt_irrefl _), if_pos rfl]
  · rw [Function.update_of_ne hi.ne', if_neg (not_lt.mpr hi.le), if_neg hi.ne', putAll_buf,
      List.getD_eq_default]
    rw [List.length_take, min_comm]
    exact hi.le

end Sink
