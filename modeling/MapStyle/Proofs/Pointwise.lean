import Mathlib.Data.List.Forall2
import Mathlib.Tactic.Lemma

/-!
# Lists element by element

When an operation that can fail is done to each element of a list: it succeeds as a whole if it succeeds
everywhere, and then with the results in their places.
-/

namespace MapStyle

variable {α β : Type} {f : α → Option β} {xs : List α} {ys : List β}

lemma mapM_eq_some_iff : xs.mapM f = some ys ↔ List.Forall₂ (fun x y => f x = some y) xs ys := by
  induction xs generalizing ys with
  | nil => simp [eq_comm]
  | cons x xs ih =>
    rw [List.mapM_cons, List.forall₂_cons_left_iff]
    simp only [Option.bind_eq_bind, Option.bind_eq_some_iff, ih]
    constructor
    · rintro ⟨y, hy, ys, hys, ⟨⟩⟩
      exact ⟨y, ys, hy, hys, rfl⟩
    · rintro ⟨y, ys, hy, hys, rfl⟩
      exact ⟨y, hy, ys, hys, rfl⟩

lemma mapM_eq_none_iff : xs.mapM f = none ↔ ∃ x ∈ xs, f x = none := by
  induction xs with
  | nil => simp
  | cons x xs ih =>
    rw [List.exists_mem_cons_iff, ← ih]
    cases hx : f x <;> cases hxs : xs.mapM f <;> simp [List.mapM_cons, hx, hxs]

lemma exists_of_mapM_eq_some {y : β} (h : xs.mapM f = some ys) (hy : y ∈ ys) :
    ∃ x ∈ xs, f x = some y := by
  rw [mapM_eq_some_iff] at h
  induction h with
  | nil => cases hy
  | cons hfirst _ ih =>
    obtain rfl | hy := List.mem_cons.mp hy
    · exact ⟨_, List.mem_cons_self, hfirst⟩
    · obtain ⟨x, hx, hfx⟩ := ih hy
      exact ⟨x, List.mem_cons_of_mem _ hx, hfx⟩

/-- An operation that leaves each element as it is leaves the list as it is. -/
lemma mapM_eq_some_self {f : α → Option α} (h : ∀ x ∈ xs, f x = some x) : xs.mapM f = some xs :=
  mapM_eq_some_iff.mpr (List.forall₂_same.mpr h)

end MapStyle
