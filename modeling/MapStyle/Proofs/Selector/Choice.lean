import Mathlib.Data.List.Basic
import MapStyle.Cascade
import MapStyle.Proofs.Selector.Merge

/-!
# Choices of selectors along a path

Each rule on a path has a list of selectors. Merging these lists pair by pair, as nested rules are
read, gives one selector for each way to choose a selector from every list such that the chosen ones
are pairwise compatible; the choices come in lexicographic order.
-/

namespace MapStyle.Selector

variable {P : Type}

/-- The ways to choose one selector from each list, in lexicographic order. -/
def choices : List (List (Selector P)) → List (List (Selector P))
  | [] => [[]]
  | own :: rest => own.flatMap fun s => (choices rest).map (s :: ·)

/-- The choices of pairwise compatible selectors. -/
def agreeing (lists : List (List (Selector P))) : List (List (Selector P)) :=
  (choices lists).filter fun choice => choice.Pairwise Compatible

/-- The selectors to which the choices can be merged. -/
def mergedChoices (lists : List (List (Selector P))) : List (Selector P) :=
  (choices lists).filterMap mergeAll

lemma ne_nil_of_mem_choices {lists : List (List (Selector P))} (h : lists ≠ [])
    {choice : List (Selector P)} (hc : choice ∈ choices lists) : choice ≠ [] := by
  obtain ⟨own, rest, rfl⟩ := List.exists_cons_of_ne_nil h
  simp only [choices, List.mem_flatMap, List.mem_map] at hc
  obtain ⟨s, _, row, _, rfl⟩ := hc
  exact List.cons_ne_nil s row

/-- The chosen selectors stand in the lists. -/
lemma exists_mem_of_mem_choices {lists : List (List (Selector P))} {choice : List (Selector P)}
    (hc : choice ∈ choices lists) {s : Selector P} (hs : s ∈ choice) : ∃ own ∈ lists, s ∈ own := by
  induction lists generalizing choice with
  | nil =>
    rw [choices, List.mem_singleton] at hc
    simp [hc] at hs
  | cons own rest ih =>
    simp only [choices, List.mem_flatMap, List.mem_map] at hc
    obtain ⟨t, ht, row, hrow, rfl⟩ := hc
    rcases List.mem_cons.mp hs with rfl | hs
    · exact ⟨own, List.mem_cons_self, ht⟩
    · obtain ⟨other, hother, hs⟩ := ih hrow hs
      exact ⟨other, List.mem_cons_of_mem own hother, hs⟩

lemma choices_concat (lists : List (List (Selector P))) (own : List (Selector P)) :
    choices (lists ++ [own]) =
      (choices lists).flatMap fun choice => own.map fun s => choice ++ [s] := by
  induction lists with
  | nil => simp [choices, List.map_eq_flatMap]
  | cons first rest ih =>
    simp only [List.cons_append, choices, ih, List.flatMap_assoc, List.map_flatMap,
      List.flatMap_map, List.map_map]
    rfl

lemma mem_agreeing {lists : List (List (Selector P))} {choice : List (Selector P)} :
    choice ∈ agreeing lists ↔ choice ∈ choices lists ∧ choice.Pairwise Compatible := by
  simp [agreeing]

/-- A choice that agrees also agrees on the part of the path above. -/
lemma agreeing_concat_eq_nil {lists : List (List (Selector P))} (h : agreeing lists = [])
    (own : List (Selector P)) : agreeing (lists ++ [own]) = [] := by
  rw [List.eq_nil_iff_forall_not_mem] at h ⊢
  intro choice hc
  rw [mem_agreeing, choices_concat, List.mem_flatMap] at hc
  obtain ⟨⟨row, hrow, hs⟩, hpair⟩ := hc
  obtain ⟨s, _, rfl⟩ := List.mem_map.mp hs
  exact h row (mem_agreeing.mpr ⟨hrow, hpair.sublist (List.sublist_append_left row [s])⟩)

@[simp] lemma mergedChoices_nil : mergedChoices ([] : List (List (Selector P))) = [] := rfl

@[simp] lemma mergedChoices_singleton (own : List (Selector P)) : mergedChoices [own] = own := by
  simp [mergedChoices, choices, List.filterMap_flatMap]

/-- Each choice of compatible selectors gives one merged selector, and no other choice does. -/
lemma map_some_mergedChoices {lists : List (List (Selector P))} (h : lists ≠ []) :
    (mergedChoices lists).map some = (agreeing lists).map mergeAll := by
  have hrows : ∀ row ∈ choices lists, row ≠ [] := fun _ => ne_nil_of_mem_choices h
  rw [mergedChoices, agreeing]
  generalize choices lists = rows at hrows ⊢
  induction rows with
  | nil => rfl
  | cons row rows ih =>
    rw [List.forall_mem_cons] at hrows
    have hrow := mergeAll_isSome_iff hrows.1
    rw [List.filterMap_cons, List.filter_cons]
    cases hm : mergeAll row with
    | none =>
      rw [hm] at hrow
      simpa [← hrow] using ih hrows.2
    | some m =>
      rw [hm] at hrow
      simpa [← hrow, hm] using ih hrows.2

lemma mergedChoices_eq_nil_iff {lists : List (List (Selector P))} (h : lists ≠ []) :
    mergedChoices lists = [] ↔ agreeing lists = [] := by
  rw [← List.map_eq_nil_iff (f := some), map_some_mergedChoices h, List.map_eq_nil_iff]

/-- One more list of selectors is merged pair by pair into what the lists before it gave. -/
lemma mergedChoices_concat {lists : List (List (Selector P))} (h : lists ≠ [])
    (own : List (Selector P)) :
    mergedChoices (lists ++ [own]) = (mergedChoices lists).flatMap fun s => own.filterMap s.merge := by
  have hrows : ∀ row ∈ choices lists, row ≠ [] := fun _ => ne_nil_of_mem_choices h
  rw [mergedChoices, choices_concat, mergedChoices]
  generalize choices lists = rows at hrows ⊢
  induction rows with
  | nil => rfl
  | cons row rows ih =>
    rw [List.forall_mem_cons] at hrows
    rw [List.flatMap_cons, List.filterMap_append, ih hrows.2, List.filterMap_cons,
      List.filterMap_map]
    have hrow : mergeAll ∘ (fun s => row ++ [s]) = fun s => (mergeAll row).bind (·.merge s) :=
      funext fun s => mergeAll_concat hrows.1 s
    rw [hrow]
    cases mergeAll row <;> simp

end MapStyle.Selector
