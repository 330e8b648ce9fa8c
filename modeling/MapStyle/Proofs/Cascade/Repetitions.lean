import Mathlib.Data.List.Basic
import Mathlib.Data.List.Induction
import Mathlib.Tactic.Lemma
import MapStyle.Text

/-!
# Leaving out repetitions

Lists of keys, of attachments and of attribute names hold each element once. In an order of first
appearance each one stands where it came first; in the order of code points, only what is named counts.
-/

namespace MapStyle

/-! ### The order of first appearance -/

section

variable {α : Type} [BEq α] [LawfulBEq α]

/-- What is added at the end makes a difference only if it is new. -/
lemma eraseDups_concat (xs : List α) (a : α) :
    (xs ++ [a]).eraseDups = xs.eraseDups ++ if a ∈ xs.eraseDups then [] else [a] := by
  rw [List.eraseDups_append]
  by_cases h : a ∈ xs <;> simp [h, List.removeAll, List.mem_eraseDups, List.eraseDups_cons]

lemma nodup_eraseDups (xs : List α) : xs.eraseDups.Nodup := by
  match xs with
  | [] => exact List.nodup_nil
  | a :: xs =>
    rw [List.eraseDups_cons, List.nodup_cons]
    exact ⟨by simp [List.mem_eraseDups], nodup_eraseDups _⟩
termination_by xs.length
decreasing_by exact Nat.lt_succ_of_le (List.length_filter_le ..)

/-- Leaving out repetitions behind a list first makes no difference. -/
lemma eraseDups_append_eraseDups (xs ys : List α) :
    (xs ++ ys.eraseDups).eraseDups = (xs ++ ys).eraseDups := by
  induction ys using List.reverseRecOn with
  | nil => rfl
  | append_singleton ys y ih =>
    rw [eraseDups_concat, ← List.append_assoc xs ys, eraseDups_concat, ← ih]
    by_cases hy : y ∈ ys.eraseDups
    · simp [hy]
    · rw [if_neg hy, ← List.append_assoc, eraseDups_concat]

/-- Of what stands in front, only the elements and their order of first appearance count. -/
lemma eraseDups_append_congr {xs xs' : List α} (h : xs.eraseDups = xs'.eraseDups) (ys : List α) :
    (xs ++ ys).eraseDups = (xs' ++ ys).eraseDups := by
  induction ys using List.reverseRecOn with
  | nil => rw [List.append_nil, List.append_nil, h]
  | append_singleton ys y ih =>
    rw [← List.append_assoc, ← List.append_assoc, eraseDups_concat, eraseDups_concat, ih]

/-- Leaving out repetitions in each of some lists first makes no difference. -/
lemma eraseDups_flatMap_eraseDups (xss : List (List α)) :
    (xss.flatMap List.eraseDups).eraseDups = xss.flatten.eraseDups := by
  induction xss using List.reverseRecOn with
  | nil => rfl
  | append_singleton xss ys ih =>
    rw [List.flatMap_append, List.flatMap_singleton, eraseDups_append_eraseDups,
      eraseDups_append_congr ih, List.flatten_append, List.flatten_singleton]

/-- Each element that is kept stands where it comes first. -/
lemma pairwise_idxOf_eraseDups (l : List α) :
    l.eraseDups.Pairwise fun a b => l.idxOf a < l.idxOf b := by
  induction l using List.reverseRecOn with
  | nil => exact .nil
  | append_singleton l a ih =>
    have hearlier : l.eraseDups.Pairwise fun b c => (l ++ [a]).idxOf b < (l ++ [a]).idxOf c := by
      apply ih.imp_of_mem
      intro b c hb hc h
      rwa [List.idxOf_append_of_mem (List.mem_eraseDups.mp hb),
        List.idxOf_append_of_mem (List.mem_eraseDups.mp hc)]
    rw [eraseDups_concat]
    split
    · rwa [List.append_nil]
    · next ha =>
      rw [List.pairwise_append]
      refine ⟨hearlier, List.pairwise_singleton _ _, ?_⟩
      intro b hb c hc
      obtain rfl := List.mem_singleton.mp hc
      rw [List.mem_eraseDups] at hb ha
      rw [List.idxOf_append_of_mem hb, List.idxOf_append_of_notMem ha]
      exact Nat.lt_add_right _ (List.idxOf_lt_length_of_mem hb)

end

/-! ### The order of code points -/

namespace Text

lemma mem_eraseReps_loop (a x : String) (names acc : List String) :
    x ∈ List.eraseRepsBy.loop (· == ·) a names acc ↔ x = a ∨ x ∈ names ∨ x ∈ acc := by
  induction names generalizing a acc with
  | nil => simp [List.eraseRepsBy.loop, or_comm]
  | cons b names ih =>
    rw [List.eraseRepsBy.loop]
    by_cases h : a = b
    · simp only [h, beq_self_eq_true, ih, List.mem_cons]
      grind
    · simp only [beq_eq_false_iff_ne.mpr h, ih, List.mem_cons]
      grind

@[simp] lemma mem_sortedNames (x : String) (names : List String) :
    x ∈ sortedNames names ↔ x ∈ names := by
  have hsort : x ∈ names.mergeSort (· ≤ ·) ↔ x ∈ names := List.mem_mergeSort
  rw [sortedNames, List.eraseReps, ← hsort]
  cases names.mergeSort (· ≤ ·) with
  | nil => simp [List.eraseRepsBy]
  | cons a names => simp [List.eraseRepsBy, mem_eraseReps_loop]

end Text

end MapStyle
