import Mathlib.Tactic.Lemma
import Mathlib.Data.List.Basic
import MapStyle.Selector
import MapStyle.Proofs.Evaluation.Verdicts

/-!
# Merging selectors along a path

The selector of a nested rule is merged into the one around it, step by step from the outermost
rule inwards. The outcome does not depend on the steps: a row of selectors can be merged exactly if
any two of them are compatible, and the merged selector accepts a candidate exactly if each of them
does.
-/

namespace MapStyle.Selector

variable {P : Type}

/-! ### Compatible selectors -/

/-- Optional parts are consistent unless both are present and differ. -/
def Consistent (a b : Option String) : Prop :=
  ∀ x ∈ a, ∀ y ∈ b, x = y

/-- Selectors are compatible if they agree on name, identifier and attachment, where a missing part
agrees with any other. -/
def Compatible (s t : Selector P) : Prop :=
  Consistent s.name t.name ∧ Consistent s.id t.id ∧ Consistent s.attachment t.attachment

instance (a b : Option String) : Decidable (Consistent a b) :=
  inferInstanceAs (Decidable (∀ x ∈ a, ∀ y ∈ b, x = y))

instance : DecidableRel (Compatible (P := P)) := fun _ _ =>
  inferInstanceAs (Decidable (_ ∧ _ ∧ _))

lemma agree_isSome_iff (a b : Option String) : (agree a b).isSome ↔ Consistent a b := by
  cases a with
  | none => simp [agree, Consistent]
  | some x =>
    cases b with
    | none => simp [agree, Consistent]
    | some y => by_cases h : x = y <;> simp [agree, Consistent, h]

lemma mem_of_agree {a b c : Option String} (h : agree a b = some c) (x : String) :
    x ∈ c ↔ x ∈ a ∨ x ∈ b := by
  cases a with
  | none =>
    cases h
    simp
  | some y =>
    cases b with
    | none =>
      cases h
      simp
    | some z =>
      simp only [agree] at h
      split at h
      · next hyz =>
        cases h
        simp [hyz]
      · cases h

/-- A part is consistent with an agreed one if it is with both of its sources. -/
lemma consistent_agree {a b c : Option String} (h : agree a b = some c) (d : Option String) :
    Consistent c d ↔ Consistent a d ∧ Consistent b d := by
  simp only [Consistent, mem_of_agree h]
  constructor
  · intro hc
    exact ⟨fun x hx => hc x (.inl hx), fun x hx => hc x (.inr hx)⟩
  · rintro ⟨ha, hb⟩ x (hx | hx)
    · exact ha x hx
    · exact hb x hx

/-! ### Merging two selectors -/

/-- All that a merged selector takes from its two sources. -/
structure Merges (s t m : Selector P) : Prop where
  name : agree s.name t.name = some m.name
  id : agree s.id t.id = some m.id
  attachment : agree s.attachment t.attachment = some m.attachment
  classes : m.classes = mergeClasses s.classes t.classes
  wildcard : m.wildcard = ((s.wildcard || t.wildcard) && m.name.isNone && m.id.isNone)
  filter : m.filter = mergeFilters s.filter t.filter

lemma merges_of_merge {s t m : Selector P} (h : s.merge t = some m) : Merges s t m := by
  simp only [merge, Option.bind_eq_bind, Option.bind_eq_some_iff, Option.pure_def,
    Option.some.injEq] at h
  obtain ⟨name, hname, id, hid, attachment, hattachment, rfl⟩ := h
  exact ⟨hname, hid, hattachment, rfl, rfl, rfl⟩

lemma merge_isSome_iff (s t : Selector P) : (s.merge t).isSome ↔ Compatible s t := by
  simp only [merge, Compatible, ← agree_isSome_iff]
  cases agree s.name t.name <;> cases agree s.id t.id <;>
    cases agree s.attachment t.attachment <;> simp

/-- A selector is compatible with a merged one if it is with both of its sources. -/
lemma compatible_merge {s t m : Selector P} (h : s.merge t = some m) (u : Selector P) :
    Compatible m u ↔ Compatible s u ∧ Compatible t u := by
  have hm := merges_of_merge h
  simp only [Compatible, consistent_agree hm.name, consistent_agree hm.id,
    consistent_agree hm.attachment]
  tauto

/-! ### Merging a row of selectors -/

/-- The selectors of a row merged one after another, from the first one on. -/
def mergeAll : List (Selector P) → Option (Selector P)
  | [] => none
  | s :: ss => ss.foldlM merge s

@[simp] lemma mergeAll_singleton (s : Selector P) : mergeAll [s] = some s := rfl

lemma mergeAll_concat {row : List (Selector P)} (h : row ≠ []) (t : Selector P) :
    mergeAll (row ++ [t]) = (mergeAll row).bind (·.merge t) := by
  obtain ⟨s, ss, rfl⟩ := List.exists_cons_of_ne_nil h
  simp only [List.cons_append, mergeAll, List.foldlM_append]
  cases ss.foldlM merge s <;> simp

lemma mergeAll_cons_cons (s t : Selector P) (ss : List (Selector P)) :
    mergeAll (s :: t :: ss) = (s.merge t).bind fun m => mergeAll (m :: ss) := rfl

/-- Merging step by step succeeds exactly if the selectors of the row are pairwise compatible. -/
lemma mergeAll_isSome_iff {row : List (Selector P)} (h : row ≠ []) :
    (mergeAll row).isSome ↔ row.Pairwise Compatible := by
  obtain ⟨s, ss, rfl⟩ := List.exists_cons_of_ne_nil h
  clear h
  -- the first selector stays free: in the step it becomes the one merged from the first two
  induction ss generalizing s with
  | nil => simp
  | cons t ss ih =>
    rw [mergeAll_cons_cons, List.pairwise_cons, List.pairwise_cons, List.forall_mem_cons,
      ← merge_isSome_iff]
    cases hm : s.merge t with
    | none => simp
    | some m =>
      rw [Option.bind_some, ih m, List.pairwise_cons]
      simp only [compatible_merge hm, Option.isSome_some, true_and]
      constructor
      · rintro ⟨hmerged, hss⟩
        exact ⟨fun u hu => (hmerged u hu).1, fun u hu => (hmerged u hu).2, hss⟩
      · rintro ⟨hs, ht, hss⟩
        exact ⟨fun u hu => ⟨hs u hu, ht u hu⟩, hss⟩

/-- To show something of a row and the selector merged from it, the first two selectors of the row may
be replaced by the one merged from them. -/
lemma mergeAll_induction {motive : List (Selector P) → Selector P → Prop}
    (single : ∀ s, motive [s] s)
    (merged : ∀ s t n ss m, s.merge t = some n → motive (n :: ss) m → motive (s :: t :: ss) m)
    {row : List (Selector P)} {m : Selector P} (h : mergeAll row = some m) : motive row m := by
  cases row with
  | nil => cases h
  | cons s ss =>
    induction ss generalizing s with
    | nil =>
      cases h
      exact single m
    | cons t ss ih =>
      rw [mergeAll_cons_cons, Option.bind_eq_some_iff] at h
      obtain ⟨n, hn, h⟩ := h
      exact merged s t n ss m hn (ih n h)

/-- A part that two selectors have to agree on comes from some selector of the row. -/
lemma mem_part_mergeAll {part : Selector P → Option String}
    (hpart : ∀ s t m, s.merge t = some m → agree (part s) (part t) = some (part m))
    {row : List (Selector P)} {m : Selector P} (h : mergeAll row = some m) (x : String) :
    x ∈ part m ↔ ∃ s ∈ row, x ∈ part s := by
  refine mergeAll_induction (motive := fun row m => x ∈ part m ↔ ∃ s ∈ row, x ∈ part s) ?_ ?_ h
  · intro s
    simp
  · intro s t n ss m hn ih
    rw [ih]
    simp only [List.exists_mem_cons_iff, mem_of_agree (hpart s t n hn), or_assoc]

/-! ### Accepting a candidate -/

variable [Predicate P]

lemma accepts_iff (s : Selector P) (c : Candidate) :
    s.accepts c ↔ ∀ f ∈ s.filter, f.evaluate c = .ok true := by
  rw [accepts, Option.all_eq_true_iff_get]
  cases s.filter <;> simp [Filter.accepts, Verdict.holds_iff]

lemma accepts_merge {s t m : Selector P} (h : s.merge t = some m) (c : Candidate) :
    m.accepts c = (s.accepts c && t.accepts c) := by
  have hm := merges_of_merge h
  rw [accepts, accepts, accepts, hm.filter]
  cases s.filter <;> cases t.filter <;> simp [mergeFilters, Filter.accepts_and]

/-- A merged row accepts a candidate exactly if each selector of it does. -/
lemma accepts_mergeAll {row : List (Selector P)} {m : Selector P} (h : mergeAll row = some m)
    (c : Candidate) : m.accepts c = row.all (·.accepts c) := by
  refine mergeAll_induction (motive := fun row m => m.accepts c = row.all (·.accepts c)) ?_ ?_ h
  · intro s
    simp
  · intro s t n ss m hn ih
    rw [ih, List.all_cons, List.all_cons, List.all_cons, accepts_merge hn, Bool.and_assoc]

end MapStyle.Selector
