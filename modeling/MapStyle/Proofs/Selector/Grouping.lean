import Mathlib.Tactic.Lemma
import MapStyle.Proofs.Cascade.Flatten

/-!
# Merging in groups

Merging selectors is associative, with the conflicts included. Levels of nesting can therefore be
merged in whatever groups: the outcome is that of the plain row, and it is the selector to which
flattening brings a chain of nested rules.
-/

namespace MapStyle

namespace Selector

variable {P : Type}

/-! ### The parts of a merged selector -/

lemma agree_eq (a b : Option String) : agree a b = if Consistent a b then some (a.or b) else none := by
  cases a with
  | none => simp [agree, Consistent]
  | some x =>
    cases b with
    | none => simp [agree, Consistent]
    | some y => simp [agree, Consistent]

lemma mergeClasses_concat (cs ds : List String) (d : String) :
    mergeClasses cs (ds ++ [d]) =
      if d ∈ mergeClasses cs ds then mergeClasses cs ds else mergeClasses cs ds ++ [d] := by
  simp [mergeClasses]

lemma mem_mergeClasses {cs ds : List String} {c : String} :
    c ∈ mergeClasses cs ds ↔ c ∈ cs ∨ c ∈ ds := by
  induction ds using List.reverseRecOn with
  | nil => simp [mergeClasses]
  | append_singleton ds d ih =>
    rw [mergeClasses_concat]
    split <;> grind

/-- Classes are merged from the left, so the last list is taken apart from its end. -/
lemma mergeClasses_assoc (as bs cs : List String) :
    mergeClasses (mergeClasses as bs) cs = mergeClasses as (mergeClasses bs cs) := by
  induction cs using List.reverseRecOn with
  | nil => rfl
  | append_singleton cs c ih =>
    rw [mergeClasses_concat, mergeClasses_concat, ih]
    by_cases hbs : c ∈ mergeClasses bs cs
    · rw [if_pos hbs, if_pos (mem_mergeClasses.mpr (.inr hbs))]
    · rw [if_neg hbs, mergeClasses_concat]

lemma mergeFilters_assoc (f g h : Option (Filter P)) :
    mergeFilters (mergeFilters f g) h = mergeFilters f (mergeFilters g h) := by
  cases f with
  | none => cases g <;> cases h <;> rfl
  | some f =>
    cases g with
    | none => cases h <;> rfl
    | some g =>
      cases h with
      | none => rfl
      | some h =>
        show some ((f.and g).and h) = some (f.and (g.and h))
        simp only [Filter.and, Filter.conjuncts, List.append_assoc]

/-! ### Merging three selectors -/

/-- The parts of two selectors put together, where the outer selector has the word on a part on which
they disagree. -/
def joined (outer inner : Selector P) : Selector P where
  name := outer.name.or inner.name
  id := outer.id.or inner.id
  classes := mergeClasses outer.classes inner.classes
  wildcard := (outer.wildcard || inner.wildcard) && (outer.name.or inner.name).isNone &&
    (outer.id.or inner.id).isNone
  filter := mergeFilters outer.filter inner.filter
  attachment := outer.attachment.or inner.attachment

/-- Selectors are merged by putting their parts together, unless they conflict. -/
lemma merge_eq (s t : Selector P) :
    s.merge t = if Compatible s t then some (s.joined t) else none := by
  simp only [merge, agree_eq, Compatible]
  by_cases hname : Consistent s.name t.name
  · by_cases hid : Consistent s.id t.id
    · by_cases hattachment : Consistent s.attachment t.attachment
      · simp [hname, hid, hattachment, joined]
      · simp [hname, hid, hattachment]
    · simp [hname, hid]
  · simp [hname]

lemma joined_assoc (a b c : Selector P) : (a.joined b).joined c = a.joined (b.joined c) := by
  -- a wildcard that a group loses is lost in the whole row: the name or identifier stays known
  have hwildcard : ((a.joined b).joined c).wildcard = (a.joined (b.joined c)).wildcard := by
    simp only [joined, Option.or_assoc, Option.isNone_or]
    grind
  simp only [joined, mk.injEq] at hwildcard ⊢
  exact ⟨Option.or_assoc, Option.or_assoc, mergeClasses_assoc .., hwildcard, mergeFilters_assoc ..,
    Option.or_assoc⟩

lemma compatible_comm (s t : Selector P) : Compatible s t ↔ Compatible t s := by
  simp only [Compatible, Consistent]
  grind

lemma compatible_joined {s t : Selector P} (h : Compatible s t) (u : Selector P) :
    Compatible (s.joined t) u ↔ Compatible s u ∧ Compatible t u :=
  compatible_merge ((merge_eq s t).trans (if_pos h)) u

lemma merge_merge_left (a b c : Selector P) :
    (a.merge b).bind (·.merge c) =
      if [a, b, c].Pairwise Compatible then some ((a.joined b).joined c) else none := by
  by_cases hab : Compatible a b
  · simp [merge_eq, hab, compatible_joined hab c]
  · simp [merge_eq, hab]

lemma merge_merge_right (a b c : Selector P) :
    (b.merge c).bind a.merge =
      if [a, b, c].Pairwise Compatible then some (a.joined (b.joined c)) else none := by
  by_cases hbc : Compatible b c
  · have ha : Compatible a (b.joined c) ↔ Compatible a b ∧ Compatible a c := by
      rw [compatible_comm, compatible_joined hbc, compatible_comm b, compatible_comm c]
    simp [merge_eq, hbc, ha]
  · simp [merge_eq, hbc]

/-- Both groupings of three selectors conflict for the same reason and give the same otherwise. -/
lemma merge_merge (a b c : Selector P) :
    (a.merge b).bind (·.merge c) = (b.merge c).bind a.merge := by
  rw [merge_merge_left, merge_merge_right, joined_assoc]

/-! ### Rows in groups -/

lemma mergeAll_append {row others : List (Selector P)} (hrow : row ≠ []) (hothers : others ≠ []) :
    mergeAll (row ++ others) = (mergeAll row).bind fun s => (mergeAll others).bind s.merge := by
  induction others using List.reverseRecOn with
  | nil => exact absurd rfl hothers
  | append_singleton others t ih =>
    by_cases hnil : others = []
    · rw [hnil, List.nil_append, mergeAll_concat hrow]
      rfl
    · -- the last selector goes to the whole row on one side, and to its group on the other one
      calc mergeAll (row ++ (others ++ [t]))
          = (mergeAll (row ++ others)).bind (·.merge t) := by
            rw [← List.append_assoc, mergeAll_concat (by simp [hrow])]
        _ = (mergeAll row).bind fun s => (mergeAll others).bind fun u => (s.merge u).bind (·.merge t) := by
            simp only [ih hnil, Option.bind_assoc]
        _ = (mergeAll row).bind fun s => (mergeAll others).bind fun u => (u.merge t).bind s.merge := by
            simp only [merge_merge]
        _ = (mergeAll row).bind fun s => (mergeAll (others ++ [t])).bind s.merge := by
            simp only [mergeAll_concat hnil, Option.bind_assoc]

/-- A way to put the selectors of a row into groups, down to single selectors. -/
inductive Grouping (P : Type) where
  | single (s : Selector P)
  | group (outer inner : Grouping P)

namespace Grouping

/-- The selectors from the outermost one on. -/
def row : Grouping P → List (Selector P)
  | single s => [s]
  | group outer inner => outer.row ++ inner.row

/-- Each group merged by itself, and the outcomes merged with each other. -/
def merged : Grouping P → Option (Selector P)
  | single s => some s
  | group outer inner => outer.merged.bind fun s => inner.merged.bind s.merge

lemma row_ne_nil (g : Grouping P) : g.row ≠ [] := by
  induction g with
  | single s => exact List.cons_ne_nil s []
  | group outer inner houter hinner => exact List.append_ne_nil_of_left_ne_nil houter inner.row

lemma merged_eq (g : Grouping P) : g.merged = mergeAll g.row := by
  induction g with
  | single s => rfl
  | group outer inner houter hinner =>
    rw [merged, row, mergeAll_append outer.row_ne_nil inner.row_ne_nil, houter, hinner]

end Grouping

end Selector

namespace Rule

open Selector

variable {P : Type}

/-- Rules nested one in another, each with one selector; only the innermost has properties. -/
def chain (p : Properties) : List (Selector P) → Rule P
  | [] => .ofSelectors [] p
  | [s] => .ofSelectors [s] p
  | s :: row => .ofSelectors [s] {} [chain p row]

lemma mergeSelectors_singleton (s t : Selector P) :
    mergeSelectors [s] [t] = (s.merge t).map ([·]) := by
  cases h : s.merge t <;> simp [mergeSelectors, h]

/-- Below a rule of a chain, its merged selector is merged with those of the rules inside. -/
lemma flatBelow_chain (p : Properties) (s m : Selector P) (row : List (Selector P)) :
    flatBelow (chain p (s :: row), .ofSelectors [m] (chain p (s :: row)).properties) =
      (row.foldlM merge m).toList.map fun n => .ofSelectors [n] p := by
  induction row generalizing s m with
  | nil =>
    rw [flatBelow_eq]
    simp [chain, isGiving]
  | cons t row ih =>
    have hselectors : (chain p (t :: row)).selectors = [t] := by
      cases row <;> rfl
    have hdescend : descend (.ofSelectors [m]) (chain p (t :: row)) =
        (m.merge t).map fun n => .ofSelectors [n] (chain p (t :: row)).properties := by
      rw [descend, selectors_ofSelectors, hselectors, mergeSelectors_singleton, Option.map_map]
      simp only [Function.comp_def, properties_ofSelectors, Properties.empty_cascade]
    show flatBelow (.ofSelectors [s] {} [chain p (t :: row)], .ofSelectors [m]) = _
    rw [flatBelow_eq, List.foldlM_cons]
    simp only [nested_ofSelectors, List.filterMap_cons, List.filterMap_nil, hdescend]
    cases m.merge t with
    | none => rfl
    | some n => simpa [isGiving, Properties.isEmpty] using ih t n

lemma flatten_chain (p : Properties) {row : List (Selector P)} (h : row ≠ []) :
    (chain p row).flatten = (mergeAll row).toList.map fun s => .ofSelectors [s] p := by
  obtain ⟨s, row, rfl⟩ := List.exists_cons_of_ne_nil h
  have hroot : (chain p (s :: row)).root = .ofSelectors [s] (chain p (s :: row)).properties := by
    cases row <;> rfl
  rw [flatten, flattenPending_eq, List.flatMap_singleton, hroot, flatBelow_chain, mergeAll]

/-- Merging is associative, conflicts included, and so a chain of nested rules is flattened to the
selector that its levels give in whatever groups they are merged, or to nothing if these conflict. -/
theorem merge_assoc_and_flatten_chain :
    (∀ a b c : Selector P, (a.merge b).bind (·.merge c) = (b.merge c).bind a.merge) ∧
      ∀ (g : Grouping P) (p : Properties),
        (chain p g.row).flatten = g.merged.toList.map fun s => .ofSelectors [s] p := by
  refine ⟨merge_merge, fun g p => ?_⟩
  rw [g.merged_eq]
  exact flatten_chain p g.row_ne_nil

end Rule

end MapStyle
