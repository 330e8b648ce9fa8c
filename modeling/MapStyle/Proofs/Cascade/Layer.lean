import Mathlib
import MapStyle.Cql.Expr
import MapStyle.Proofs.Cascade.Declaration

/-!
# Layers of nested rules

A layer selects rules at the top of a stylesheet, and all that is nested in them follows along. What
is nested may name another layer, or narrow a wildcard down to a name. This module says exactly when
each flat rule of a layer still has a selector for that layer.
-/

namespace MapStyle

open Selector

variable {P : Type}

namespace Selector

/-- Whether the selectors of a row, taken together, select a layer: the identifiers among them are the
one of the layer, or there is a wildcard that no name or identifier of the row narrows down. A
selector on its own is not narrowed down. -/
def SelectsLayer (layer : Option String) (row : List (Selector P)) : Prop :=
  (∀ x, x ∈ layer ↔ ∃ s ∈ row, x ∈ s.id) ∨
    (∃ s ∈ row, s.wildcard) ∧ (row.length = 1 ∨ ∀ s ∈ row, s.name = none ∧ s.id = none)

lemma eq_none_of_agree {a b c : Option String} (h : agree a b = some c) :
    c = none ↔ a = none ∧ b = none := by
  simp only [Option.eq_none_iff_forall_not_mem, mem_of_agree h, not_or, forall_and]

/-- A wildcard stays in a merged row unless some selector of it has a name or an identifier. -/
lemma wildcard_mergeAll {row : List (Selector P)} {m : Selector P} (h : mergeAll row = some m) :
    m.wildcard ↔
      (∃ s ∈ row, s.wildcard) ∧ (row.length = 1 ∨ ∀ s ∈ row, s.name = none ∧ s.id = none) := by
  refine mergeAll_induction
    (motive := fun row m => m.wildcard ↔
      (∃ s ∈ row, s.wildcard) ∧ (row.length = 1 ∨ ∀ s ∈ row, s.name = none ∧ s.id = none)) ?_ ?_ h
  · intro s
    simp
  · intro s t n ss m hn ih
    have hm := merges_of_merge hn
    have hwildcard : n.wildcard ↔ (s.wildcard ∨ t.wildcard) ∧ n.name = none ∧ n.id = none := by
      simp [hm.wildcard, and_assoc]
    rw [ih, List.exists_mem_cons_iff, List.exists_mem_cons_iff, List.exists_mem_cons_iff,
      List.forall_mem_cons, List.forall_mem_cons, List.forall_mem_cons, hwildcard,
      eq_none_of_agree hm.name, eq_none_of_agree hm.id]
    -- only from the third selector on does the step have a row of several to go by
    cases ss with
    | nil => simp; grind
    | cons u us =>
      have htwo : (n :: u :: us).length ≠ 1 := by simp
      have hthree : (s :: t :: u :: us).length ≠ 1 := by simp
      simp only [htwo, hthree, false_or]
      generalize (∃ v ∈ u :: us, v.wildcard) = wild
      generalize (∀ v ∈ u :: us, v.name = none ∧ v.id = none) = plain
      grind

lemma selectsId_mergeAll {row : List (Selector P)} {m : Selector P} (h : mergeAll row = some m)
    (layer : Option String) : m.selectsId layer true ↔ SelectsLayer layer row := by
  have hid : m.id = layer ↔ ∀ x, x ∈ layer ↔ ∃ s ∈ row, x ∈ s.id := by
    simp only [← mem_part_mergeAll (fun _ _ _ hst => (merges_of_merge hst).id) h]
    constructor
    · rintro rfl x
      rfl
    · intro hx
      exact Option.ext fun x => (hx x).symm
  rw [selectsId, Bool.or_eq_true, beq_iff_eq, Bool.true_and, hid, wildcard_mergeAll h, SelectsLayer]

end Selector

namespace Rule

/-- A flat rule has a selector for a layer exactly if some agreeing choice on its path selects it. -/
lemma exists_selectsId_ofPath? {path : List (Rule P)} (h : selectorLists path ≠ []) {flat : Rule P}
    (hflat : ofPath? path = some flat) (layer : Option String) :
    (∃ s ∈ flat.selectors, s.selectsId layer true) ↔
      ∃ choice ∈ agreeing (selectorLists path), SelectsLayer layer choice := by
  rw [ofPath?_eq] at hflat
  split at hflat
  · cases hflat
  cases hflat
  simp only [selectors_merged, mergedChoices, List.mem_filterMap]
  constructor
  · rintro ⟨m, ⟨choice, hchoice, hm⟩, hselects⟩
    have hpair : choice.Pairwise Compatible :=
      (mergeAll_isSome_iff (ne_nil_of_mem_choices h hchoice)).mp (by simp [hm])
    exact ⟨choice, mem_agreeing.mpr ⟨hchoice, hpair⟩, (selectsId_mergeAll hm layer).mp hselects⟩
  · rintro ⟨choice, hagree, hselects⟩
    obtain ⟨hchoice, hpair⟩ := mem_agreeing.mp hagree
    obtain ⟨m, hm⟩ := Option.isSome_iff_exists.mp
      ((mergeAll_isSome_iff (ne_nil_of_mem_choices h hchoice)).mpr hpair)
    exact ⟨m, ⟨choice, hchoice, hm⟩, (selectsId_mergeAll hm layer).mpr hselects⟩

end Rule

namespace Resolver

/-- The flat rules of a layer all have a selector for it exactly if this holds of the paths that they
come from: wherever the selectors on a path agree at all, some agreeing choice of them selects the
layer. -/
theorem forall_exists_selectsId_layerRules (r : Resolver P) (layer : Option String) :
    (∀ q ∈ r.layerRules layer, ∃ s ∈ q.selectors, s.selectsId layer true) ↔
      ∀ path ∈ r.layerPaths layer, Rule.endsGiving path → agreeing (Rule.selectorLists path) ≠ [] →
        ∃ choice ∈ agreeing (Rule.selectorLists path), SelectsLayer layer choice := by
  rw [layerRules_eq]
  constructor
  · intro hall path hpath hgiving hagree
    obtain ⟨flat, hflat⟩ : ∃ flat, Rule.ofPath? path = some flat := by
      rw [Rule.ofPath?_eq, if_neg hagree]
      exact ⟨_, rfl⟩
    have hmem := List.mem_filterMap.mpr ⟨path, List.mem_filter.mpr ⟨hpath, hgiving⟩, hflat⟩
    rw [← Rule.exists_selectsId_ofPath? (selectorLists_ne_nil hpath) hflat]
    exact hall flat hmem
  · intro hall q hq
    obtain ⟨path, hpath, hflat⟩ := List.mem_filterMap.mp hq
    obtain ⟨hpath, hgiving⟩ := List.mem_filter.mp hpath
    have hagree : agreeing (Rule.selectorLists path) ≠ [] := by
      intro hnil
      rw [Rule.ofPath?_eq, if_pos hnil] at hflat
      cases hflat
    rw [Rule.exists_selectsId_ofPath? (selectorLists_ne_nil hpath) hflat]
    exact hall path hpath hgiving hagree

/-- `* { #rails[gauge > 1] { width: 2; } }` -/
def gauges : Resolver Cql.Expr where
  sheets := [{
    rules := [.ofSelectors [{ wildcard := true }] {}
      [.ofSelectors
        [{ id := some "rails"
           filter := some
             (.predicate (.compare (.reference "gauge") .gt (.literal (.integer 1)))) }]
        (.ofList [("width", .literal (.integer 2))])]] }]

/-- A rule for `rails` that is nested in a wildcard is among the rules of every other layer, and its
attributes are among their fields. -/
theorem exists_not_selectsId_layerRules :
    ¬ (∀ q ∈ gauges.layerRules (some "roads"),
        ∃ s ∈ q.selectors, s.selectsId (some "roads") true) ∧
      gauges.fields (some "roads") = ["gauge"] := by
  have hrules : (gauges.layerRules (some "roads")).map
      (fun q => q.selectors.any (·.selectsId (some "roads") true)) = [false] := by
    cbv
  have hfields : gauges.fields (some "roads") = ["gauge"] := by
    cbv
  refine ⟨fun hall => ?_, hfields⟩
  have hmem : false ∈ (gauges.layerRules (some "roads")).map
      (fun q => q.selectors.any (·.selectsId (some "roads") true)) := by
    rw [hrules, List.mem_singleton]
  obtain ⟨q, hq, hnone⟩ := List.mem_map.mp hmem
  rw [List.any_eq_true.mpr (hall q hq)] at hnone
  cases hnone

end Resolver

end MapStyle
