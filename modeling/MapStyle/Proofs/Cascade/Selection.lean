import Mathlib
import MapStyle.Cql.Expr
import MapStyle.Resolver
import MapStyle.Proofs.Cascade.Passes
import MapStyle.Proofs.Selector.Titles

/-!
# Which rules take part

A layer and a candidate each ask for some selector of a rule. Without nested rules that is all: a rule
takes part if one of its selectors selects the layer and one of them accepts the candidate. It need
not be the same one.
-/

namespace MapStyle

variable {P : Type}

/-- A rule without others in it is flattened to itself, except that its name and kind are taken from its
selectors again. -/
lemma Rule.flatten_of_unnested {q : Rule P} (h : q.nested = []) : q.flatten = [q.root] := by
  obtain ⟨name, kind, selectors, properties, nested⟩ := q
  cases h
  simp [flatten, flattenPending, pushNested, isGiving]

lemma RuleList.flatten_of_unnested {rs : RuleList P} (h : ∀ q ∈ rs, q.nested = []) :
    rs.flatten = rs.map Rule.root := by
  rw [flatten, List.flatMap_congr fun q hq => Rule.flatten_of_unnested (h q hq), List.map_eq_flatMap]

/-- Collapsing does not look at names and kinds. -/
lemma RuleList.collapse_map_root (rs : RuleList P) : collapse (rs.map Rule.root) = collapse rs :=
  List.foldl_map

namespace Resolver

/-- No rule of the stylesheets contains others. -/
def IsUnnested (r : Resolver P) : Prop :=
  ∀ s ∈ r.sheets, ∀ q ∈ s.rules, q.nested = []

lemma layerRules_of_unnested {r : Resolver P} (h : r.IsUnnested) (layer : Option String) :
    r.layerRules layer =
      (RuleList.selectById (r.sheets.flatMap (·.rules)) layer true).map Rule.root := by
  rw [layerRules, RuleList.selectById, List.filter_flatMap, List.map_flatMap]
  refine List.flatMap_congr fun s hs => ?_
  exact RuleList.flatten_of_unnested fun q hq => h s hs q (List.mem_of_mem_filter hq)

variable [Predicate P]

/-- The rules that have a selector for a layer and one that accepts a candidate. -/
def takingPart (r : Resolver P) (layer : Option String) (c : Candidate) : RuleList P :=
  (r.sheets.flatMap (·.rules)).filter fun q =>
    (∃ t ∈ q.selectors, t.selectsId layer true) ∧ ∃ t ∈ q.selectors, t.accepts c

lemma matching_layerRules_of_unnested {r : Resolver P} (h : r.IsUnnested) (layer : Option String)
    (c : Candidate) : (r.layerRules layer).matching c = (r.takingPart layer c).map Rule.root := by
  rw [layerRules_of_unnested h, RuleList.matching, RuleList.selectById, List.filter_map,
    List.filter_filter, takingPart]
  refine congrArg (List.map Rule.root) (List.filter_congr fun q _ => ?_)
  change (q.selectors.any _ && q.selectors.any _) = _
  rw [Bool.eq_iff_iff, Bool.and_eq_true, List.any_eq_true, List.any_eq_true, decide_eq_true_iff,
    and_comm]

/-- Without nested rules there is one pass for each attachment of the rules that take part, in the
order of first appearance. A key has the value that the last of these rules with this attachment and
this key gives to it. -/
theorem resolve_of_unnested (r : Resolver P) (layer : Option String) (c : Candidate)
    (h : r.IsUnnested) :
    (r.resolve layer c).map (·.attachment) =
        ((r.takingPart layer c).map (·.attachment)).eraseDups ∧
      ∀ pass ∈ r.resolve layer c, ∀ k, pass.properties.get? k =
        ((r.takingPart layer c).filter (·.attachment == pass.attachment)).reverse.findSome?
          (·.properties.get? k) := by
  have hresolve : r.resolve layer c =
      ((r.takingPart layer c).map (·.attachment)).eraseDups.map fun a =>
        ⟨a, RuleList.collapse ((r.takingPart layer c).filter (·.attachment == a))⟩ := by
    rw [resolve, matching_layerRules_of_unnested h, RuleList.zGroups_eq, List.map_map, List.map_map]
    refine List.map_congr_left fun a _ => ?_
    change (⟨a, RuleList.collapse (((r.takingPart layer c).map Rule.root).filter _)⟩ : Pass) = _
    rw [List.filter_map, RuleList.collapse_map_root]
    rfl
  rw [hresolve]
  constructor
  · rw [List.map_map]
    exact List.map_id _
  · intro pass hpass k
    obtain ⟨a, _, rfl⟩ := List.mem_map.mp hpass
    exact RuleList.get?_collapse _ k

/-- `#roads[bridge IS NOT NULL], #rails { width: 1; }` -/
def crossing : Resolver Cql.Expr where
  sheets := [{
    rules := [.ofSelectors
      [{ id := some "roads"
         filter := some (.predicate (.isNull (.reference "bridge") true)) },
        { id := some "rails" }]
      (.ofList [("width", .literal (.integer 1))])] }]

lemma isUnnested_crossing : crossing.IsUnnested := by
  simp [IsUnnested, crossing]

/-- The candidate is no bridge, but the other selector accepts it. -/
theorem resolve_crossing :
    crossing.IsUnnested ∧
      (crossing.resolve (some "roads") fun _ => none).map (·.attachment) = [none] ∧
      ∀ pass ∈ crossing.resolve (some "roads") fun _ => none,
        pass.properties.get? "width" = some (.literal (.integer 1)) := by
  obtain ⟨hpasses, hvalues⟩ :=
    resolve_of_unnested crossing (some "roads") (fun _ => none) isUnnested_crossing
  have hattachments : (crossing.resolve (some "roads") fun _ => none).map (·.attachment) = [none] :=
    hpasses.trans rfl
  refine ⟨isUnnested_crossing, hattachments, ?_⟩
  intro pass hpass
  have hnone : pass.attachment = none := by
    have hmem := List.mem_map_of_mem (f := (·.attachment)) hpass
    rwa [hattachments, List.mem_singleton] at hmem
  rw [hvalues pass hpass, hnone]
  rfl

/-- The selector that selects the layer can be one that does not accept the candidate. -/
theorem exists_no_single_selector :
    ¬ ∀ (r : Resolver Cql.Expr) (layer : Option String) (c : Candidate), r.IsUnnested →
      ∀ pass ∈ r.resolve layer c, ∀ k v, pass.properties.get? k = some v →
        ∃ s ∈ r.sheets, ∃ q ∈ s.rules, q.properties.get? k = some v ∧
          ∃ t ∈ q.selectors, t.selectsId layer true ∧ t.accepts c := by
  intro hall
  have hwidths : (crossing.resolve (some "roads") fun _ => none).map
      (·.properties.get? "width") = [some (.literal (.integer 1))] := by
    cbv
  have hwidth : some (.literal (.integer 1)) ∈
      (crossing.resolve (some "roads") fun _ => none).map (·.properties.get? "width") := by
    rw [hwidths, List.mem_singleton]
  obtain ⟨pass, hpass, hget⟩ := List.mem_map.mp hwidth
  obtain ⟨s, hs, q, hq, _, t, ht, hselects, haccepts⟩ :=
    hall crossing (some "roads") (fun _ => none) isUnnested_crossing pass hpass "width" _ hget
  have hnone : ∀ s ∈ crossing.sheets, ∀ q ∈ s.rules, ∀ t ∈ q.selectors,
      ¬ (t.selectsId (some "roads") true ∧ t.accepts fun _ => none) := by
    decide
  exact hnone s hs q hq t ht ⟨hselects, haccepts⟩

end Resolver

end MapStyle
