import Mathlib
import MapStyle.Resolver
import MapStyle.Proofs.Cascade.Passes
import MapStyle.Proofs.Locality.Test
import MapStyle.Proofs.Locality.Value
import MapStyle.Proofs.Cascade.Repetitions

/-!
# What resolving looks at

The fields of a layer are all that drawing it looks at: candidates with the same values for these
attributes get the same passes, and the properties of the passes become the same values on them.
-/

namespace MapStyle

variable {P : Type}

namespace RuleList

lemma mem_rules_of_mem_zGroups {rs : RuleList P} {g : ZGroup P} (hg : g ∈ rs.zGroups) {r : Rule P}
    (hr : r ∈ g.rules) : r ∈ rs := by
  rw [zGroups_eq] at hg
  obtain ⟨a, _, rfl⟩ := List.mem_map.mp hg
  exact List.mem_of_mem_filter hr

/-- Collapsing makes no values of its own. -/
lemma exists_mem_values_of_mem_collapse {rs : RuleList P} {v : Value}
    (hv : v ∈ rs.collapse.values) : ∃ r ∈ rs, v ∈ r.properties.values := by
  obtain ⟨⟨k, v⟩, hkv, rfl⟩ := List.mem_map.mp hv
  rw [Properties.mem_entries_iff, get?_collapse] at hkv
  obtain ⟨r, hr, hrk⟩ := List.exists_of_findSome?_eq_some hkv
  exact ⟨r, List.mem_reverse.mp hr,
    List.mem_map_of_mem ((Properties.mem_entries_iff r.properties k v).mpr hrk)⟩

variable [Predicate P] {c d : Candidate}

lemma mem_fields_of_selector {rs : RuleList P} {r : Rule P} (hr : r ∈ rs) {s : Selector P}
    (hs : s ∈ r.selectors) {name : String} (h : name ∈ s.fields) : name ∈ rs.fields := by
  obtain ⟨selectors, properties, nested⟩ := r
  rw [fields, Text.mem_sortedNames, List.mem_flatMap]
  refine ⟨_, hr, ?_⟩
  simp only [Rule.fields, List.mem_append, List.mem_flatMap]
  exact .inl (.inl ⟨s, hs, h⟩)

lemma mem_fields_of_value {rs : RuleList P} {r : Rule P} (hr : r ∈ rs) {v : Value}
    (hv : v ∈ r.properties.values) {name : String} (h : name ∈ v.fields) : name ∈ rs.fields := by
  obtain ⟨selectors, properties, nested⟩ := r
  rw [fields, Text.mem_sortedNames, List.mem_flatMap]
  refine ⟨_, hr, ?_⟩
  simp only [Rule.fields, Properties.fields, List.mem_append, List.mem_flatMap]
  exact .inl (.inr ⟨v, hv, h⟩)

lemma matching_congr [LocalPredicate P] {rs : RuleList P} (h : ∀ name ∈ rs.fields, c name = d name) :
    rs.matching c = rs.matching d := by
  refine List.filter_congr fun r hr => ?_
  rw [Bool.eq_iff_iff, List.any_eq_true, List.any_eq_true]
  have hs : ∀ s ∈ r.selectors, s.accepts c = s.accepts d := fun s hs =>
    Selector.accepts_congr fun name hname => h name (mem_fields_of_selector hr hs hname)
  constructor
  · rintro ⟨s, hmem, hacc⟩
    exact ⟨s, hmem, hs s hmem ▸ hacc⟩
  · rintro ⟨s, hmem, hacc⟩
    exact ⟨s, hmem, (hs s hmem).symm ▸ hacc⟩

end RuleList

namespace Resolver

variable [Predicate P]

/-- Each value of a pass stands in a rule of the layer. -/
lemma exists_mem_layerRules_of_mem_resolve {r : Resolver P} {layer : Option String} {c : Candidate}
    {pass : Pass} (hpass : pass ∈ r.resolve layer c) {v : Value} (hv : v ∈ pass.properties.values) :
    ∃ q ∈ r.layerRules layer, v ∈ q.properties.values := by
  obtain ⟨g, hg, rfl⟩ := List.mem_map.mp hpass
  obtain ⟨q, hq, hvq⟩ := RuleList.exists_mem_values_of_mem_collapse hv
  exact ⟨q, List.mem_of_mem_filter (RuleList.mem_rules_of_mem_zGroups hg hq), hvq⟩

/-- Candidates that agree on the fields of a layer are drawn alike: they get the same passes, and each
value of a pass that draws no random colour becomes the same on both. -/
theorem resolve_congr_of_fields (r : Resolver Cql.Expr) (layer : Option String) (c d : Candidate)
    (h : ∀ name ∈ r.fields layer, c name = d name) :
    r.resolve layer c = r.resolve layer d ∧
      ∀ pass ∈ r.resolve layer c, ∀ v ∈ pass.properties.values, v.draws = 0 →
        ∀ palette palette' : Palette, v.resolve? palette c = v.resolve? palette' d := by
  constructor
  · rw [resolve, resolve, RuleList.matching_congr h]
  · intro pass hpass v hv hdraws palette palette'
    obtain ⟨q, hq, hvq⟩ := exists_mem_layerRules_of_mem_resolve hpass hv
    exact Value.resolve?_congr palette palette' v
      (fun name hname => h name (RuleList.mem_fields_of_value hq hvq hname)) hdraws

/-- `#roads[lanes > 2] { label: [name]; }` -/
def labelled : Resolver Cql.Expr where
  sheets := [{
    rules := [.ofSelectors
      [{ id := some "roads"
         filter := some (.predicate (.compare (.reference "lanes") .gt (.literal (.integer 2)))) }]
      (.ofList [("label", .reference "name")])] }]

/-- A road of a certain surface. -/
def road (surface : String) : Candidate
  | "lanes" => some (.integer 4)
  | "name" => some (.string "A1")
  | "surface" => some (.string surface)
  | _ => none

/-- Two roads that differ in their surface alone get the same passes. -/
theorem resolve_labelled :
    (∀ name ∈ labelled.fields (some "roads"), road "asphalt" name = road "gravel" name) ∧
      road "asphalt" "surface" ≠ road "gravel" "surface" ∧
      labelled.resolve (some "roads") (road "asphalt") =
        labelled.resolve (some "roads") (road "gravel") := by
  have hfields : labelled.fields (some "roads") = ["lanes", "name"] := by cbv
  have h : ∀ name ∈ labelled.fields (some "roads"), road "asphalt" name = road "gravel" name := by
    rw [hfields]
    decide
  exact ⟨h, by decide, (resolve_congr_of_fields labelled (some "roads") _ _ h).1⟩

end Resolver

end MapStyle
