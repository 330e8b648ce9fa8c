import Mathlib
import MapStyle.Cql.Expr
import MapStyle.Resolver
import MapStyle.Proofs.Cascade.Flatten

/-!
# Which declaration wins

Without attachments there is at most one pass. The value of a key in it is found by going back from
the last rule that accepts the candidate to the first one with the key on its path, and from there
outwards along the path: a nested rule repeats what it inherits, also over what other nested rules
before it have declared.
-/

namespace MapStyle

open Selector

variable {P : Type}

namespace Rule

/-- All that the selectors on a path have attached, none. -/
def IsUnattached (path : List (Rule P)) : Prop :=
  ∀ q ∈ path, ∀ s ∈ q.selectors, s.attachment = none

lemma attachment_ofPath? {path : List (Rule P)} (h : IsUnattached path) {flat : Rule P}
    (hflat : ofPath? path = some flat) : flat.attachment = none := by
  rw [ofPath?_eq] at hflat
  split at hflat
  · cases hflat
  cases hflat
  rw [attachment, List.findSome?_eq_none_iff]
  intro m hm
  obtain ⟨choice, hchoice, hmerge⟩ := List.mem_filterMap.mp hm
  rw [Option.eq_none_iff_forall_not_mem]
  intro a ha
  rw [mem_part_mergeAll (fun _ _ _ hst => (merges_of_merge hst).attachment) hmerge] at ha
  obtain ⟨s, hs, ha⟩ := ha
  obtain ⟨own, hown, hs⟩ := exists_mem_of_mem_choices hchoice hs
  obtain ⟨q, hq, rfl⟩ := List.mem_map.mp (List.mem_of_mem_filter hown)
  rw [h q hq s hs] at ha
  cases ha

lemma properties_ofPath? {path : List (Rule P)} {flat : Rule P} (hflat : ofPath? path = some flat) :
    flat.properties = RuleList.collapse path := by
  rw [ofPath?_eq] at hflat
  split at hflat
  · cases hflat
  · cases hflat
    rfl

/-- The declaration of a key that is nearest to the end of a path. -/
def innermost? (k : String) (path : List (Rule P)) : Option Value :=
  path.reverse.findSome? (·.properties.get? k)

variable [Predicate P]

/-- Whether some agreeing choice of selectors on a path accepts a candidate. A rule without selectors
has none to choose. -/
def pathAccepts (c : Candidate) (path : List (Rule P)) : Bool :=
  (agreeing (selectorLists path)).any fun choice => choice.all (·.accepts c)

lemma any_accepts_ofPath? {path : List (Rule P)} (h : selectorLists path ≠ []) {flat : Rule P}
    (hflat : ofPath? path = some flat) (c : Candidate) :
    flat.selectors.any (·.accepts c) = pathAccepts c path := by
  rw [ofPath?_eq] at hflat
  split at hflat
  · cases hflat
  cases hflat
  rw [Bool.eq_iff_iff, selectors_merged, any_accepts_mergedChoices h]
  simp [pathAccepts]

lemma pathAccepts_of_ofPath?_eq_none {path : List (Rule P)} (h : ofPath? path = none)
    (c : Candidate) : pathAccepts c path = false := by
  rw [ofPath?_eq] at h
  split at h
  · next hagree => simp [pathAccepts, hagree]
  · cases h

/-- The properties of the flat rules that are kept are those of the accepting paths. -/
lemma map_properties_matching {paths : List (List (Rule P))}
    (h : ∀ path ∈ paths, selectorLists path ≠ []) (c : Candidate) :
    (RuleList.matching (paths.filterMap ofPath?) c).map (·.properties) =
      (paths.filter (pathAccepts c)).map RuleList.collapse := by
  rw [RuleList.matching]
  induction paths with
  | nil => rfl
  | cons path paths ih =>
    rw [List.forall_mem_cons] at h
    have htail := ih h.2
    cases hflat : ofPath? path with
    | none => simpa [hflat, pathAccepts_of_ofPath?_eq_none hflat c] using htail
    | some flat =>
      have hacc := any_accepts_ofPath? h.1 hflat c
      have hproperties := properties_ofPath? hflat
      cases hc : pathAccepts c path <;>
        simpa [hflat, hacc, hc, hproperties] using htail

end Rule

namespace Resolver

/-- The paths from the rules that are selected for a layer to all that they contain. -/
def layerPaths (r : Resolver P) (layer : Option String) : List (List (Rule P)) :=
  r.sheets.flatMap fun s => (s.rules.selectById layer true).flatMap Rule.paths

lemma layerRules_eq (r : Resolver P) (layer : Option String) :
    r.layerRules layer =
      ((r.layerPaths layer).filter Rule.endsGiving).filterMap Rule.ofPath? := by
  simp only [layerRules, layerPaths, RuleList.flatten, funext Rule.flatten_eq, List.filter_flatMap,
    List.filterMap_flatMap]

/-- Nothing in the rules of the stylesheets has an attachment. -/
def IsUnattached (r : Resolver P) : Prop :=
  ∀ s ∈ r.sheets, ∀ q ∈ s.rules, ∀ path ∈ q.paths, Rule.IsUnattached path

lemma isUnattached_of_mem_layerPaths {r : Resolver P} (h : r.IsUnattached) {layer : Option String}
    {path : List (Rule P)} (hpath : path ∈ r.layerPaths layer) : Rule.IsUnattached path := by
  obtain ⟨s, hs, hpath⟩ := List.mem_flatMap.mp hpath
  obtain ⟨q, hq, hpath⟩ := List.mem_flatMap.mp hpath
  exact h s hs q (List.mem_of_mem_filter hq) path hpath

/-- A rule that is selected has a selector, so there is something to choose on its paths. -/
lemma selectorLists_ne_nil {r : Resolver P} {layer : Option String} {path : List (Rule P)}
    (hpath : path ∈ r.layerPaths layer) : Rule.selectorLists path ≠ [] := by
  obtain ⟨s, _, hpath⟩ := List.mem_flatMap.mp hpath
  obtain ⟨q, hq, hpath⟩ := List.mem_flatMap.mp hpath
  obtain ⟨trail, _, rfl⟩ := List.mem_map.mp hpath
  have hselected : q.selectors.any (·.selectsId layer true) := (List.mem_filter.mp hq).2
  have hne : q.selectors ≠ [] := by
    intro hnil
    simp [hnil] at hselected
  simp [Rule.selectorLists, hne]

lemma attachment_of_mem_layerRules {r : Resolver P} (h : r.IsUnattached) {layer : Option String}
    {q : Rule P} (hq : q ∈ r.layerRules layer) : q.attachment = none := by
  rw [layerRules_eq] at hq
  obtain ⟨path, hpath, hflat⟩ := List.mem_filterMap.mp hq
  have hunattached := isUnattached_of_mem_layerPaths h (List.mem_of_mem_filter hpath)
  exact Rule.attachment_ofPath? hunattached hflat

variable [Predicate P]

/-- The paths of a layer whose last rule gives a flat rule that is kept for a candidate. -/
def acceptedPaths (r : Resolver P) (layer : Option String) (c : Candidate) : List (List (Rule P)) :=
  ((r.layerPaths layer).filter Rule.endsGiving).filter (Rule.pathAccepts c)

lemma map_properties_matching_layerRules (r : Resolver P) (layer : Option String) (c : Candidate) :
    ((r.layerRules layer).matching c).map (·.properties) =
      (r.acceptedPaths layer c).map RuleList.collapse := by
  rw [layerRules_eq, acceptedPaths]
  refine Rule.map_properties_matching (fun path hpath => ?_) c
  exact selectorLists_ne_nil (List.mem_of_mem_filter hpath)

/-- Without attachments there is one pass if any rule accepts the candidate, and none otherwise. A key
has the value of its innermost declaration on the last accepted path that has the key at all. -/
theorem get?_resolve (r : Resolver P) (layer : Option String) (c : Candidate)
    (h : r.IsUnattached) :
    ∃ properties : Properties,
      r.resolve layer c =
        (if r.acceptedPaths layer c = [] then [] else [⟨none, properties⟩]) ∧
      ∀ k, properties.get? k =
        (r.acceptedPaths layer c).reverse.findSome? (Rule.innermost? k) := by
  set kept := (r.layerRules layer).matching c with hkept
  have hunattached : ∀ q ∈ kept, q.attachment = none := fun q hq =>
    attachment_of_mem_layerRules h (List.mem_of_mem_filter hq)
  -- all that collapsing sees of the kept rules is their properties, and these are known by path
  have hproperties := map_properties_matching_layerRules r layer c
  rw [← hkept] at hproperties
  have hempty : kept = [] ↔ r.acceptedPaths layer c = [] := by
    rw [← List.map_eq_nil_iff (f := (·.properties)), hproperties, List.map_eq_nil_iff]
  refine ⟨kept.collapse, ?_, fun k => ?_⟩
  · rw [resolve, ← hkept, RuleList.zGroups_of_unattached hunattached]
    simp only [hempty]
    split <;> rfl
  · calc kept.collapse.get? k
        = ((kept.map (·.properties)).reverse).findSome? (·.get? k) := by
          rw [RuleList.get?_collapse, ← List.map_reverse, List.findSome?_map]
          rfl
      _ = (r.acceptedPaths layer c).reverse.findSome? fun path =>
            (RuleList.collapse path).get? k := by
          rw [hproperties, ← List.map_reverse, List.findSome?_map]
          rfl
      _ = (r.acceptedPaths layer c).reverse.findSome? (Rule.innermost? k) := by
          simp only [RuleList.get?_collapse]
          rfl

/-- `#roads { width: 1; [bridge IS NOT NULL] { width: 2; } [tunnel IS NOT NULL] { dash: 3; } }` -/
def structures : Resolver Cql.Expr where
  sheets := [{
    rules := [.ofSelectors [{ id := some "roads" }] (.ofList [("width", .literal (.integer 1))])
      [.ofSelectors [{ filter := some (.predicate (.isNull (.reference "bridge") true)) }]
          (.ofList [("width", .literal (.integer 2))]),
        .ofSelectors [{ filter := some (.predicate (.isNull (.reference "tunnel") true)) }]
          (.ofList [("dash", .literal (.integer 3))])]] }]

/-- A candidate that has every attribute. -/
def everything : Candidate := fun _ => some (.boolean true)

lemma isUnattached_structures : structures.IsUnattached := by
  unfold IsUnattached Rule.IsUnattached
  decide

/-- The width is that of the last path that is accepted, on which it is set at the root. -/
theorem get?_resolve_structures :
    structures.IsUnattached ∧ ∃ properties : Properties,
      structures.resolve (some "roads") everything = [⟨none, properties⟩] ∧
      properties.get? "width" = some (.literal (.integer 1)) := by
  obtain ⟨properties, hresolve, hget⟩ :=
    get?_resolve structures (some "roads") everything isUnattached_structures
  have hpaths : structures.acceptedPaths (some "roads") everything ≠ [] := by
    rw [ne_eq, ← List.isEmpty_iff]
    decide
  rw [if_neg hpaths] at hresolve
  refine ⟨isUnattached_structures, properties, hresolve, ?_⟩
  rw [hget]
  rfl

/-- The value that the last accepting rule gives to a key of its own, whatever others inherit. -/
def lastOwn? (r : Resolver P) (layer : Option String) (c : Candidate) (k : String) : Option Value :=
  ((r.layerPaths layer).filter (Rule.pathAccepts c)).reverse.findSome? fun path =>
    path.getLast?.bind (·.properties.get? k)

/-- A nested rule that does not have a key itself can change what another one gave to it. -/
theorem exists_get?_ne_lastOwn? :
    ¬ ∀ (r : Resolver Cql.Expr) (layer : Option String) (c : Candidate), r.IsUnattached →
      ∀ pass ∈ r.resolve layer c, ∀ k v, pass.properties.get? k = some v →
        r.lastOwn? layer c k = some v := by
  intro hall
  have hwidths : (structures.resolve (some "roads") everything).map (·.properties.get? "width") =
      [some (.literal (.integer 1))] := by
    cbv
  have hlast : structures.lastOwn? (some "roads") everything "width" =
      some (.literal (.integer 2)) := by
    cbv
  have hwidth : some (.literal (.integer 1)) ∈
      (structures.resolve (some "roads") everything).map (·.properties.get? "width") := by
    rw [hwidths, List.mem_singleton]
  obtain ⟨pass, hpass, hget⟩ := List.mem_map.mp hwidth
  have hone :=
    hall structures (some "roads") everything isUnattached_structures pass hpass "width" _ hget
  rw [hlast] at hone
  cases hone

end Resolver

end MapStyle
