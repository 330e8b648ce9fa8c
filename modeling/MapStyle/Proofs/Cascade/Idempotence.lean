import MapStyle.Proofs.Cascade.Flatten
import MapStyle.Proofs.Cascade.Selection

/-!
# Flattening again

What has been flattened has no rules nested in it, and its name and kind agree with its merged selectors.
Flattening a rule takes the name and the kind from the selectors again, so it is just the rules with both
properties that it leaves as they are.
-/

namespace MapStyle

open Selector

variable {P : Type}

/-- A flat rule on a path of a tree, whether or not the rules of the path have selectors. It has the merged
selectors and the properties of the path, it contains no rules, and its name and kind agree with its
selectors, whatever names and kinds the rules of the path keep. -/
structure Rule.IsSettled (path : List (Rule P)) (flat : Rule P) : Prop where
  selectors : flat.selectors = mergedChoices (selectorLists path)
  properties : flat.properties = RuleList.collapse path
  nested : flat.nested = []
  titled : flat.IsTitled

namespace Rule

/-- The flat rule at the end of a path is settled. -/
lemma isSettled_of_ofPath? {path : List (Rule P)} {flat : Rule P} (h : ofPath? path = some flat) :
    flat.IsSettled path := by
  rw [ofPath?_eq] at h
  split at h
  · cases h
  · cases h
    exact ⟨rfl, rfl, rfl, isTitled_merged path⟩

/-- Each flat rule of a rule is that of one of its paths. -/
lemma exists_isSettled_of_mem_flatten {r flat : Rule P} (h : flat ∈ r.flatten) :
    ∃ path ∈ r.paths, flat.IsSettled path := by
  rw [flatten_eq] at h
  obtain ⟨path, hpath, hflat⟩ := List.mem_filterMap.mp h
  exact ⟨path, List.mem_of_mem_filter hpath, isSettled_of_ofPath? hflat⟩

end Rule

namespace RuleList

/-- Each flat rule is the settled rule of a path. -/
lemma exists_isSettled_of_mem_flatten {rs : RuleList P} {q : Rule P} (h : q ∈ rs.flatten) :
    ∃ r ∈ rs, ∃ path ∈ r.paths, q.IsSettled path := by
  obtain ⟨r, hr, hq⟩ := List.mem_flatMap.mp h
  exact ⟨r, hr, Rule.exists_isSettled_of_mem_flatten hq⟩

/-- Only rules without nested ones whose names and kinds agree with their selectors stay as they are. A
rule that keeps another name gets the name of its selectors. -/
theorem flatten_eq_self_iff (rs : RuleList P) :
    rs.flatten = rs ↔ ∀ q ∈ rs, q.nested = [] ∧ q.IsTitled := by
  constructor
  · intro h q hq
    obtain ⟨r, -, path, -, hsettled⟩ := exists_isSettled_of_mem_flatten (h ▸ hq)
    exact ⟨hsettled.nested, hsettled.titled⟩
  · intro h
    rw [flatten_of_unnested fun q hq => (h q hq).1]
    exact (List.map_congr_left fun q hq => (Rule.root_eq_self_iff q).mpr (h q hq)).trans (List.map_id rs)

/-- A rule that keeps a name which none of its selectors has loses it. -/
example : flatten [⟨some "old", .named, [{ id := some "roads" }], {}, []⟩] =
    ([.ofSelectors [{ id := some "roads" }]] : RuleList P) :=
  flatten_of_unnested (by simp)

/-- Flat rules stay as they are when they are flattened again, with their names and kinds. Each of them is
the settled rule of a path. -/
theorem flatten_flatten (rs : RuleList P) : rs.flatten.flatten = rs.flatten ∧
    ∀ q ∈ rs.flatten, ∃ r ∈ rs, ∃ path ∈ r.paths, q.IsSettled path := by
  refine ⟨?_, fun q => exists_isSettled_of_mem_flatten⟩
  rw [flatten_eq_self_iff]
  intro q hq
  obtain ⟨r, -, path, -, hsettled⟩ := exists_isSettled_of_mem_flatten hq
  exact ⟨hsettled.nested, hsettled.titled⟩

end RuleList

end MapStyle
