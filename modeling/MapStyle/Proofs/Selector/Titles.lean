import Mathlib.Tactic.Lemma
import MapStyle.Cascade

/-!
# Names and kinds of rules

A rule keeps a name and a kind beside its selectors. Nothing in the rule itself keeps these together; it
is the way in which rules are made that does. Here is what it means for them to agree, without saying
how they are computed, and that the rules which flattening makes agree with their own selectors, whatever
the rules that they are made from keep.
-/

namespace MapStyle

variable {P : Type}

/-! ### The first one among selectors -/

namespace Selector

/-- The first of some parts that selectors may have: the one of the first selector that has it, or none
if no selector does. -/
def IsFirst (part : Selector P → Option String) (ss : List (Selector P)) : Option String → Prop
  | none => ∀ s ∈ ss, part s = none
  | some x => ∃ earlier s later, ss = earlier ++ s :: later ∧ (∀ t ∈ earlier, part t = none) ∧
    part s = some x

variable {part : Selector P → Option String} {ss : List (Selector P)}

/-- Looking for the first one finds it, and nothing else. -/
lemma isFirst_iff {o : Option String} : IsFirst part ss o ↔ ss.findSome? part = o := by
  cases o with
  | none => rw [IsFirst, List.findSome?_eq_none_iff]
  | some x =>
    rw [IsFirst, List.findSome?_eq_some_iff]
    constructor
    · rintro ⟨earlier, s, later, hss, hearlier, hs⟩
      exact ⟨earlier, s, later, hss, hs, hearlier⟩
    · rintro ⟨earlier, s, later, hss, hs, hearlier⟩
      exact ⟨earlier, s, later, hss, hearlier, hs⟩

end Selector

namespace Rule

/-- The attachment of a rule is the first one that is set on its selectors. -/
lemma isFirst_attachment (r : Rule P) : Selector.IsFirst (·.attachment) r.selectors r.attachment :=
  Selector.isFirst_iff.mpr rfl

/-! ### Agreement -/

/-- The name and the kind of a rule agree with its selectors: the name is the first one among them, and
the kind says whether one of them has a name, or else whether one has a class. -/
structure IsTitled (r : Rule P) : Prop where
  isFirst_name : Selector.IsFirst (·.name) r.selectors r.name
  kind_eq_named_iff : r.kind = .named ↔ ∃ s ∈ r.selectors, s.name ≠ none
  kind_eq_classed_iff : r.kind = .classed ↔
    (∀ s ∈ r.selectors, s.name = none) ∧ ∃ s ∈ r.selectors, s.classes ≠ []

lemma isSome_firstName (ss : List (Selector P)) :
    (firstName ss).isSome ↔ ∃ s ∈ ss, s.name ≠ none := by
  simp [firstName, Option.isSome_iff_ne_none]

lemma kindOf_eq_named (ss : List (Selector P)) : kindOf ss = .named ↔ ∃ s ∈ ss, s.name ≠ none := by
  rw [← isSome_firstName, kindOf]
  split
  · next h => simp [h]
  · next h => split <;> simp [h]

lemma kindOf_eq_classed (ss : List (Selector P)) : kindOf ss = .classed ↔
    (∀ s ∈ ss, s.name = none) ∧ ∃ s ∈ ss, s.classes ≠ [] := by
  have hname : (∀ s ∈ ss, s.name = none) ↔ ¬ (firstName ss).isSome := by
    rw [isSome_firstName]
    simp
  have hclasses : ss.any (!·.classes.isEmpty) ↔ ∃ s ∈ ss, s.classes ≠ [] := by
    simp
  rw [hname, ← hclasses, kindOf]
  split
  · next h => simp [h]
  · next h => split <;> simp [*]

@[simp] lemma selectors_ofSelectors (ss : List (Selector P)) (p : Properties) (rs : List (Rule P)) :
    (ofSelectors ss p rs).selectors = ss := rfl

@[simp] lemma properties_ofSelectors (ss : List (Selector P)) (p : Properties) (rs : List (Rule P)) :
    (ofSelectors ss p rs).properties = p := rfl

@[simp] lemma nested_ofSelectors (ss : List (Selector P)) (p : Properties) (rs : List (Rule P)) :
    (ofSelectors ss p rs).nested = rs := rfl

/-- A rule that is made for some selectors agrees with them. -/
lemma isTitled_ofSelectors (ss : List (Selector P)) (p : Properties) (rs : List (Rule P)) :
    (ofSelectors ss p rs).IsTitled where
  isFirst_name := Selector.isFirst_iff.mpr rfl
  kind_eq_named_iff := kindOf_eq_named ss
  kind_eq_classed_iff := kindOf_eq_classed ss

/-- Agreement determines the name and the kind. -/
lemma isTitled_iff (r : Rule P) :
    r.IsTitled ↔ r.name = firstName r.selectors ∧ r.kind = kindOf r.selectors := by
  constructor
  · rintro ⟨hname, hnamed, hclassed⟩
    refine ⟨(Selector.isFirst_iff.mp hname).symm, ?_⟩
    rw [← kindOf_eq_named] at hnamed
    rw [← kindOf_eq_classed] at hclassed
    -- of the three kinds two are told apart, so the third one is too
    generalize r.kind = k, kindOf r.selectors = k' at hnamed hclassed
    revert hnamed hclassed
    cases k <;> cases k' <;> decide
  · rintro ⟨hname, hkind⟩
    have h := isTitled_ofSelectors r.selectors r.properties r.nested
    exact ⟨hname ▸ h.isFirst_name, hkind ▸ h.kind_eq_named_iff, hkind ▸ h.kind_eq_classed_iff⟩

/-- A rule that agrees with its selectors is the one that is made for them. -/
lemma IsTitled.eq_ofSelectors {r : Rule P} (h : r.IsTitled) :
    r = ofSelectors r.selectors r.properties r.nested := by
  obtain ⟨hname, hkind⟩ := (isTitled_iff r).mp h
  obtain ⟨name, kind, selectors, properties, nested⟩ := r
  obtain rfl : name = firstName selectors := hname
  obtain rfl : kind = kindOf selectors := hkind
  rfl

/-! ### Flattening -/

/-- The flat rule of a top-level rule agrees with its selectors, whatever that rule keeps. -/
lemma isTitled_root (r : Rule P) : r.root.IsTitled :=
  isTitled_ofSelectors r.selectors r.properties []

/-- Only a rule that agrees with its selectors and has no rules in it is its own flat rule. -/
lemma root_eq_self_iff (r : Rule P) : r.root = r ↔ r.nested = [] ∧ r.IsTitled := by
  constructor
  · intro h
    exact ⟨h ▸ rfl, h ▸ isTitled_root r⟩
  · rintro ⟨hnested, htitled⟩
    rw [htitled.eq_ofSelectors, hnested]
    rfl

/-- The flat rule of a nested rule agrees with the merged selectors. -/
lemma isTitled_of_descend {path child next : Rule P} (h : path.descend child = some next) :
    next.IsTitled := by
  obtain ⟨merged, -, rfl⟩ := Option.map_eq_some_iff.mp h
  exact isTitled_ofSelectors merged _ []

end Rule

end MapStyle
