import Mathlib.Data.List.Forall2
import MapStyle.Proofs.Cascade.Drawing

/-!
# A stylesheet on top

What a resolver draws once another stylesheet is added on top: the same passes in the same order, perhaps with
more behind them, each with its keys in their old order, perhaps with more behind them. A key has another value
only if a rule of the new stylesheet gives it one.
-/

namespace MapStyle

variable {P : Type}

namespace Properties

lemma keys_prefix_set (p : Properties) (key : String) (v : Value) : p.keys <+: (p.set key v).keys := by
  rw [keys, keys, set, map_fst_alter]
  split
  · exact List.prefix_rfl
  · exact List.prefix_append _ _

/-- Keys keep their places under whatever comes on top. -/
lemma keys_prefix_cascade (p q : Properties) : p.keys <+: (p.cascade q).keys := by
  rw [cascade]
  induction q.entries generalizing p with
  | nil => exact List.prefix_rfl
  | cons e es ih => exact (keys_prefix_set p e.1 e.2).trans (ih _)

end Properties

/-- The flat rules of a stylesheet that take part in drawing a candidate of a layer. -/
def Sheet.drawing [Predicate P] (s : Sheet P) (layer : Option String) (c : Candidate) : RuleList P :=
  (s.rules.selectById layer true).flatten.matching c

/-- A pass goes on from an older one, with some rules on top: it is for the same attachment, its keys begin with
those of the older one, and it has other values only for keys that one of the rules for the attachment has. -/
structure Pass.Continues (rs : RuleList P) (pass old : Pass) : Prop where
  attachment : pass.attachment = old.attachment
  keys : old.properties.keys <+: pass.properties.keys
  get? : ∀ k, pass.properties.get? k ≠ old.properties.get? k →
    ∃ q ∈ rs, q.attachment = old.attachment ∧ q.properties.contains k

/-- Rules that are collapsed on top of a pass make a pass that goes on from it. -/
lemma Pass.continues_cascade (rs : RuleList P) (old : Pass) :
    Continues rs ⟨old.attachment, old.properties.cascade
      (RuleList.collapse (rs.filter (·.attachment == old.attachment)))⟩ old where
  attachment := rfl
  keys := Properties.keys_prefix_cascade _ _
  get? k hk := by
    rw [Properties.get?_cascade, RuleList.get?_collapse] at hk
    cases hvalue : (rs.filter (·.attachment == old.attachment)).reverse.findSome? (·.properties.get? k) with
    | none =>
      rw [hvalue, Option.none_or] at hk
      exact absurd rfl hk
    | some v =>
      obtain ⟨q, hq, hqv⟩ := List.exists_of_findSome?_eq_some hvalue
      rw [List.mem_reverse, List.mem_filter, beq_iff_eq] at hq
      refine ⟨q, hq.1, hq.2, ?_⟩
      rw [Properties.contains, hqv]
      rfl

namespace Resolver

/-- The map of a stylesheet on top overrides that of the others. -/
lemma map_add (r : Resolver P) (s : Sheet P) : (r.add s).map = r.map.cascade s.map := by
  rw [map, add, List.foldl_append]
  rfl

variable [Predicate P]

/-- There is one pass for each attachment of the rules that take part, and these are collapsed in it. -/
lemma resolve_eq (r : Resolver P) (layer : Option String) (c : Candidate) :
    r.resolve layer c = (((r.layerRules layer).matching c).map (·.attachment)).eraseDups.map fun a =>
      ⟨a, RuleList.collapse (((r.layerRules layer).matching c).filter (·.attachment == a))⟩ := by
  rw [resolve, RuleList.zGroups_eq, List.map_map]
  rfl

/-- The rules of a stylesheet on top take part behind those of the others. -/
lemma matching_layerRules_add (r : Resolver P) (s : Sheet P) (layer : Option String) (c : Candidate) :
    ((r.add s).layerRules layer).matching c = (r.layerRules layer).matching c ++ s.drawing layer c := by
  rw [layerRules, add, List.flatMap_append, List.flatMap_singleton, RuleList.matching, List.filter_append]
  rfl

/-- A stylesheet on top takes nothing away. The passes of a candidate go on from those that it had, with
the rules of the new stylesheet on top, and any others come behind them; the keys of the map keep their
places, too. -/
theorem resolve_add (r : Resolver P) (s : Sheet P) (layer : Option String) (c : Candidate) :
    (r.resolve layer c).map (·.attachment) <+: ((r.add s).resolve layer c).map (·.attachment) ∧
      (∃ continued fresh, (r.add s).resolve layer c = continued ++ fresh ∧
        List.Forall₂ (Pass.Continues (s.drawing layer c)) continued (r.resolve layer c)) ∧
      r.map.keys <+: (r.add s).map.keys := by
  have hsplit : ∃ continued fresh, (r.add s).resolve layer c = continued ++ fresh ∧
      List.Forall₂ (Pass.Continues (s.drawing layer c)) continued (r.resolve layer c) := by
    rw [resolve_eq, matching_layerRules_add, List.map_append, List.eraseDups_append, List.map_append]
    refine ⟨_, _, rfl, ?_⟩
    rw [resolve_eq, List.forall₂_map_left_iff, List.forall₂_map_right_iff, List.forall₂_same]
    intro a _
    rw [List.filter_append, RuleList.collapse_append]
    exact Pass.continues_cascade (s.drawing layer c) ⟨a, _⟩
  refine ⟨?_, hsplit, map_add r s ▸ Properties.keys_prefix_cascade _ _⟩
  obtain ⟨continued, fresh, hresolve, hcontinued⟩ := hsplit
  have hattachments : continued.map (·.attachment) = (r.resolve layer c).map (·.attachment) := by
    rw [← List.forall₂_eq_eq_eq, List.forall₂_map_left_iff, List.forall₂_map_right_iff]
    exact hcontinued.imp fun _ _ h => h.attachment
  rw [hresolve, List.map_append, hattachments]
  exact List.prefix_append _ _

end Resolver

end MapStyle
