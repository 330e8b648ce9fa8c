import Mathlib
import MapStyle.Cql.Expr
import MapStyle.Proofs.Accumulation.Gathering
import MapStyle.Proofs.Cascade.Passes
import MapStyle.Proofs.Selector.Titles
import MapStyle.Resolver

/-!
# The passes of a candidate

The flat rules that take part in drawing a candidate are shared out among the passes, one pass for
each attachment. A pass has the keys of its rules in the order of their first appearance, and each key
has its value from the last rule that has the key.
-/

namespace MapStyle

variable {P : Type}

lemma Properties.keys_cascade {p q : Properties} {ks : List String} (h : p.keys = ks.eraseDups) :
    (p.cascade q).keys = (ks ++ q.keys).eraseDups :=
  DuplicateKeys.keys_foldl_alter (fun _ _ => ⟨_, rfl⟩) q.entries h

/-- The keys of collapsed rules are in the order of their first appearance. -/
lemma RuleList.keys_collapse (rs : RuleList P) :
    rs.collapse.keys = (rs.flatMap (·.properties.keys)).eraseDups := by
  induction rs using List.reverseRecOn with
  | nil => rfl
  | append_singleton rs r ih =>
    rw [collapse_concat, Properties.keys_cascade ih, List.flatMap_append, List.flatMap_singleton]

lemma Properties.contains_iff (p : Properties) (k : String) : p.contains k ↔ k ∈ p.keys := by
  rw [contains, Option.isSome_iff_exists, keys, List.mem_map]
  constructor
  · rintro ⟨v, hv⟩
    exact ⟨(k, v), (p.mem_entries_iff k v).mpr hv, rfl⟩
  · rintro ⟨⟨_, v⟩, he, rfl⟩
    exact ⟨v, (p.mem_entries_iff _ v).mp he⟩

/-- Some rules make up the properties of a pass: it has the keys of any of them, in the order of their
first appearance, with the values from the last rule that has the key. -/
structure Pass.IsDrawnBy (pass : Pass) (rs : RuleList P) : Prop where
  contains : ∀ k, pass.properties.contains k ↔ ∃ q ∈ rs, q.properties.contains k
  get? : ∀ k, pass.properties.get? k = rs.reverse.findSome? (·.properties.get? k)
  keys : pass.properties.keys = (rs.flatMap (·.properties.keys)).eraseDups

lemma RuleList.isDrawnBy_collapse (a : Option String) (rs : RuleList P) :
    Pass.IsDrawnBy ⟨a, rs.collapse⟩ rs where
  contains k := by
    simp [Properties.contains_iff, keys_collapse, List.mem_eraseDups]
  get? := get?_collapse rs
  keys := keys_collapse rs

namespace Resolver

variable [Predicate P]

/-- The flat rules that take part in drawing a candidate of a layer. From all stylesheets in turn,
these are the flat rules of the top-level rules with a selector for the layer, of which those are kept
that have a selector which accepts the candidate. -/
def drawing (r : Resolver P) (layer : Option String) (c : Candidate) : RuleList P :=
  (((r.sheets.flatMap (·.rules)).filter fun q => ∃ t ∈ q.selectors, t.selectsId layer true).flatMap
    Rule.flatten).filter fun q => ∃ t ∈ q.selectors, t.accepts c

lemma matching_layerRules (r : Resolver P) (layer : Option String) (c : Candidate) :
    (r.layerRules layer).matching c = r.drawing layer c := by
  have hany (q : Rule P) (p : Selector P → Bool) :
      q.selectors.any p = decide (∃ t ∈ q.selectors, p t) := by
    rw [Bool.eq_iff_iff, List.any_eq_true, decide_eq_true_iff]
  simp only [layerRules, RuleList.matching, RuleList.selectById, RuleList.flatten, drawing, hany,
    List.filter_flatMap, List.flatMap_assoc]

/-- The rules that take part are shared out by attachment, which is the first one that is set on the
selectors of a rule, or none. There is one pass for each attachment among them, in the order of first
appearance, and each rule belongs to exactly one pass. A pass has the properties that the rules with its
attachment make up. -/
theorem resolve_drawing (r : Resolver P) (layer : Option String) (c : Candidate) :
    (∀ q ∈ r.drawing layer c, Selector.IsFirst (·.attachment) q.selectors q.attachment) ∧
      (r.resolve layer c).map (·.attachment) =
        ((r.drawing layer c).map (·.attachment)).eraseDups ∧
      ((r.resolve layer c).map (·.attachment)).Nodup ∧
      (∀ q ∈ r.drawing layer c,
        (r.resolve layer c).countP (·.attachment == q.attachment) = 1) ∧
      ∀ pass ∈ r.resolve layer c,
        pass.IsDrawnBy ((r.drawing layer c).filter (·.attachment == pass.attachment)) := by
  set drawing := r.drawing layer c with hdrawing
  -- everything follows from this form of the passes, one for each attachment
  have hresolve : r.resolve layer c = (drawing.map (·.attachment)).eraseDups.map fun a =>
      ⟨a, RuleList.collapse (drawing.filter (·.attachment == a))⟩ := by
    rw [resolve, matching_layerRules, ← hdrawing, RuleList.zGroups_eq, List.map_map]
    rfl
  have hattachments : (r.resolve layer c).map (·.attachment) =
      (drawing.map (·.attachment)).eraseDups := by
    rw [hresolve, List.map_map]
    exact List.map_id _
  have hnodup : ((r.resolve layer c).map (·.attachment)).Nodup :=
    hattachments ▸ nodup_eraseDups _
  refine ⟨fun q _ => q.isFirst_attachment, hattachments, hnodup, ?_, ?_⟩
  · intro q hq
    have hmem : q.attachment ∈ (r.resolve layer c).map (·.attachment) := by
      rw [hattachments, List.mem_eraseDups]
      exact List.mem_map_of_mem hq
    have hcount := List.count_eq_one_of_mem hnodup hmem
    rwa [List.count, List.countP_map] at hcount
  · intro pass hpass
    rw [hresolve] at hpass
    obtain ⟨a, -, rfl⟩ := List.mem_map.mp hpass
    exact RuleList.isDrawnBy_collapse a _

/-- `#roads::casing { width: 6; } #roads { width: 4; } #roads::casing, #roads::glow { width: 8; }
#roads, #roads::glow { blur: 2; }` -/
def cased : Resolver Cql.Expr where
  sheets := [{
    rules := [
      .ofSelectors [{ id := some "roads", attachment := some "casing" }]
        (.ofList [("width", .literal (.integer 6))]),
      .ofSelectors [{ id := some "roads" }] (.ofList [("width", .literal (.integer 4))]),
      .ofSelectors [{ id := some "roads", attachment := some "casing" },
          { id := some "roads", attachment := some "glow" }]
        (.ofList [("width", .literal (.integer 8))]),
      .ofSelectors [{ id := some "roads" }, { id := some "roads", attachment := some "glow" }]
        (.ofList [("blur", .literal (.integer 2))])] }]

/-- The third rule of `cased` is drawn with the first one, under the attachment of its first selector. The
last rule has an attachment of its own, since its first selector has none. -/
theorem resolve_cased :
    (cased.resolve (some "roads") fun _ => none).map (·.attachment) =
        [some "casing", none, some "glow"] ∧
      ∀ pass ∈ cased.resolve (some "roads") fun _ => none, pass.attachment = some "casing" →
        pass.properties.keys = ["width"] ∧
          pass.properties.get? "width" = some (.literal (.integer 8)) := by
  have hdrawing : cased.drawing (some "roads") (fun _ => none) = cased.sheets.flatMap (·.rules) := by
    cbv
  obtain ⟨-, hattachments, -, -, hdrawn⟩ := resolve_drawing cased (some "roads") fun _ => none
  rw [hdrawing] at hattachments hdrawn
  refine ⟨hattachments.trans (by decide), fun pass hpass hcasing => ?_⟩
  obtain ⟨-, hget, hkeys⟩ := hdrawn pass hpass
  rw [hcasing] at hget hkeys
  exact ⟨hkeys.trans (by decide), (hget "width").trans rfl⟩

end Resolver

end MapStyle
