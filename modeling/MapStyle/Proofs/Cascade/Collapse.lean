import MapStyle.Proofs.Cascade.Drawing

/-!
# Collapsed rules

What collapsing rules into one property map makes of the declarations in them. A key has the place of
its first declaration and the value of its last one, so rules can be collapsed in parts that are put on
top of one another.
-/

namespace MapStyle

variable {P : Type}

/-- The keys that some rules declare, in turn. -/
def RuleList.declared (rs : RuleList P) : List String :=
  rs.flatMap (·.properties.keys)

/-- A property map has the declarations of some rules: each key that is declared occurs once, in the
order of the first declarations, and has the value of the last rule that declares it. -/
structure Properties.Collapses (p : Properties) (rs : RuleList P) : Prop where
  nodup : p.keys.Nodup
  mem_keys : ∀ k, k ∈ p.keys ↔ ∃ r ∈ rs, k ∈ r.properties.keys
  ordered : p.keys.Pairwise fun k l => rs.declared.idxOf k < rs.declared.idxOf l
  get? : ∀ k v, p.get? k = some v ↔ ∃ before r after, rs = before ++ r :: after ∧
    r.properties.get? k = some v ∧ ∀ q ∈ after, k ∉ q.properties.keys

namespace RuleList

lemma collapses_collapse (rs : RuleList P) : rs.collapse.Collapses rs where
  nodup := by
    rw [keys_collapse]
    exact nodup_eraseDups _
  mem_keys k := by simp [keys_collapse, List.mem_eraseDups]
  ordered := by
    rw [keys_collapse]
    exact pairwise_idxOf_eraseDups _
  get? k v := by
    have hnone (q : Rule P) : k ∉ q.properties.keys ↔ q.properties.get? k = none := by
      rw [← Properties.contains_iff, Properties.contains, Option.not_isSome_iff_eq_none]
    simp only [get?_collapse, List.findSome?_eq_some_iff, List.reverse_eq_append_iff, List.reverse_cons,
      List.append_assoc, List.singleton_append, hnone]
    constructor
    · rintro ⟨after, r, before, rfl, hr, hafter⟩
      exact ⟨before.reverse, r, after.reverse, rfl, hr, fun q hq => hafter q (List.mem_reverse.mp hq)⟩
    · rintro ⟨before, r, after, rfl, hr, hafter⟩
      refine ⟨after.reverse, r, before.reverse, ?_, hr, fun q hq => hafter q (List.mem_reverse.mp hq)⟩
      rw [List.reverse_reverse, List.reverse_reverse]

/-- Rules behind others are collapsed on top of them, wherever a list is split. In each part, a key has the
place of its first declaration and the value of its last one. -/
theorem collapse_split (xs ys : RuleList P) :
    (xs ++ ys).collapse = xs.collapse.cascade ys.collapse ∧ xs.collapse.Collapses xs :=
  ⟨collapse_append xs ys, collapses_collapse xs⟩

end RuleList

end MapStyle
