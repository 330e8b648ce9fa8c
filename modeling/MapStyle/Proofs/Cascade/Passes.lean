import Mathlib.Tactic.Lemma
import Mathlib.Data.List.Induction
import MapStyle.Cascade
import MapStyle.Proofs.Cascade.Properties
import MapStyle.Proofs.Cascade.Repetitions

/-!
# Grouping and collapsing

Rules are grouped by attachment and each group is collapsed into one property map. A group holds
the rules of its attachment in their order, and the last rule with a key has the last word on it.
-/

namespace MapStyle.RuleList

variable {P : Type}

/-! ### Groups -/

/-- The group of an attachment. -/
def group (rs : RuleList P) (a : Option String) : ZGroup P :=
  ⟨a, rs.filter (·.attachment == a)⟩

lemma group_concat_of_ne (rs : RuleList P) {r : Rule P} {a : Option String} (h : r.attachment ≠ a) :
    group (rs ++ [r]) a = group rs a := by
  simp [group, h]

/-- A rule that is added joins the group of its attachment, or a new one at the end. -/
lemma insertGroup_map_group (r : Rule P) (rs : RuleList P) {keys : List (Option String)}
    (h : keys.Nodup) (hnew : r.attachment ∉ keys → ∀ q ∈ rs, q.attachment ≠ r.attachment) :
    insertGroup r (keys.map (group rs)) =
      (keys ++ if r.attachment ∈ keys then [] else [r.attachment]).map (group (rs ++ [r])) := by
  induction keys with
  | nil =>
    have hrs : rs.filter (·.attachment == r.attachment) = [] := by
      simpa using hnew List.not_mem_nil
    simp [insertGroup, group, hrs]
  | cons a keys ih =>
    rw [List.nodup_cons] at h
    rw [List.map_cons, insertGroup]
    by_cases ha : a = r.attachment
    · subst ha
      -- no key occurs twice, so the groups behind this one have other keys and stay as they are
      have hkeys : keys.map (group rs) = keys.map (group (rs ++ [r])) :=
        List.map_congr_left fun b hb =>
          (group_concat_of_ne rs fun hr => h.1 (hr ▸ hb)).symm
      simp [group, hkeys]
    · have hmem : r.attachment ∈ a :: keys ↔ r.attachment ∈ keys := by
        simp [Ne.symm ha]
      rw [if_neg (by exact ha), ih h.2 (hmem.not.mpr · |> hnew), List.cons_append, List.map_cons,
        group_concat_of_ne rs (Ne.symm ha)]
      simp only [hmem]

/-- There is one group for each attachment, in the order of first appearance, and it holds the rules
with that attachment. -/
lemma zGroups_eq (rs : RuleList P) :
    rs.zGroups = (rs.map (·.attachment)).eraseDups.map (group rs) := by
  induction rs using List.reverseRecOn with
  | nil => rfl
  | append_singleton rs r ih =>
    have hstep : zGroups (rs ++ [r]) = insertGroup r (zGroups rs) := by
      simp [zGroups]
    have hnew : r.attachment ∉ (rs.map (·.attachment)).eraseDups →
        ∀ q ∈ rs, q.attachment ≠ r.attachment := by
      intro h q hq hqr
      exact h (List.mem_eraseDups.mpr (hqr ▸ List.mem_map_of_mem hq))
    have hkeys : (rs ++ [r]).map (·.attachment) = rs.map (·.attachment) ++ [r.attachment] := by
      simp
    rw [hstep, ih, insertGroup_map_group r rs (nodup_eraseDups _) hnew, hkeys, eraseDups_concat]

/-- Without attachments there is only the group of all rules. -/
lemma zGroups_of_unattached {rs : RuleList P} (h : ∀ q ∈ rs, q.attachment = none) :
    rs.zGroups = if rs = [] then [] else [⟨none, rs⟩] := by
  rw [zGroups_eq]
  cases rs with
  | nil => rfl
  | cons r rs =>
    obtain ⟨hr, hrs⟩ := List.forall_mem_cons.mp h
    have hothers : (rs.map (·.attachment)).filter (fun a => !a == none) = [] := by
      simpa using hrs
    have hall : (r :: rs).filter (·.attachment == none) = r :: rs := by
      simpa using h
    rw [List.map_cons, hr, List.eraseDups_cons, hothers, List.eraseDups_nil, List.map_singleton,
      group, hall, if_neg (List.cons_ne_nil r rs)]

/-! ### Collapsing -/

lemma collapse_concat (rs : RuleList P) (r : Rule P) :
    collapse (rs ++ [r]) = (collapse rs).cascade r.properties := by
  simp [collapse]

/-- Rules behind others are collapsed on top of them. -/
lemma collapse_append (rs ts : RuleList P) : collapse (rs ++ ts) = (collapse rs).cascade (collapse ts) := by
  induction ts using List.reverseRecOn with
  | nil => rw [List.append_nil]; rfl
  | append_singleton ts r ih =>
    rw [← List.append_assoc, collapse_concat, ih, Properties.cascade_assoc, ← collapse_concat]

/-- The value of a key is that of the last rule that has the key. -/
lemma get?_collapse (rs : RuleList P) (k : String) :
    rs.collapse.get? k = rs.reverse.findSome? (·.properties.get? k) := by
  induction rs using List.reverseRecOn with
  | nil => rfl
  | append_singleton rs r ih =>
    rw [collapse_concat, Properties.get?_cascade, ih, List.reverse_concat,
      List.findSome?_cons]
    cases r.properties.get? k <;> rfl

end MapStyle.RuleList
