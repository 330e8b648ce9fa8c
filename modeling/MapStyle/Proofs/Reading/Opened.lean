import MapStyle.Proofs.Reading.Progress

/-!
# Opened rules

A brace opens a rule that agrees with the selectors in front of it. In an accepted stylesheet it is then one of
the rules of the sheet, at the top level or in others, with the selectors that it was opened with.
-/

namespace MapStyle

open Grammar

variable {P : Type}

/-- What holds of a rule or of one of the rules nested in it, however deep. -/
inductive Rule.Somewhere (A : Rule P → Prop) : Rule P → Prop
  | here {r : Rule P} (h : A r) : Somewhere A r
  | inside {r q : Rule P} (hmem : q ∈ r.nested) (h : Somewhere A q) : Somewhere A r

/-- A stylesheet has a rule with certain selectors. -/
def Sheet.HasRule (s : Sheet P) (ss : List (Selector P)) : Prop :=
  ∃ r ∈ s.rules, r.Somewhere (·.selectors = ss)

namespace Machine

variable {d : Dialect P} {p : Parsed P} {m : Machine P} {earlier : List (Selector P)} {filtered : Bool}
  {ps : List (SelectorPart P)} {ss : List (Selector P)} {ts us : List Token}

/-- The rule that a brace opens has the selectors in front of it, with the name and the kind that belong to
them. There is nothing in it yet. -/
theorem isRule_of_openRule {limit : Nat} {t : Token} {m' : Machine P} (policy : DuplicateKeys)
    (h : m.openRule limit t = .ok m') : ∃ earlier current below r,
      m.context = .selectors earlier current :: below ∧ m'.context = .ruleBody :: below ∧
      m'.fragments = .rule r :: m.fragments ∧ IsRule policy (earlier ++ [current]) [] [] r := by
  unfold openRule at h
  split at h
  · next earlier current below hcontext =>
    dsimp only at h
    split at h
    · cases h
    split at h
    · cases h
    · cases h
      exact ⟨earlier, current, below, _, hcontext, rfl, rfl, isRule_iff.mpr rfl⟩
  · cases h

/-- A rule keeps what it has while its body is read, and so do the rules around it. -/
lemma somewhere_of_acceptsBody {A : Rule P → Prop} {r : Rule P} {ws : List Warning}
    (hnest : Nest m.control m.context m.fragments)
    (hr : ∀ decls rs, (extend d.duplicateKeys r decls rs).Somewhere A) (h : AcceptsBody d p m r ws ts) :
    ∃ q ∈ p.sheet.rules, q.Somewhere A := by
  obtain ⟨control, context, fragments, rules, map, warnings, last⟩ := m
  dsimp only at hnest
  induction hnest generalizing r ws ts with
  | top =>
    obtain ⟨decls, rs, ws', rest, -, -, h⟩ := (acceptsBody_iff fun _ => rfl).mp h
    obtain ⟨later, _, _, -, -, rfl⟩ := acceptsTop_iff.mp h
    exact ⟨_, by simp, hr decls rs⟩
  | @rule control context fragments hnest parent ih =>
    obtain ⟨decls, rs, ws', rest, -, -, h⟩ := (acceptsBody_iff (by nofun)).mp h
    -- behind the rule, the body of the one around it goes on with one more nested rule
    refine ih (r := { parent with nested := parent.nested ++ [extend d.duplicateKeys r decls rs] }) ?_ h
    exact fun _ _ => .inside (by simp [extend]) (hr decls rs)

lemma hasRule_of_acceptsOpened (hnest : Nest m.control m.context m.fragments)
    (h : AcceptsOpened d p m ss ts) : p.sheet.HasRule ss :=
  somewhere_of_acceptsBody hnest (r := .ofSelectors ss) (fun _ _ => .here rfl) h

lemma acceptsParts_blanks (h : Blanks ts us) :
    AcceptsParts d p m earlier filtered ps ts ↔ AcceptsParts d p m earlier filtered ps us := by
  induction h with
  | none => rfl
  | more ht _ ih => rw [acceptsParts_blank _ _ ht, ih]

end Machine

end MapStyle
