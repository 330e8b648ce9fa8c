import MapStyle.Proofs.Reading.Sheets

/-!
# Outlines

What is written in a stylesheet does not depend on what a repeated key means. The outline of a rule
keeps its declarations apart, in the order of the text; the policy for repeated keys then makes the
properties of a rule out of them. So the grammar of stylesheets comes apart into a grammar of outlines,
which knows nothing of the policy, and a function from outlines to rules, which knows nothing of the
text.
-/

namespace MapStyle

open Grammar

variable {P : Type}

/-- A rule as it is written: its selectors, its declarations one by one, and the rules nested in it. -/
inductive Outline (P : Type) where
  | mk (selectors : List (Selector P)) (decls : List (String × Value)) (nested : List (Outline P))

namespace Outline

mutual

/-- The rule that an outline stands for, under a policy for repeated keys. -/
def rule (policy : DuplicateKeys) : Outline P → Rule P
  | ⟨selectors, decls, nested⟩ =>
    .ofSelectors selectors (policy.declareAll decls {}) (rules policy nested)

/-- The rules that the outlines of a list stand for. -/
def rules (policy : DuplicateKeys) : List (Outline P) → List (Rule P)
  | [] => []
  | o :: os => rule policy o :: rules policy os

end

mutual

/-- How deep rules are nested in an outline. -/
def depth : Outline P → Nat
  | ⟨_, _, nested⟩ => depthList nested

/-- How deep rules are nested below the parent of a list of outlines. -/
def depthList : List (Outline P) → Nat
  | [] => 0
  | o :: os => max (depth o + 1) (depthList os)

end

mutual

/-- The policy for repeated keys does not change how deep rules are nested. -/
lemma depth_rule (policy : DuplicateKeys) : ∀ o : Outline P, (o.rule policy).depth = o.depth
  | ⟨_, _, nested⟩ => depthList_rules policy nested

lemma depthList_rules (policy : DuplicateKeys) :
    ∀ os : List (Outline P), Rule.depthList (rules policy os) = depthList os
  | [] => rfl
  | o :: os => by
    rw [rules, Rule.depthList, depthList, depth_rule policy o, depthList_rules policy os]

end

lemma forall_depth_rules {policy : DuplicateKeys} {os : List (Outline P)} {n : Nat} :
    (∀ r ∈ rules policy os, r.depth < n) ↔ ∀ o ∈ os, o.depth < n := by
  induction os with
  | nil => simp [rules]
  | cons o os ih => simp only [rules, List.forall_mem_cons, depth_rule, ih]

end Outline

namespace Grammar

/-- What stands between the braces of a block, and the closing brace, with the nested rules in
outline. -/
inductive BodyOutline (engine : PredicateEngine P) (functions : Registry) :
    List Token → List (String × Value) → List (Outline P) → List Warning → List Token → Prop
  | done {t : Token} {ts : List Token} (h : t.isDelimiter "\x7d") :
      BodyOutline engine functions (t :: ts) [] [] [] ts
  | blank {t : Token} {ts rest : List Token} {decls : List (String × Value)} {os : List (Outline P)}
      {ws : List Warning} (h : t.isWhitespace ∨ t.isDelimiter ";")
      (hmore : BodyOutline engine functions ts decls os ws rest) :
      BodyOutline engine functions (t :: ts) decls os ws rest
  | declaration {ts us rest : List Token} {key : String} {v : Value}
      {decls : List (String × Value)} {os : List (Outline P)} {ws ws' : List Warning}
      (h : Declaration functions ts key v ws us)
      (hmore : BodyOutline engine functions us decls os ws' rest) :
      BodyOutline engine functions ts ((key, v) :: decls) os (ws ++ ws') rest
  | rule {t : Token} {ts us vs rest : List Token} {selectors : List (Selector P)}
      {inner decls : List (String × Value)} {nested os : List (Outline P)} {ws ws' : List Warning}
      (hstart : t.startsSelector) (hkey : t.kind ≠ .identifier)
      (hselectors : Selectors engine (t :: ts) selectors us)
      (h : BodyOutline engine functions us inner nested ws vs)
      (hmore : BodyOutline engine functions vs decls os ws' rest) :
      BodyOutline engine functions (t :: ts) decls (⟨selectors, inner, nested⟩ :: os) (ws ++ ws') rest

/-- A stylesheet: its rules in outline, the declarations of each of its `Map` blocks, and the
warnings. -/
inductive SheetOutline (engine : PredicateEngine P) (functions : Registry) :
    List Token → List (Outline P) → List (List (String × Value)) → List Warning → Prop
  | done : SheetOutline engine functions [] [] [] []
  | blank {t : Token} {ts : List Token} {os : List (Outline P)}
      {blocks : List (List (String × Value))} {ws : List Warning} (h : t.isWhitespace)
      (hmore : SheetOutline engine functions ts os blocks ws) :
      SheetOutline engine functions (t :: ts) os blocks ws
  | map {t u : Token} {ts us vs : List Token} {decls : List (String × Value)}
      {os : List (Outline P)} {blocks : List (List (String × Value))} {ws ws' : List Warning}
      (hkeyword : t.isKeyword "map") (hblanks : Blanks ts (u :: us)) (hbrace : u.isDelimiter "\x7b")
      (h : BodyOutline engine functions us decls [] ws vs)
      (hmore : SheetOutline engine functions vs os blocks ws') :
      SheetOutline engine functions (t :: ts) os (decls :: blocks) (ws ++ ws')
  | rule {t : Token} {ts us vs : List Token} {selectors : List (Selector P)}
      {decls : List (String × Value)} {nested os : List (Outline P)}
      {blocks : List (List (String × Value))} {ws ws' : List Warning} (hstart : t.startsSelector)
      (hkeyword : ¬ t.isKeyword "map") (hselectors : Selectors engine (t :: ts) selectors us)
      (h : BodyOutline engine functions us decls nested ws vs)
      (hmore : SheetOutline engine functions vs os blocks ws') :
      SheetOutline engine functions (t :: ts) (⟨selectors, decls, nested⟩ :: os) blocks (ws ++ ws')

variable {d : Dialect P} {ts rest : List Token} {decls : List (String × Value)} {ws : List Warning}

/-- A body is the outline of one, with the policy for repeated keys carried out. -/
theorem body_iff {rs : List (Rule P)} : Body d ts decls rs ws rest ↔ ∃ os,
    BodyOutline d.engine d.functions ts decls os ws rest ∧ rs = Outline.rules d.duplicateKeys os := by
  constructor
  · intro h
    induction h with
    | done h => exact ⟨[], .done h, rfl⟩
    | blank h _ ih =>
      obtain ⟨os, hbody, rfl⟩ := ih
      exact ⟨os, .blank h hbody, rfl⟩
    | declaration h _ ih =>
      obtain ⟨os, hbody, rfl⟩ := ih
      exact ⟨os, .declaration h hbody, rfl⟩
    | rule hstart hkey hselectors _ hrule _ ih ih' =>
      obtain ⟨nested, hinner, rfl⟩ := ih
      obtain ⟨os, hbody, rfl⟩ := ih'
      obtain rfl := isRule_iff.mp hrule
      exact ⟨_, .rule hstart hkey hselectors hinner hbody, rfl⟩
  · rintro ⟨os, h, rfl⟩
    induction h with
    | done h => exact .done h
    | blank h _ ih => exact .blank h ih
    | declaration h _ ih => exact .declaration h ih
    | rule hstart hkey hselectors _ _ ih ih' =>
      exact .rule hstart hkey hselectors ih (isRule_iff.mpr rfl) ih'

/-- A stylesheet is the outline of one, with the policy for repeated keys carried out. -/
theorem stylesheet_iff {rs : List (Rule P)} {ps : List Properties} :
    Stylesheet d ts rs ps ws ↔ ∃ os blocks, SheetOutline d.engine d.functions ts os blocks ws ∧
      rs = Outline.rules d.duplicateKeys os ∧
      ps = blocks.map fun decls => d.duplicateKeys.declareAll decls {} := by
  -- the rules and the blocks that the policy gives are those of the grammar, one by one
  constructor
  · intro h
    induction h with
    | done => exact ⟨[], [], .done, rfl, rfl⟩
    | blank h _ ih =>
      obtain ⟨os, blocks, hsheet, rfl, rfl⟩ := ih
      exact ⟨os, blocks, .blank h hsheet, rfl, rfl⟩
    | map hkeyword hblanks hbrace h hblock _ ih =>
      obtain ⟨nested, hbody, hnested⟩ := body_iff.mp h
      obtain ⟨os, blocks, hsheet, rfl, rfl⟩ := ih
      obtain rfl := DuplicateKeys.gathers_iff.mp hblock
      cases nested with
      | nil => exact ⟨os, _, .map hkeyword hblanks hbrace hbody hsheet, rfl, rfl⟩
      | cons => cases hnested
    | rule hstart hkeyword hselectors h hrule _ ih =>
      obtain ⟨nested, hbody, rfl⟩ := body_iff.mp h
      obtain ⟨os, blocks, hsheet, rfl, rfl⟩ := ih
      obtain rfl := isRule_iff.mp hrule
      exact ⟨_, blocks, .rule hstart hkeyword hselectors hbody hsheet, rfl, rfl⟩
  · rintro ⟨os, blocks, h, rfl, rfl⟩
    induction h with
    | done => exact .done
    | blank h _ ih => exact .blank h ih
    | map hkeyword hblanks hbrace h _ ih =>
      have hbody := body_iff.mpr ⟨[], h, rfl⟩
      exact .map hkeyword hblanks hbrace hbody (DuplicateKeys.gathers_iff.mpr rfl) ih
    | rule hstart hkeyword hselectors h _ ih =>
      exact .rule hstart hkeyword hselectors (body_iff.mpr ⟨_, h, rfl⟩) (isRule_iff.mpr rfl) ih

end Grammar

/-- A reader accepts the token lists that have an outline with rules no deeper than allowed, and
carries out its policy for repeated keys on the outline. -/
theorem Dialect.parseTokens_eq_ok_iff_outline (d : Dialect P) (ts : List Token) (p : Parsed P) :
    d.parseTokens ts = .ok p ↔ ∃ os blocks ws, SheetOutline d.engine d.functions ts os blocks ws ∧
      (∀ o ∈ os, o.depth < d.maxDepth) ∧
      p = ⟨{ rules := Outline.rules d.duplicateKeys os,
             map := (blocks.map fun decls => d.duplicateKeys.declareAll decls {}).foldl
               d.duplicateKeys.join {} }, ws⟩ := by
  rw [Machine.parseTokens_eq_read]
  refine Machine.acceptsTop_iff.trans ?_
  constructor
  · rintro ⟨rs, ps, ws, hsheet, hdepth, rfl⟩
    obtain ⟨os, blocks, houtline, rfl, rfl⟩ := stylesheet_iff.mp hsheet
    exact ⟨os, blocks, ws, houtline, Outline.forall_depth_rules.mp hdepth, rfl⟩
  · rintro ⟨os, blocks, ws, hsheet, hdepth, rfl⟩
    exact ⟨_, _, ws, stylesheet_iff.mpr ⟨os, blocks, hsheet, rfl, rfl⟩,
      Outline.forall_depth_rules.mpr hdepth, rfl⟩

end MapStyle
