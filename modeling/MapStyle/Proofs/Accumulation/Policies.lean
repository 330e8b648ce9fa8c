import MapStyle.Proofs.Accumulation.Gathering
import MapStyle.Proofs.Accumulation.Lockstep
import MapStyle.Proofs.Reading.Concatenation
import MapStyle.Proofs.Reading.Outline

/-!
# Overwriting and accumulating

One token list under the two policies for repeated keys. The readers stop with the same error, or both
give what the outline of the stylesheet says: the one the last value of each key, the other all of its
values. In the map, accumulated values are flat as long as only the first block that declares a key
declares it more than once.
-/

namespace MapStyle

open Grammar Properties

variable {P : Type}

/-! ### Values that are no composites -/

lemma exists_of_bind_eq_ok {ε α β : Type} {x : Except ε α} {f : α → Except ε β} {b : β}
    (h : x.bind f = .ok b) : ∃ a, x = .ok a ∧ f a = .ok b := by
  cases x with
  | error e => cases h
  | ok a => exact ⟨a, rfl, h⟩

/-- Whether a value is neither a list nor a composite. -/
def Value.isScalar : Value → Bool
  | list _ => false
  | composite _ => false
  | _ => true

lemma Value.not_isComposite_of_isScalar {v : Value} (h : v.isScalar) : v.isComposite = false := by
  cases v with
  | composite => cases h
  | _ => rfl

/-- A function that never gives a composite. -/
def Function.IsPlain (f : Function) : Prop :=
  ∀ args v, f args = .ok v → v.isComposite = false

/-- A function that never gives a list or a composite. -/
def Function.IsScalar (f : Function) : Prop :=
  ∀ args v, f args = .ok v → v.isScalar

/-- Functions of which none ever gives a composite. -/
def Registry.IsPlain (r : Registry) : Prop :=
  ∀ e ∈ r.entries, Function.IsPlain e.2

/-- Functions of which none ever gives a list or a composite. -/
def Registry.IsScalar (r : Registry) : Prop :=
  ∀ e ∈ r.entries, Function.IsScalar e.2

namespace Function

lemma rgb_isScalar : IsScalar rgb := by
  intro args v h
  unfold rgb at h
  split at h
  · obtain ⟨red, -, h⟩ := exists_of_bind_eq_ok h
    obtain ⟨green, -, h⟩ := exists_of_bind_eq_ok h
    obtain ⟨blue, -, h⟩ := exists_of_bind_eq_ok h
    cases h
    rfl
  · cases h

lemma rgba_isScalar : IsScalar rgba := by
  intro args v h
  unfold rgba at h
  split at h
  · obtain ⟨red, -, h⟩ := exists_of_bind_eq_ok h
    obtain ⟨green, -, h⟩ := exists_of_bind_eq_ok h
    obtain ⟨blue, -, h⟩ := exists_of_bind_eq_ok h
    obtain ⟨alpha, -, h⟩ := exists_of_bind_eq_ok h
    cases h
    rfl
  · cases h

lemma interpolate_isScalar : IsScalar interpolate := by
  intro args v h
  unfold interpolate at h
  split at h <;> cases h
  rfl

lemma randcolor_isScalar : IsScalar randcolor := by
  intro args v h
  unfold randcolor at h
  split at h <;> cases h
  rfl

end Function

namespace Registry

lemma empty_isScalar : empty.IsScalar := nofun

lemma IsScalar.insert {r : Registry} (h : r.IsScalar) (name : String) {f : Function}
    (hf : f.IsScalar) : (r.insert name f).IsScalar := by
  intro e he
  obtain rfl | he := List.mem_cons.mp he
  · exact hf
  · exact h e (List.mem_filter.mp he).1

lemma IsScalar.isPlain {r : Registry} (h : r.IsScalar) : r.IsPlain :=
  fun e he args v hv => Value.not_isComposite_of_isScalar (h e he args v hv)

/-- The functions that every stylesheet may call never give a list or a composite. -/
theorem builtin_isScalar : builtin.IsScalar :=
  (((empty_isScalar.insert "rgb" Function.rgb_isScalar).insert "rgba"
    Function.rgba_isScalar).insert "interpolate" Function.interpolate_isScalar).insert "randcolor"
    Function.randcolor_isScalar

/-- The functions that every stylesheet may call never give a composite. -/
theorem builtin_isPlain : builtin.IsPlain :=
  builtin_isScalar.isPlain

/-- A call gives what a function of the registry makes of its arguments, or is kept as it stands. -/
lemma cases_of_build_eq_ok {r : Registry} {name : String} {args : List Argument} {v : Value}
    (h : r.build name args = .ok v) : (∃ e ∈ r.entries, e.2 args = .ok v) ∨ v = .call ⟨name, args⟩ := by
  unfold Registry.build at h
  split at h
  · next f hf =>
    obtain ⟨before, behind, hentries, -⟩ := List.lookup_eq_some_iff.mp hf
    exact .inl ⟨(name.toLower, f), by simp [hentries], h⟩
  · cases h
    exact .inr rfl

lemma IsPlain.build {r : Registry} (h : r.IsPlain) {name : String} {args : List Argument} {v : Value}
    (hv : r.build name args = .ok v) : v.isComposite = false := by
  obtain ⟨e, he, hv⟩ | rfl := cases_of_build_eq_ok hv
  · exact h e he args v hv
  · rfl

lemma IsScalar.build {r : Registry} (h : r.IsScalar) {name : String} {args : List Argument}
    {v : Value} (hv : r.build name args = .ok v) : v.isScalar := by
  obtain ⟨e, he, hv⟩ | rfl := cases_of_build_eq_ok hv
  · exact h e he args v hv
  · rfl

end Registry

lemma Argument.isScalar_value (a : Argument) : a.value.isScalar := by
  cases a <;> rfl

namespace Grammar

variable {functions : Registry} {ts rest : List Token} {v : Value} {ws : List Warning}

lemma Item.value_cases (h : Item functions ts v ws rest) :
    (∃ a : Argument, v = a.value) ∨ ∃ name args, functions.build name args = .ok v := by
  cases h with
  | atom => exact .inl ⟨_, rfl⟩
  | call h =>
    cases h with
    | empty _ _ _ hv => exact .inr ⟨_, _, hv⟩
    | applied _ _ hv => exact .inr ⟨_, _, hv⟩

lemma Item.not_isComposite (hplain : functions.IsPlain) (h : Item functions ts v ws rest) :
    v.isComposite = false := by
  obtain ⟨a, rfl⟩ | ⟨name, args, hv⟩ := h.value_cases
  · exact Value.not_isComposite_of_isScalar a.isScalar_value
  · exact hplain.build hv

lemma Item.isScalar (hscalar : functions.IsScalar) (h : Item functions ts v ws rest) :
    v.isScalar := by
  obtain ⟨a, rfl⟩ | ⟨name, args, hv⟩ := h.value_cases
  · exact a.isScalar_value
  · exact hscalar.build hv

/-- What holds of every single value holds of all values of a declaration. -/
lemma Items.forall {A : Value → Prop} {vs : List Value}
    (hitem : ∀ {ts v ws rest}, Item functions ts v ws rest → A v)
    (h : Items functions ts vs ws rest) : ∀ v ∈ vs, A v := by
  induction h with
  | done => nofun
  | blank _ _ ih => exact ih
  | comma _ _ ih => exact ih
  | item h _ ih => exact List.forall_mem_cons.mpr ⟨hitem h, ih⟩

/-- The value of a declaration is made up of values of which what holds of every single value holds. -/
lemma Declaration.exists_combined {A : Value → Prop} {key : String}
    (hitem : ∀ {ts v ws rest}, Item functions ts v ws rest → A v)
    (h : Declaration functions ts key v ws rest) : ∃ vs, Combined vs v ∧ ∀ w ∈ vs, A w := by
  cases h with
  | intro _ _ _ _ hfirst hothers _ hv =>
    exact ⟨_, hv, List.forall_mem_cons.mpr ⟨hitem hfirst, hothers.forall hitem⟩⟩

lemma Declaration.not_isComposite {key : String} (hplain : functions.IsPlain)
    (h : Declaration functions ts key v ws rest) : v.isComposite = false := by
  obtain ⟨vs, hv, hvs⟩ := h.exists_combined (Item.not_isComposite hplain)
  cases hv with
  | single => exact hvs _ List.mem_cons_self
  | numbers => rfl
  | words => rfl

end Grammar

/-! ### The two policies side by side -/

/-- Two property maps that some declarations gave under the two policies: both have the keys in the
order of their first declarations, the first map has the last value of each key, and the values that
the second map has for a key are those of all its declarations in order. -/
structure Properties.GivenBy (decls : List (String × Value)) (p q : Properties) : Prop where
  keys_overwritten : p.keys = (decls.map (·.1)).eraseDups
  keys_accumulated : q.keys = (decls.map (·.1)).eraseDups
  overwritten (key : String) : p.get? key = (declared key decls).getLast?
  accumulated (key : String) : q.leavesAt key = declared key decls

/-- Declarations without composites make up such maps. -/
lemma Properties.givenBy_of_gathers {decls : List (String × Value)} {p q : Properties}
    (hp : DuplicateKeys.overwrite.Gathers decls p) (hq : DuplicateKeys.accumulate.Gathers decls q)
    (h : ∀ e ∈ decls, e.2.isComposite = false) : GivenBy decls p q where
  keys_overwritten := hp.keys
  keys_accumulated := hq.keys
  overwritten := hp.get?
  accumulated key := by
    rw [leavesAt, hq.get?, DuplicateKeys.leaves_value?]
    exact Value.flatMap_leaves fun v hv => h _ (mem_of_mem_declared hv)

/-- The declarations of several blocks are taken together in the map: what a block hands on for a key has the
last value of the key last, or all of its values as its leaves. -/
lemma Properties.givenBy_of_gathers_settled {blocks : List (List (String × Value))} {p q : Properties}
    (hp : DuplicateKeys.overwrite.Gathers (DuplicateKeys.settled .overwrite blocks) p)
    (hq : DuplicateKeys.accumulate.Gathers (DuplicateKeys.settled .accumulate blocks) q)
    (h : ∀ e ∈ blocks.flatten, e.2.isComposite = false) : GivenBy blocks.flatten p q where
  keys_overwritten := hp.keys.trans (DuplicateKeys.eraseDups_keys_settled ..)
  keys_accumulated := hq.keys.trans (DuplicateKeys.eraseDups_keys_settled ..)
  overwritten key := by
    rw [hp.get?, DuplicateKeys.declared_settled, ← flatten_groups]
    exact DuplicateKeys.getLast?_filterMap_value? _
  accumulated key := by
    rw [leavesAt, hq.get?, DuplicateKeys.leaves_value?, DuplicateKeys.declared_settled,
      DuplicateKeys.flatMap_leaves_filterMap_value?, flatten_groups]
    exact Value.flatMap_leaves fun v hv => h _ (mem_of_mem_declared hv)

mutual

/-- Two rules that a rule of an outline gave under the two policies. Both have its selectors, with the
name and the kind that belong to these. -/
inductive Outline.Gives : Outline P → Rule P → Rule P → Prop
  | mk {decls : List (String × Value)} {nested : List (Outline P)} {r s : Rule P} (hr : r.IsTitled)
      (hs : s.IsTitled) (hselectors : s.selectors = r.selectors)
      (hproperties : GivenBy decls r.properties s.properties)
      (hnested : Outline.GivesAll nested r.nested s.nested) :
      Outline.Gives ⟨r.selectors, decls, nested⟩ r s

/-- Two lists of rules that the rules of an outline gave under the two policies, one by one. -/
inductive Outline.GivesAll : List (Outline P) → List (Rule P) → List (Rule P) → Prop
  | nil : Outline.GivesAll [] [] []
  | cons {o : Outline P} {os : List (Outline P)} {r s : Rule P} {rs ss : List (Rule P)}
      (hfirst : Outline.Gives o r s) (hothers : Outline.GivesAll os rs ss) :
      Outline.GivesAll (o :: os) (r :: rs) (s :: ss)

end

/-- The rules that an outline stands for under the two policies are such rules. -/
lemma Outline.gives_rule {selectors : List (Selector P)} {decls : List (String × Value)}
    {nested : List (Outline P)} (h : ∀ e ∈ decls, e.2.isComposite = false)
    (hnested : Outline.GivesAll nested (rules .overwrite nested) (rules .accumulate nested)) :
    Outline.Gives ⟨selectors, decls, nested⟩ (rule .overwrite ⟨selectors, decls, nested⟩)
      (rule .accumulate ⟨selectors, decls, nested⟩) :=
  .mk (r := rule .overwrite ⟨selectors, decls, nested⟩) (Rule.isTitled_ofSelectors ..)
    (Rule.isTitled_ofSelectors ..) rfl
    (givenBy_of_gathers (DuplicateKeys.gathers_iff.mpr rfl) (DuplicateKeys.gathers_iff.mpr rfl) h) hnested

namespace Grammar

variable {engine : PredicateEngine P} {functions : Registry} {ts rest : List Token}
  {os : List (Outline P)} {ws : List Warning}

lemma BodyOutline.gives {decls : List (String × Value)} (hplain : functions.IsPlain)
    (h : BodyOutline engine functions ts decls os ws rest) :
    (∀ e ∈ decls, e.2.isComposite = false) ∧
      Outline.GivesAll os (Outline.rules .overwrite os) (Outline.rules .accumulate os) := by
  induction h with
  | done => exact ⟨nofun, .nil⟩
  | blank _ _ ih => exact ih
  | declaration h _ ih =>
    exact ⟨List.forall_mem_cons.mpr ⟨h.not_isComposite hplain, ih.1⟩, ih.2⟩
  | rule _ _ _ _ _ ih ih' =>
    exact ⟨ih'.1, .cons (Outline.gives_rule ih.1 ih.2) ih'.2⟩

lemma SheetOutline.gives {blocks : List (List (String × Value))} (hplain : functions.IsPlain)
    (h : SheetOutline engine functions ts os blocks ws) :
    (∀ decls ∈ blocks, ∀ e ∈ decls, e.2.isComposite = false) ∧
      Outline.GivesAll os (Outline.rules .overwrite os) (Outline.rules .accumulate os) := by
  induction h with
  | done => exact ⟨nofun, .nil⟩
  | blank _ _ ih => exact ih
  | map _ _ _ h _ ih => exact ⟨List.forall_mem_cons.mpr ⟨(h.gives hplain).1, ih.1⟩, ih.2⟩
  | rule _ _ _ h _ ih =>
    have hbody := h.gives hplain
    exact ⟨ih.1, .cons (Outline.gives_rule hbody.1 hbody.2) ih.2⟩

end Grammar

namespace Dialect

/-- Under the two policies for repeated keys, a token list has the same fault, or is a stylesheet with
the same warnings and with rules of the same shape and the same selectors. Each rule, and the map, then
has the same keys in the same order: overwriting leaves each key its last value, and accumulating
leaves it the values of all its declarations in order, of all `Map` blocks where it is a key of the
map. -/
theorem parseTokens_overwrite_accumulate (d : Dialect P) (hplain : d.functions.IsPlain)
    (ts : List Token) :
    (∃ e, { d with duplicateKeys := .overwrite }.parseTokens ts = .error e ∧
      { d with duplicateKeys := .accumulate }.parseTokens ts = .error e) ∨
    ∃ p q os blocks, { d with duplicateKeys := .overwrite }.parseTokens ts = .ok p ∧
      { d with duplicateKeys := .accumulate }.parseTokens ts = .ok q ∧
      SheetOutline d.engine d.functions ts os blocks p.warnings ∧ q.warnings = p.warnings ∧
      Outline.GivesAll os p.sheet.rules q.sheet.rules ∧
      GivenBy blocks.flatten p.sheet.map q.sheet.map := by
  have hsame : SameSyntax { d with duplicateKeys := .overwrite }
      { d with duplicateKeys := .accumulate } := ⟨rfl, rfl, rfl⟩
  obtain ⟨e, he, he'⟩ | ⟨p, q, hp, hq, -⟩ := cases_of_map_eq_map (hsame.parseTokens_map ts)
  · exact .inl ⟨e, he, he'⟩
  · obtain ⟨os, blocks, ws, hsheet, hdepth, rfl⟩ := (parseTokens_eq_ok_iff_outline _ ts p).mp hp
    have hq' := (parseTokens_eq_ok_iff_outline { d with duplicateKeys := .accumulate } ts _).mpr
      ⟨os, blocks, ws, hsheet, hdepth, rfl⟩
    obtain ⟨hblocks, hrules⟩ := hsheet.gives hplain
    have hflatten : ∀ e ∈ blocks.flatten, e.2.isComposite = false := fun e he =>
      have ⟨decls, hdecls, he⟩ := List.mem_flatten.mp he
      hblocks decls hdecls e he
    exact .inr ⟨_, _, os, blocks, hp, hq', hsheet, rfl, hrules,
      givenBy_of_gathers_settled (DuplicateKeys.gathers_foldl_join _ blocks)
        (DuplicateKeys.gathers_foldl_join _ blocks) hflatten⟩

/-- The properties of the map are declared twice, and the two readers agree on all but what that means. -/
theorem parseTokens_overwrite_accumulate_near : Registry.builtin.IsPlain ∧
    ∃ p q os blocks, cql.parseTokens (nearTokens ++ nearTokens) = .ok p ∧
      { cql with duplicateKeys := .accumulate }.parseTokens (nearTokens ++ nearTokens) = .ok q ∧
      SheetOutline cql.engine cql.functions (nearTokens ++ nearTokens) os blocks p.warnings ∧
      q.warnings = p.warnings ∧ Outline.GivesAll os p.sheet.rules q.sheet.rules ∧
      GivenBy blocks.flatten p.sheet.map q.sheet.map := by
  have hnear : cql.parseTokens (nearTokens ++ nearTokens) = .ok ⟨{ map := near }, []⟩ := by cbv
  refine ⟨Registry.builtin_isPlain, ?_⟩
  obtain ⟨e, he, -⟩ | h :=
    cql.parseTokens_overwrite_accumulate Registry.builtin_isPlain (nearTokens ++ nearTokens)
  · cases hnear.symm.trans he
  · exact h

/-- Where repeated keys accumulate, the keys of the map are those of the declarations in its blocks, in
the order in which they first appear, however these are spread over blocks. But a block hands on what
it has for a key as one value. So a key has its values side by side, as the parts of one composite if
there are two of them or more, exactly if each block but the first of those that declare the key
declares it once. -/
theorem get?_map_eq_flat?_iff (d : Dialect P) (hpolicy : d.duplicateKeys = .accumulate)
    (hplain : d.functions.IsPlain) {ts : List Token} {os : List (Outline P)}
    {blocks : List (List (String × Value))} {ws : List Warning}
    (hsheet : SheetOutline d.engine d.functions ts os blocks ws)
    (hdepth : ∀ o ∈ os, o.depth < d.maxDepth) :
    ∃ p : Parsed P, d.parseTokens ts = .ok p ∧ (∀ e ∈ blocks.flatten, e.2.isComposite = false) ∧
      p.sheet.map.keys = (blocks.flatten.map (·.1)).eraseDups ∧
      ∀ key, p.sheet.map.get? key = Value.flat? (declared key blocks.flatten) ↔
        ∀ vs ∈ (groups key blocks).tail, vs.length = 1 := by
  obtain ⟨hblocks, -⟩ := hsheet.gives hplain
  have hp := (d.parseTokens_eq_ok_iff_outline ts _).mpr ⟨os, blocks, ws, hsheet, hdepth, rfl⟩
  rw [hpolicy] at hp
  have hmap := DuplicateKeys.gathers_foldl_join .accumulate blocks
  refine ⟨_, hp, ?_, hmap.keys.trans (DuplicateKeys.eraseDups_keys_settled ..), fun key => ?_⟩
  · intro e he
    obtain ⟨decls, hdecls, he⟩ := List.mem_flatten.mp he
    exact hblocks decls hdecls e he
  · have hgroups : ∀ us ∈ groups key blocks, ∀ v ∈ us, v.isComposite = false :=
      not_isComposite_of_mem_groups hblocks
    rw [hmap.get?, DuplicateKeys.declared_settled, ← flatten_groups,
      List.filterMap_congr fun us hus => DuplicateKeys.value?_eq_flat? (hgroups us hus)]
    exact DuplicateKeys.value?_filterMap_flat?_iff (nil_notMem_groups key blocks) hgroups

/-- The tokens of `map{zoom:near;zoom:far;}`, with any words in place of these. -/
def zoomTokens (words : List String) : List Token :=
  ⟨.identifier, "map", "map", {}⟩ :: ⟨.delimiter, "\x7b", "\x7b", {}⟩ ::
    (words.flatMap fun w => [⟨.identifier, "zoom", "zoom", {}⟩, ⟨.delimiter, ":", ":", {}⟩,
      ⟨.identifier, w, w, {}⟩, ⟨.delimiter, ";", ";", {}⟩]) ++ [⟨.delimiter, "\x7d", "\x7d", {}⟩]

lemma sheetOutline_zoomTokens {engine : PredicateEngine P} {functions : Registry}
    (words : List String) {ts : List Token} {os : List (Outline P)}
    {blocks : List (List (String × Value))} (h : SheetOutline engine functions ts os blocks []) :
    SheetOutline engine functions (zoomTokens words ++ ts) os
      (words.map (fun w => ("zoom", Value.string w)) :: blocks) [] := by
  have hkeyword : (⟨.identifier, "map", "map", {}⟩ : Token).isKeyword "map" := by
    simp [Token.isKeyword, Text.sameWord]
  suffices hbody : BodyOutline engine functions _ _ [] [] ts from .map hkeyword .none rfl hbody h
  induction words with
  | nil => exact .done rfl
  | cons w words ih =>
    have hdecl (us : List Token) : Grammar.Declaration functions (⟨.identifier, "zoom", "zoom", {}⟩ ::
        ⟨.delimiter, ":", ":", {}⟩ :: ⟨.identifier, w, w, {}⟩ :: ⟨.delimiter, ";", ";", {}⟩ :: us)
        "zoom" (Value.string w) [] us :=
      .intro rfl .none rfl .none (.atom (.word (.inl rfl))) .done
        (.semicolon rfl) .single
    exact .declaration (hdecl _) ih

/-- A block with two values and a second one with a single value give one flat composite. -/
theorem get?_map_zoom : ∃ p : Parsed Cql.Expr,
    { cql with duplicateKeys := .accumulate }.parseTokens
      (zoomTokens ["near", "far"] ++ (zoomTokens ["off"] ++ [])) = .ok p ∧
    p.sheet.map.get? "zoom" =
      some (.composite [.string "near", .string "far", .string "off"]) := by
  have hsheet : SheetOutline Cql.Expr.parse .builtin _ _ _ _ :=
    sheetOutline_zoomTokens ["near", "far"] (sheetOutline_zoomTokens ["off"] .done)
  obtain ⟨p, hp, -, -, h⟩ := get?_map_eq_flat?_iff { cql with duplicateKeys := .accumulate } rfl
    Registry.builtin_isPlain hsheet nofun
  exact ⟨p, hp, (h "zoom").mpr (by simp [groups, declared, List.filter])⟩

/-- The other way round, with the two values in the second block, they stay together as a part of their own. -/
theorem exists_map_get?_ne_flat? : ∃ p q : Parsed Cql.Expr,
    { cql with duplicateKeys := .accumulate }.parseTokens (zoomTokens ["near", "far", "off"]) =
      .ok p ∧
    { cql with duplicateKeys := .accumulate }.parseTokens
      (zoomTokens ["near"] ++ zoomTokens ["far", "off"]) = .ok q ∧
    p.sheet.map.get? "zoom" = Value.flat? [.string "near", .string "far", .string "off"] ∧
    q.sheet.map.get? "zoom" ≠ Value.flat? [.string "near", .string "far", .string "off"] := by
  have hone : { cql with duplicateKeys := .accumulate }.parseTokens
      (zoomTokens ["near", "far", "off"]) = .ok ⟨{ map := ⟨[("zoom", .composite
        [.string "near", .string "far", .string "off"])], by simp⟩ }, []⟩ := by cbv
  have htwo : { cql with duplicateKeys := .accumulate }.parseTokens
      (zoomTokens ["near"] ++ zoomTokens ["far", "off"]) = .ok ⟨{ map := ⟨[("zoom", .composite
        [.string "near", .composite [.string "far", .string "off"]])], by simp⟩ }, []⟩ := by cbv
  exact ⟨_, _, hone, htwo, by simp [get?, Value.flat?], by simp [get?, Value.flat?, Value.string]⟩

end Dialect

end MapStyle
