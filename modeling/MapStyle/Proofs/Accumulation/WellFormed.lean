import MapStyle.Proofs.Accumulation.Policies
import MapStyle.Proofs.Balance.Sheets

/-!
# Well-formed stylesheets

What holds of the rules and values of every stylesheet that a reader accepts, at every level of
nesting. Values are shaped where a declaration ends and where a key is declared again, selectors where
a comma or a brace ends them; what is attached to a parent or added to the map afterwards keeps its
shape.
-/

namespace MapStyle

open Grammar Properties

variable {P : Type}

/-! ### Values -/

/-- A value of which no list has fewer than two numbers and no composite fewer than two parts, however
deep inside. There are composites only where repeated keys accumulate. -/
inductive Value.IsWellFormed (policy : DuplicateKeys) : Value → Prop
  | literal (l : Literal) : IsWellFormed policy (.literal l)
  | list {items : List Float} (h : 2 ≤ items.length) : IsWellFormed policy (.list items)
  | reference (name : String) : IsWellFormed policy (.reference name)
  | call (c : MapStyle.Call) : IsWellFormed policy (.call c)
  | composite {parts : List Value} (hpolicy : policy = .accumulate) (h : 2 ≤ parts.length)
      (hparts : ∀ v ∈ parts, IsWellFormed policy v) : IsWellFormed policy (.composite parts)

/-- A value is flat if it is no composite of composites. -/
def Value.IsFlat : Value → Prop
  | .composite parts => ∀ v ∈ parts, v.isComposite = false
  | _ => True

namespace Value

variable {policy : DuplicateKeys} {v : Value}

lemma isWellFormed_of_isScalar (h : v.isScalar) : v.IsWellFormed policy := by
  cases v with
  | literal l => exact .literal l
  | reference name => exact .reference name
  | call c => exact .call c
  | list => cases h
  | composite => cases h

lemma isFlat_of_not_isComposite (h : v.isComposite = false) : v.IsFlat := by
  cases v with
  | composite => cases h
  | _ => trivial

lemma IsWellFormed.accumulate (hpolicy : policy = .accumulate) {o : Option Value}
    (ho : ∀ w ∈ o, w.IsWellFormed policy) (hv : v.IsWellFormed policy) :
    (Properties.accumulate v o).IsWellFormed policy := by
  cases o with
  | none => exact hv
  | some w =>
    have hw := ho w rfl
    have hpair : (Value.composite [w, v]).IsWellFormed policy :=
      .composite hpolicy (Nat.le_refl 2) (by simp [hw, hv])
    cases hw with
    | composite _ h hparts =>
      refine .composite hpolicy ?_ (List.forall_mem_append.mpr ⟨hparts, by simpa using hv⟩)
      rw [List.length_append]
      exact Nat.le_add_right_of_le h
    | _ => exact hpair

lemma IsFlat.accumulate {o : Option Value} (ho : ∀ w ∈ o, w.IsFlat) (hv : v.isComposite = false) :
    (Properties.accumulate v o).IsFlat := by
  cases o with
  | none => exact isFlat_of_not_isComposite hv
  | some w =>
    cases w with
    | composite parts =>
      exact List.forall_mem_append.mpr ⟨ho _ rfl, by simpa using hv⟩
    | _ => simpa [Properties.accumulate, IsFlat, isComposite] using hv

end Value

/-! ### Property maps -/

namespace Properties

lemma mem_values_alter {key : String} {f : Option Value → Value} {v : Value}
    {es : List (String × Value)} (h : v ∈ (alter key f es).map (·.2)) :
    v ∈ es.map (·.2) ∨ ∃ o : Option Value, (∀ w ∈ o, w ∈ es.map (·.2)) ∧ v = f o := by
  induction es with
  | nil => exact .inr ⟨none, nofun, List.mem_singleton.mp h⟩
  | cons e es ih =>
    by_cases hkey : e.1 = key
    · rw [alter, if_pos hkey] at h
      obtain rfl | h := List.mem_cons.mp h
      · exact .inr ⟨some e.2, by simp, rfl⟩
      · exact .inl (List.mem_cons_of_mem _ h)
    · rw [alter, if_neg hkey] at h
      obtain rfl | h := List.mem_cons.mp h
      · exact .inl List.mem_cons_self
      · obtain h | ⟨o, ho, rfl⟩ := ih h
        · exact .inl (List.mem_cons_of_mem _ h)
        · exact .inr ⟨o, fun w hw => List.mem_cons_of_mem _ (ho w hw), rfl⟩

variable {policy : DuplicateKeys} {A B : Value → Prop}

/-- What holds of all values of a map, it keeps when keys are declared with values that bring it
along, alone and as further values of their keys. -/
lemma forall_mem_values_declareAll (hnew : ∀ w, B w → A w)
    (hmore : policy = .accumulate → ∀ o w, (∀ v ∈ o, A v) → B w → A (accumulate w o))
    {decls : List (String × Value)} (hdecls : ∀ e ∈ decls, B e.2) {p : Properties}
    (hp : ∀ v ∈ p.values, A v) : ∀ v ∈ (policy.declareAll decls p).values, A v := by
  induction decls generalizing p with
  | nil => exact hp
  | cons e decls ih =>
    obtain ⟨he, hdecls⟩ := List.forall_mem_cons.mp hdecls
    refine ih hdecls fun v hv => ?_
    cases policy with
    | overwrite =>
      obtain hv | ⟨-, -, rfl⟩ := mem_values_alter hv
      · exact hp v hv
      · exact hnew _ he
    | accumulate =>
      obtain hv | ⟨o, ho, rfl⟩ := mem_values_alter hv
      · exact hp v hv
      · exact hmore rfl o _ (fun w hw => hp w (ho w hw)) he

end Properties

/-- The properties that the declarations of one block make up. -/
lemma DuplicateKeys.Gathers.values {policy : DuplicateKeys} {decls : List (String × Value)}
    {p : Properties} (hp : policy.Gathers decls p)
    (h : ∀ e ∈ decls, e.2.IsWellFormed policy ∧ e.2.isComposite = false) :
    ∀ v ∈ p.values, v.IsWellFormed policy ∧ v.IsFlat := by
  obtain rfl := gathers_iff.mp hp
  exact forall_mem_values_declareAll
    (B := fun v => v.IsWellFormed policy ∧ v.isComposite = false)
    (fun _ hw => ⟨hw.1, Value.isFlat_of_not_isComposite hw.2⟩)
    (fun hpolicy _ _ ho hw =>
      ⟨hw.1.accumulate hpolicy fun v hv => (ho v hv).1, .accumulate (fun v hv => (ho v hv).2) hw.2⟩)
    h nofun

/-! ### Rules -/

/-- What a rule is on its own, without the rules in it: it has selectors, none of them empty or with a
class twice; its name and its kind agree with them; its values are well formed and flat. -/
structure Rule.IsProper (policy : DuplicateKeys) (r : Rule P) : Prop where
  selectors_ne_nil : r.selectors ≠ []
  not_isEmpty : ∀ s ∈ r.selectors, ¬ s.isEmpty
  nodup_classes : ∀ s ∈ r.selectors, s.classes.Nodup
  titled : r.IsTitled
  wellFormed : ∀ v ∈ r.properties.values, v.IsWellFormed policy
  flat : ∀ v ∈ r.properties.values, v.IsFlat

/-- What holds of a rule and of all rules nested in it, however deep. -/
inductive Rule.Everywhere (A : Rule P → Prop) : Rule P → Prop
  | intro {r : Rule P} (h : A r) (hnested : ∀ s ∈ r.nested, Everywhere A s) : Everywhere A r

namespace Grammar

variable {d : Dialect P} {ts rest : List Token} {ws : List Warning}

lemma Selectors.shape {engine : PredicateEngine P} {ss : List (Selector P)}
    (h : Selectors engine ts ss rest) : ss ≠ [] ∧ ∀ s ∈ ss, ¬ s.isEmpty ∧ s.classes.Nodup := by
  have hselector {ps : List (SelectorPart P)} (hne : ps ≠ []) :
      ¬ (selector ps).isEmpty ∧ (selector ps).classes.Nodup :=
    ⟨mt isEmpty_selector.mp hne, nodup_eraseDups _⟩
  induction h with
  | last _ hne => exact ⟨List.cons_ne_nil _ _, by simpa using hselector hne⟩
  | more _ hne _ _ _ _ ih =>
    exact ⟨List.cons_ne_nil _ _, List.forall_mem_cons.mpr ⟨hselector hne, ih.2⟩⟩

lemma Declaration.isWellFormed {key : String} {v : Value} (policy : DuplicateKeys)
    (hscalar : d.functions.IsScalar) (h : Declaration d.functions ts key v ws rest) :
    v.IsWellFormed policy := by
  obtain ⟨vs, hv, hvs⟩ := h.exists_combined (Item.isScalar hscalar)
  cases hv with
  | single => exact Value.isWellFormed_of_isScalar (hvs _ List.mem_cons_self)
  | numbers hlength hnumbers => exact .list (hnumbers.length_eq ▸ hlength)
  | words => exact .literal _

/-- A rule is proper with the selectors and the declarations that it is written with. -/
lemma IsRule.isProper {policy : DuplicateKeys} {selectors : List (Selector P)}
    {decls : List (String × Value)} {nested : List (Rule P)} {r : Rule P} {us : List Token}
    (hrule : IsRule policy selectors decls nested r) (hselectors : Selectors d.engine ts selectors us)
    (hdecls : ∀ e ∈ decls, e.2.IsWellFormed policy ∧ e.2.isComposite = false) : r.IsProper policy where
  selectors_ne_nil := hrule.selectors_eq ▸ hselectors.shape.1
  not_isEmpty s hs := (hselectors.shape.2 s (hrule.selectors_eq ▸ hs)).1
  nodup_classes s hs := (hselectors.shape.2 s (hrule.selectors_eq ▸ hs)).2
  titled := hrule.titled
  wellFormed v hv := (hrule.gathers.values hdecls v hv).1
  flat v hv := (hrule.gathers.values hdecls v hv).2

/-- With the rules in it, a rule is proper everywhere if they are. -/
lemma IsRule.everywhere {policy : DuplicateKeys} {selectors : List (Selector P)}
    {decls : List (String × Value)} {nested : List (Rule P)} {r : Rule P} {us : List Token}
    (hrule : IsRule policy selectors decls nested r) (hselectors : Selectors d.engine ts selectors us)
    (hdecls : ∀ e ∈ decls, e.2.IsWellFormed policy ∧ e.2.isComposite = false)
    (hnested : ∀ s ∈ nested, s.Everywhere (Rule.IsProper policy)) :
    r.Everywhere (Rule.IsProper policy) :=
  .intro (hrule.isProper hselectors hdecls) (hrule.nested_eq ▸ hnested)

lemma Body.everywhere {decls : List (String × Value)} {rs : List (Rule P)}
    (hscalar : d.functions.IsScalar) (h : Body d ts decls rs ws rest) :
    (∀ e ∈ decls, e.2.IsWellFormed d.duplicateKeys ∧ e.2.isComposite = false) ∧
      ∀ r ∈ rs, r.Everywhere (Rule.IsProper d.duplicateKeys) := by
  induction h with
  | done => exact ⟨nofun, nofun⟩
  | blank _ _ ih => exact ih
  | declaration h _ ih =>
    have hvalue := h.isWellFormed d.duplicateKeys hscalar
    have hsingle := h.not_isComposite hscalar.isPlain
    exact ⟨List.forall_mem_cons.mpr ⟨⟨hvalue, hsingle⟩, ih.1⟩, ih.2⟩
  | rule _ _ hselectors _ hrule _ ih ih' =>
    exact ⟨ih'.1, List.forall_mem_cons.mpr ⟨hrule.everywhere hselectors ih.1 ih.2, ih'.2⟩⟩

lemma Stylesheet.everywhere {rs : List (Rule P)} {blocks : List Properties}
    (hscalar : d.functions.IsScalar) (h : Stylesheet d ts rs blocks ws) :
    (∀ r ∈ rs, r.Everywhere (Rule.IsProper d.duplicateKeys)) ∧
      ∀ p ∈ blocks, ∀ v ∈ p.values, v.IsWellFormed d.duplicateKeys := by
  induction h with
  | done => exact ⟨nofun, nofun⟩
  | blank _ _ ih => exact ih
  | map _ _ _ h hblock _ ih =>
    have hvalues := hblock.values (h.everywhere hscalar).1
    exact ⟨ih.1, List.forall_mem_cons.mpr ⟨fun v hv => (hvalues v hv).1, ih.2⟩⟩
  | rule _ _ hselectors h hrule _ ih =>
    obtain ⟨hdecls, hnested⟩ := h.everywhere hscalar
    exact ⟨List.forall_mem_cons.mpr ⟨hrule.everywhere hselectors hdecls hnested, ih.1⟩, ih.2⟩

end Grammar

/-- The map keeps well-formed values: what its blocks have for a key is well formed, alone and as parts of
one value. -/
lemma DuplicateKeys.Gathers.isWellFormed {policy : DuplicateKeys} {blocks : List Properties}
    {map : Properties} (hmap : policy.Gathers (blocks.flatMap (·.entries)) map)
    (hblocks : ∀ p ∈ blocks, ∀ v ∈ p.values, v.IsWellFormed policy) :
    ∀ v ∈ map.values, v.IsWellFormed policy := by
  obtain rfl := gathers_iff.mp hmap
  refine forall_mem_values_declareAll (fun _ => id) (fun hpolicy _ _ ho hw => hw.accumulate hpolicy ho)
    (fun e he => ?_) nofun
  obtain ⟨p, hp, he⟩ := List.mem_flatMap.mp he
  exact hblocks p hp _ (List.mem_map_of_mem he)

namespace Dialect

/-- If no function gives a list or a composite, then every stylesheet that is read is well formed:
the rules, at every level of nesting, and the map. No rule is nested deeper than allowed. -/
theorem wellFormed_of_parseTokens (d : Dialect P) (hscalar : d.functions.IsScalar) {ts : List Token}
    {p : Parsed P} (h : d.parseTokens ts = .ok p) :
    (∀ r ∈ p.sheet.rules, r.depth + 1 ≤ d.maxDepth ∧
      r.Everywhere (Rule.IsProper d.duplicateKeys)) ∧
    ∀ v ∈ p.sheet.map.values, v.IsWellFormed d.duplicateKeys := by
  obtain ⟨rs, blocks, map, ws, hsheet, hdepth, hmap, rfl⟩ := (d.parseTokens_eq_ok_iff ts p).mp h
  obtain ⟨hrules, hblocks⟩ := hsheet.everywhere hscalar
  exact ⟨fun r hr => ⟨hdepth r hr, hrules r hr⟩, hmap.isWellFormed hblocks⟩

/-- A stylesheet with a nested rule, lists of numbers and a repeated key. -/
def bridgeText : String :=
  "#way.major.major \x7b dash: 4 2; dash: 1 3; .bridge \x7b\x7d \x7d"

/-- It is accepted, and is well formed at both levels. -/
theorem wellFormed_bridgeText : Registry.builtin.IsScalar ∧ ∃ (ts : List Token) (p : Parsed Cql.Expr),
    Token.ofText 64 bridgeText = .ok ts ∧
    { cql with duplicateKeys := .accumulate }.parseTokens ts = .ok p ∧
    (∀ r ∈ p.sheet.rules, r.depth + 1 ≤ 64 ∧ r.Everywhere (Rule.IsProper .accumulate)) ∧
    ∀ v ∈ p.sheet.map.values, v.IsWellFormed .accumulate := by
  have hok : ((Token.ofText 64 bridgeText).bind fun ts =>
      { cql with duplicateKeys := .accumulate }.parseTokens ts).isOk := by decide +kernel
  obtain ⟨p, hp⟩ := exists_eq_ok_of_isOk hok
  obtain ⟨ts, hts, hp⟩ := exists_of_bind_eq_ok hp
  exact ⟨Registry.builtin_isScalar, ts, p, hts, hp,
    wellFormed_of_parseTokens { cql with duplicateKeys := .accumulate } Registry.builtin_isScalar hp⟩

end Dialect

end MapStyle
