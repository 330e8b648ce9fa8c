import Mathlib.Tactic.Lemma
import MapStyle.Proofs.Reading.Course

/-!
# Stacks that fit together

The three stacks of a reader are aligned at every token: the open blocks have their markers in the
context and their modes on the control stack, and above the innermost marker are just the frames of
the constructs that are being read. So the faults that name stacks out of step never come up.
-/

namespace MapStyle

variable {P : Type}

/-! ### Faults that do not come up -/

/-- Whether a fault says that the stacks of a reader do not fit together. A brace too many is a fault of
the text only where the top level finds it. -/
def Fault.isInternal (mode : Mode) : Fault → Bool
  | inputAfterLastRule | endInsideBlock | missingSelector | missingSelectorBeforeBrace
  | nestedOutsideRule | missingDeclaration | missingKey | declarationOutsideBlock
  | valueOutsideDeclaration | missingFilter | argumentOutsideCall => true
  | unexpected _ place =>
    [.outsideFilter, .outsideCall, .outsideReference, .beforeCall, .beforeReference].contains place
  | unmatchedBrace => mode != .root
  | _ => false

/-- Whether an error says that the stacks of a reader do not fit together. -/
def Error.isInternal (mode : Mode) : Error → Bool
  | malformed fault _ _ => fault.isInternal mode
  | _ => false

/-- An operation of a mode that succeeds with a certain result or finds a fault in the text. -/
def Mode.Explains {α : Type} (mode : Mode) (Q : α → Prop) : Except Error α → Prop
  | .error e => e.isInternal mode = false
  | .ok a => Q a

/-! ### Aligned stacks -/

/-- What tells the block that a frame marks from others: whether it is a rule. -/
def Frame.marksRule? : Frame P → Option Bool
  | .ruleBody => some true
  | .mapBody => some false
  | _ => none

/-- The stacks in the body of a rule within others, or at the top level. -/
inductive Nest : List Mode → List (Frame P) → List (Fragment P) → Prop
  | top : Nest [.root] [] []
  | rule {control : List Mode} {context : List (Frame P)} {fragments : List (Fragment P)}
      (h : Nest control context fragments) (r : Rule P) :
      Nest (.rule :: control) (.ruleBody :: context) (.rule r :: fragments)

/-- The stacks in the body of a block. -/
inductive Block : List Mode → List (Frame P) → List (Fragment P) → Prop
  | rule {control : List Mode} {context : List (Frame P)} {fragments : List (Fragment P)}
      (h : Nest control context fragments) (r : Rule P) :
      Block (.rule :: control) (.ruleBody :: context) (.rule r :: fragments)
  | map (p : Properties) : Block [.map, .root] [.mapBody] [.map p]

/-- At most one marker, which waits for the rest of a part of a selector. -/
inductive PartMarkers : List (Frame P) → Prop
  | none : PartMarkers []
  | classMarker : PartMarkers [.classMarker]
  | colonMarker : PartMarkers [.colonMarker]
  | attachmentMarker : PartMarkers [.attachmentMarker]

/-- The frames of filters behind a selector: a comma behind one, the text of the next. -/
inductive FilterFrames : List (Frame P) → Prop
  | none : FilterFrames []
  | comma : FilterFrames [.commaMarker]
  | text (text : String) (opening : Token) : FilterFrames [.filterText text opening]
  | commaText (text : String) (opening : Token) :
      FilterFrames [.filterText text opening, .commaMarker]

/-- The stacks of a reader fit together, and the tokens that are left start with what the innermost
construct was entered for, as long as it has not been opened. -/
inductive Aligned : List Mode → List (Frame P) → List (Fragment P) → List Token → Prop
  | done : Aligned [] [] [] []
  | nest {control context fragments ts} (h : Nest control context fragments) :
      Aligned control context fragments ts
  | map {p ts} : Aligned [.map, .root] [.mapBody] [.map p] ts
  | mapKeyword {t ts} (h : t.isKeyword "map") : Aligned [.map, .root] [] [] (t :: ts)
  | ruleBrace {r t ts} (h : t.isDelimiter "\x7d") : Aligned [.root] [.ruleBody] [.rule r] (t :: ts)
  | mapBrace {p t ts} (h : t.isDelimiter "\x7d") : Aligned [.root] [.mapBody] [.map p] (t :: ts)
  | selectors {control context fragments markers earlier current ts}
      (h : Nest control context fragments) (hmarkers : PartMarkers markers) :
      Aligned (.rule :: control) (markers ++ .selectors earlier current :: context) fragments ts
  | selectorsComma {control context fragments earlier current}
      (h : Nest control context fragments) :
      Aligned (.rule :: control) (.commaMarker :: .selectors earlier current :: context) fragments []
  | filter {control context fragments frames earlier current ts}
      (h : Nest control context fragments) (hframes : FilterFrames frames) :
      Aligned (.filter :: .rule :: control) (frames ++ .selectors earlier current :: context)
        fragments ts
  | declarationKey {control context fragments decl t ts} (h : Block control context fragments)
      (hkey : t.kind = .identifier) :
      Aligned (.declaration :: control) (.declaration decl :: context) fragments (t :: ts)
  | declaration {control context fragments decl ts} (h : Block control context fragments)
      (hkey : decl.key.isSome) :
      Aligned (.declaration :: control) (.declaration decl :: context) fragments ts
  | callName {control context fragments decl t ts} (h : Block control context fragments)
      (hkey : decl.key.isSome) (hname : t.kind = .functionStart) :
      Aligned (.call :: .declaration :: control) (.declaration decl :: context) fragments (t :: ts)
  | call {control context fragments decl call ts} (h : Block control context fragments)
      (hkey : decl.key.isSome) :
      Aligned (.call :: .declaration :: control) (.call call :: .declaration decl :: context)
        fragments ts
  | referenceBracket {control context fragments decl t ts} (h : Block control context fragments)
      (hkey : decl.key.isSome) (hbracket : t.isDelimiter "[") :
      Aligned (.reference :: .declaration :: control) (.declaration decl :: context) fragments
        (t :: ts)
  | reference {control context fragments decl name opening ts} (h : Block control context fragments)
      (hkey : decl.key.isSome) :
      Aligned (.reference :: .declaration :: control)
        (.reference name opening :: .declaration decl :: context) fragments ts
  | argumentBracket {control context fragments decl call t ts}
      (h : Block control context fragments) (hkey : decl.key.isSome)
      (hbracket : t.isDelimiter "[") :
      Aligned (.reference :: .call :: .declaration :: control)
        (.call call :: .declaration decl :: context) fragments (t :: ts)
  | argument {control context fragments decl call name opening ts}
      (h : Block control context fragments) (hkey : decl.key.isSome) :
      Aligned (.reference :: .call :: .declaration :: control)
        (.reference name opening :: .call call :: .declaration decl :: context) fragments ts

lemma Block.aligned {control : List Mode} {context : List (Frame P)} {fragments : List (Fragment P)}
    {ts : List Token} (h : Block control context fragments) :
    Aligned control context fragments ts := by
  cases h with
  | rule h r => exact .nest (.rule h r)
  | map p => exact .map

lemma Nest.control_ne_nil {control : List Mode} {context : List (Frame P)}
    {fragments : List (Fragment P)} (h : Nest control context fragments) : control ≠ [] := by
  cases h <;> exact List.cons_ne_nil _ _

lemma Block.control_ne_nil {control : List Mode} {context : List (Frame P)}
    {fragments : List (Fragment P)} (h : Block control context fragments) : control ≠ [] := by
  cases h <;> exact List.cons_ne_nil _ _

/-- Only the top level has nothing below it. -/
lemma Aligned.eq_root {mode : Mode} {context : List (Frame P)} {fragments : List (Fragment P)}
    {ts : List Token} (h : Aligned [mode] context fragments ts) : mode = .root := by
  cases h with
  | nest h =>
    cases h with
    | top => rfl
    | rule h => exact absurd rfl h.control_ne_nil
  | ruleBrace => rfl
  | mapBrace => rfl
  | selectors h => exact absurd rfl h.control_ne_nil
  | selectorsComma h => exact absurd rfl h.control_ne_nil
  | declarationKey h => exact absurd rfl h.control_ne_nil
  | declaration h => exact absurd rfl h.control_ne_nil

/-- The stacks still fit together where the reading goes on after a step. -/
def Outcome.IsAligned (mode : Mode) (below : List Mode) (t : Token) (ts : List Token)
    (o : Outcome P) : Prop :=
  Aligned (o.next mode below t ts).1.control (o.next mode below t ts).1.context
    (o.next mode below t ts).1.fragments (o.next mode below t ts).2

namespace Mode.Explains

variable {mode : Mode} {α β : Type} {Q : α → Prop} {R : β → Prop} {x : Except Error α}

lemma map (h : mode.Explains Q x) {f : α → β} (hf : ∀ a, Q a → R (f a)) :
    mode.Explains R (x.map f) := by
  cases x with
  | error e => exact h
  | ok a => exact hf a h

lemma of_ite {c : Prop} [Decidable c] {y : Except Error α} (hx : c → mode.Explains Q x)
    (hy : ¬ c → mode.Explains Q y) : mode.Explains Q (if c then x else y) := by
  split
  · next h => exact hx h
  · next h => exact hy h

end Mode.Explains

namespace Machine

variable {d : Dialect P} {control below : List Mode} {context : List (Frame P)}
  {fragments : List (Fragment P)} {rules : List (Rule P)} {map : Properties}
  {warnings : List Warning} {last : Location} {t : Token} {ts : List Token}

/-! ### One step -/

lemma aligned_stepRoot (h : Aligned (.root :: below) context fragments (t :: ts)) :
    Mode.root.Explains (Outcome.IsAligned .root below t ts)
      (stepRoot d ⟨control, context, fragments, rules, map, warnings, last⟩ t) := by
  unfold stepRoot
  cases h with
  | nest h =>
    cases h
    split
    · exact .nest .top
    refine .of_ite (fun _ => rfl) fun _ => .of_ite (fun hkeyword => ?_) fun _ =>
      .of_ite (fun _ => .selectors .top .none) fun _ => rfl
    exact .mapKeyword (Bool.and_eq_true_iff.mp hkeyword).2
  | ruleBrace hbrace =>
    split
    · next hkind => simp [Token.isDelimiter, hkind] at hbrace
    rw [if_pos hbrace]
    exact .nest .top
  | mapBrace hbrace =>
    split
    · next hkind => simp [Token.isDelimiter, hkind] at hbrace
    rw [if_pos hbrace]
    exact .nest .top

lemma explains_updateSelector {mode : Mode} {Q : Machine P → Prop} {earlier : List (Selector P)}
    {current : Selector P} {f : Selector P → Except Error (Selector P)}
    (hf : mode.Explains (fun s => Q ⟨control, .selectors earlier s :: context, fragments, rules, map,
      warnings, last⟩) (f current)) :
    mode.Explains Q (updateSelector ⟨control, .selectors earlier current :: context, fragments, rules,
      map, warnings, last⟩ t f) := by
  simp only [updateSelector, updateInContext]
  cases hs : f current with
  | error e => rwa [hs] at hf
  | ok s => rwa [hs] at hf

/-- Between its parts a selector is on top of the context, which is all that its steps rely on. -/
lemma aligned_stepSelectorPart (h : Nest below context fragments) (earlier : List (Selector P))
    (current : Selector P) :
    Mode.rule.Explains (Outcome.IsAligned .rule below t ts)
      (stepSelectorPart d
        ⟨control, .selectors earlier current :: context, fragments, rules, map, warnings, last⟩ t) := by
  unfold stepSelectorPart
  split
  · exact .selectors h .none
  · refine .map (explains_updateSelector (Q := fun m => Outcome.IsAligned .rule below t ts (.stay m))
      (.of_ite (fun _ => by rfl) fun _ => ?_)) fun _ hm => hm
    exact .selectors h .none
  · refine .map (explains_updateSelector (Q := fun m => Outcome.IsAligned .rule below t ts (.stay m))
      (.of_ite (fun _ => by rfl) fun _ => ?_)) fun _ hm => hm
    exact .selectors h .none
  · refine .of_ite (fun _ => .selectors h .classMarker) fun _ => .of_ite (fun _ => ?_) fun _ => by rfl
    exact .selectors h .none
  · refine .of_ite (fun _ => .selectors h .colonMarker) fun _ => .of_ite (fun _ => ?_) fun _ =>
      .of_ite (fun _ => .filter h .none) fun _ => .of_ite (fun _ => ?_) fun _ => by rfl
    · refine .map (explains_updateSelector
        (Q := fun m => Outcome.IsAligned .rule below t ts (.stay m.nextSelector))
        (.of_ite (fun _ => by rfl) fun _ => ?_)) fun _ hm => hm
      exact .selectors h .none
    · refine .map (Q := fun m => Outcome.IsAligned .rule below t ts (.stay m))
        (.of_ite (fun _ => by rfl) fun _ => .of_ite (fun _ => by rfl) fun _ => ?_) fun _ hm => hm
      exact .nest (.rule h _)
  · rfl

lemma aligned_stepSelector (h : Nest below context fragments) {markers : List (Frame P)}
    (hmarkers : PartMarkers markers) (earlier : List (Selector P)) (current : Selector P) :
    Mode.rule.Explains (Outcome.IsAligned .rule below t ts)
      (stepSelector d ⟨control, markers ++ .selectors earlier current :: context, fragments, rules,
        map, warnings, last⟩ t) := by
  cases hmarkers with
  | none => exact aligned_stepSelectorPart h earlier current
  | classMarker =>
    refine .of_ite (fun _ => ?_) fun _ => by rfl
    exact .selectors h .none
  | colonMarker =>
    refine .of_ite (fun _ => ?_) fun _ => by rfl
    exact .selectors h .attachmentMarker
  | attachmentMarker =>
    refine .of_ite (fun _ => ?_) fun _ => by rfl
    refine .map (explains_updateSelector (Q := fun m => Outcome.IsAligned .rule below t ts (.stay m))
      (.of_ite (fun _ => by rfl) fun _ => ?_)) fun _ hm => hm
    exact .selectors h .none

lemma aligned_stepBody (h : Nest below context fragments) (r : Rule P) :
    Mode.rule.Explains (Outcome.IsAligned .rule below t ts)
      (stepBody ⟨control, .ruleBody :: context, .rule r :: fragments, rules, map, warnings, last⟩ t) := by
  unfold stepBody
  split
  · exact .nest (.rule h r)
  refine .of_ite (fun _ => .nest (.rule h r)) fun _ => .of_ite (fun hbrace => ?_) fun _ =>
    .of_ite (fun hkind => ?_) fun _ => .of_ite (fun _ => .selectors (.rule h r) .none) fun _ => rfl
  · -- a rule at the top level is the only open block; around another one there is a rule
    cases h with
    | top => exact .ruleBrace hbrace
    | rule h q => exact .nest (.rule h _)
  · refine .declarationKey (.rule h r) ?_
    simpa using hkind

lemma aligned_stepRule (h : Aligned (.rule :: below) context fragments (t :: ts)) :
    Mode.rule.Explains (Outcome.IsAligned .rule below t ts)
      (stepRule d ⟨control, context, fragments, rules, map, warnings, last⟩ t) := by
  unfold stepRule
  cases h with
  | nest h =>
    cases h with
    | rule h r => exact aligned_stepBody h r
  | selectors h hmarkers =>
    cases hmarkers with
    | none => exact aligned_stepSelector (d := d) h .none _ _
    | classMarker => exact aligned_stepSelector (d := d) h .classMarker _ _
    | colonMarker => exact aligned_stepSelector (d := d) h .colonMarker _ _
    | attachmentMarker => exact aligned_stepSelector (d := d) h .attachmentMarker _ _

lemma explains_updateDeclaration {mode : Mode} {Q : Machine P → Prop} {decl : Declaration}
    {f : Declaration → Except Error Declaration}
    (hf : mode.Explains (fun e => Q ⟨control, .declaration e :: context, fragments, rules, map,
      warnings, last⟩) (f decl)) :
    mode.Explains Q (updateDeclaration ⟨control, .declaration decl :: context, fragments, rules, map,
      warnings, last⟩ t f) := by
  simp only [updateDeclaration]
  cases he : f decl with
  | error e => rwa [he] at hf
  | ok e => rwa [he] at hf

lemma explains_requireColon {mode : Mode} {Q : Declaration → Prop} {decl : Declaration}
    (h : Q decl) : mode.Explains Q (requireColon t decl) :=
  .of_ite (fun _ => h) fun _ => by rfl

lemma explains_pushValue {mode : Mode} {Q : Machine P → Prop} {decl : Declaration} {v : Value}
    (h : Q ⟨control, .declaration { decl with values := decl.values ++ [v] } :: context, fragments,
      rules, map, warnings, last⟩) :
    mode.Explains Q (pushValue ⟨control, .declaration decl :: context, fragments, rules, map, warnings,
      last⟩ t v) :=
  explains_updateDeclaration (.map (explains_requireColon (Q := (· = decl)) rfl) fun _ he => he ▸ h)

lemma isInternal_of_combine {mode : Mode} {key : String} {vs : List Value} {fault : Fault}
    (h : combine key vs = .error fault) : fault.isInternal mode = false := by
  unfold combine at h
  split at h
  · cases h; rfl
  · cases h
  · split at h
    · cases h
    · split at h <;> cases h
      rfl

/-- A declaration that ends goes into the block around it. -/
lemma explains_commit {mode : Mode} {policy : DuplicateKeys} {decl : Declaration}
    {Q : Machine P → Prop} (h : Block below context fragments) (hkey : decl.key.isSome)
    (hQ : ∀ fragments', Block below context fragments' →
      Q ⟨control, context, fragments', rules, map, warnings, last⟩) :
    mode.Explains Q (commit policy ⟨control, .declaration decl :: context, fragments, rules, map,
      warnings, last⟩ t) := by
  obtain ⟨key, hkey⟩ := Option.isSome_iff_exists.mp hkey
  simp only [commit, hkey]
  refine .of_ite (fun _ => by rfl) fun _ => ?_
  cases hvalue : combine key decl.values with
  | error fault => exact isInternal_of_combine hvalue
  | ok value =>
    cases h with
    | rule h r => exact hQ _ (.rule h _)
    | map p => exact hQ _ (.map _)

lemma aligned_stepDeclaration (h : Aligned (.declaration :: below) context fragments (t :: ts)) :
    Mode.declaration.Explains (Outcome.IsAligned .declaration below t ts)
      (stepDeclaration d ⟨control, context, fragments, rules, map, warnings, last⟩ t) := by
  let Q : Machine P → Prop := fun m => Outcome.IsAligned .declaration below t ts (.stay m)
  unfold stepDeclaration
  -- of the frames in this mode, only those of a declaration with or without its key are left
  cases h with
  | nest h => cases h
  | declarationKey h hkind =>
    simp only [hkind]
    refine .map (Q := Q) (explains_updateDeclaration (.of_ite (fun _ => ?_) fun hkey => ?_))
      fun _ hm => hm
    · exact .declaration h rfl
    · refine .map (explains_requireColon (Q := (· = _)) rfl) fun _ he => he ▸ .declaration h ?_
      simpa [Option.isSome_iff_ne_none] using hkey
  | declaration h hkey =>
    -- by the kind of the token: white space, word, number, color, string, function, delimiter
    split
    · exact .declaration h hkey
    · refine .map (Q := Q) (explains_updateDeclaration (.of_ite (fun hnone => ?_) fun _ => ?_))
        fun _ hm => hm
      · exact .declaration h rfl
      · exact .map (explains_requireColon (Q := (· = _)) rfl) fun _ he => he ▸ .declaration h hkey
    · rw [readNumber_eq]
      exact .map (Q := Q) (explains_pushValue (.declaration h hkey)) fun _ hm => hm
    · exact .map (Q := Q) (explains_pushValue (.declaration h hkey)) fun _ hm => hm
    · exact .map (Q := Q) (explains_pushValue (.declaration h hkey)) fun _ hm => hm
    · next hkind =>
      exact .map (Q := fun m => Outcome.IsAligned .declaration below t ts (.enter .call m))
        (explains_updateDeclaration (explains_requireColon (.callName h hkey hkind))) fun _ hm => hm
    · next hkind =>
      -- the delimiters `:`, `,`, `[`, `;` and the closing brace, in the order in which they are tried
      refine .of_ite (fun _ => ?_) fun _ => .of_ite (fun _ => ?_) fun _ => .of_ite (fun hbracket => ?_)
        fun _ => .of_ite (fun _ => ?_) fun _ => .of_ite (fun _ => ?_) fun _ => by rfl
      · refine .map (Q := Q) (explains_updateDeclaration (.of_ite (fun _ => by rfl) fun _ => ?_))
          fun _ hm => hm
        exact .declaration h hkey
      · refine .map (Q := Q) (explains_updateDeclaration (.of_ite (fun _ => by rfl) fun _ => ?_))
          fun _ hm => hm
        exact .declaration h hkey
      · refine .map
          (Q := fun m => Outcome.IsAligned .declaration below t ts (.enter .reference m))
          (explains_updateDeclaration (explains_requireColon (.referenceBracket h hkey ?_)))
          fun _ hm => hm
        simp [Token.isDelimiter, hkind, hbracket]
      · exact .map (Q := fun m => Outcome.IsAligned .declaration below t ts (.close m))
          (explains_commit h hkey fun _ h => h.aligned) fun _ hm => hm
      · exact .map (Q := fun m => Outcome.IsAligned .declaration below t ts (.leave m))
          (explains_commit h hkey fun _ h => h.aligned) fun _ hm => hm
    · rfl

/-- A filter that has been closed has gone into the selector below its frames. -/
lemma aligned_stepFilter (h : Aligned (.filter :: below) context fragments (t :: ts)) :
    Mode.filter.Explains (Outcome.IsAligned .filter below t ts)
      (stepFilter d ⟨control, context, fragments, rules, map, warnings, last⟩ t) := by
  let Q : Machine P → Prop := fun m => Outcome.IsAligned .filter below t ts (.stay m)
  cases h with
  | nest h => cases h
  | filter h hframes =>  -- the markers above the selectors tell whether a comma or a text has been read
    cases hframes with
    | none =>
      exact .of_ite (fun _ => .filter h .none) fun _ =>
        .of_ite (fun _ => .filter h (.text "" t)) fun _ =>
        .of_ite (fun _ => .of_ite (fun _ => by rfl) fun _ => .filter h .comma) fun _ =>
        .of_ite (fun hcomma => by cases hcomma) fun _ => .selectors h .none
    | comma =>
      exact .of_ite (fun _ => .filter h .comma) fun _ =>
        .of_ite (fun _ => .filter h (.commaText "" t)) fun _ =>
        .of_ite (fun _ => .of_ite (fun _ => by rfl) fun hcomma => absurd rfl hcomma) fun _ =>
        .of_ite (fun _ => .selectors h .none) fun hcomma => absurd rfl hcomma
    | text text opening =>
      refine .of_ite (fun _ => ?_) fun _ => .of_ite (fun _ => by rfl) fun _ => .filter h (.text _ _)
      refine .map (Q := Q) ?_ fun _ hm => hm
      refine .of_ite (fun _ => by rfl) fun _ => ?_
      split
      · rfl
      · exact explains_updateSelector (.filter h .none)
    | commaText text opening =>
      refine .of_ite (fun _ => ?_) fun _ => .of_ite (fun _ => by rfl) fun _ =>
        .filter h (.commaText _ _)
      refine .map (Q := Q) ?_ fun _ hm => hm
      refine .of_ite (fun _ => by rfl) fun _ => ?_
      split
      · rfl
      · exact explains_updateSelector (.filter h .none)

lemma explains_updateCall {mode : Mode} {Q : Machine P → Prop} {call : OpenCall}
    {f : OpenCall → Except Error OpenCall}
    (hf : mode.Explains (fun c => Q ⟨control, .call c :: context, fragments, rules, map, warnings,
      last⟩) (f call)) :
    mode.Explains Q (updateCall ⟨control, .call call :: context, fragments, rules, map, warnings,
      last⟩ t f) := by
  simp only [updateCall]
  cases hc : f call with
  | error e => rwa [hc] at hf
  | ok c => rwa [hc] at hf

lemma explains_requireArgument {mode : Mode} {Q : OpenCall → Prop} {call : OpenCall}
    (h : Q call) : mode.Explains Q (requireArgument t call) :=
  .of_ite (fun _ => h) fun _ => by rfl

lemma explains_pushArgument {mode : Mode} {Q : Machine P → Prop} {call : OpenCall} {a : Argument}
    (h : ∀ c, Q ⟨control, .call c :: context, fragments, rules, map, warnings, last⟩) :
    mode.Explains Q (pushArgument ⟨control, .call call :: context, fragments, rules, map, warnings,
      last⟩ t a) :=
  explains_updateCall (.map (explains_requireArgument (Q := fun _ => True) trivial) fun _ _ => h _)

lemma aligned_stepArguments (h : Block control context fragments) {decl : Declaration}
    (hkey : decl.key.isSome) (call : OpenCall) {below' : List Mode} :
    Mode.call.Explains (Outcome.IsAligned .call (.declaration :: control) t ts)
      (stepArguments d ⟨below', .call call :: .declaration decl :: context, fragments, rules, map,
        warnings, last⟩ t) := by
  let Q : Machine P → Prop := fun m => Outcome.IsAligned .call (.declaration :: control) t ts (.stay m)
  have hcall : ∀ (c : OpenCall) (w : List Warning), Q ⟨below', .call c :: .declaration decl :: context,
      fragments, rules, map, w, last⟩ := fun c w => .call h hkey
  unfold stepArguments
  split
  · rfl
  · exact hcall _ _
  · exact .map (Q := Q) (explains_pushArgument fun _ => hcall _ _) fun _ hm => hm
  · exact .map (Q := Q) (explains_pushArgument fun _ => hcall _ _) fun _ hm => hm
  · exact .map (Q := Q) (explains_pushArgument fun _ => hcall _ _) fun _ hm => hm
  · rw [readNumber_eq]
    exact .map (Q := Q) (explains_pushArgument fun _ => hcall _ _) fun _ hm => hm
  · next hkind =>
    -- the delimiters `,`, `[` and `)`
    refine .of_ite (fun _ => ?_) fun _ => .of_ite (fun hbracket => ?_) fun _ =>
      .of_ite (fun _ => ?_) fun _ => by rfl
    · refine .map (Q := Q) (explains_updateCall (.of_ite (fun _ => by rfl) fun _ => ?_))
        fun _ hm => hm
      exact hcall _ _
    · refine .map
        (Q := fun m => Outcome.IsAligned .call (.declaration :: control) t ts (.enter .reference m))
        (explains_updateCall (explains_requireArgument (.argumentBracket h hkey ?_))) fun _ hm => hm
      simp [Token.isDelimiter, hkind, hbracket]
    · refine .map
        (Q := fun m => Outcome.IsAligned .call (.declaration :: control) t ts (.close m))
        (.of_ite (fun _ => by rfl) fun _ => ?_) fun _ hm => hm
      split
      · rfl
      · exact explains_pushValue (.declaration h hkey)
  · rfl

lemma aligned_stepCall (h : Aligned (.call :: below) context fragments (t :: ts)) :
    Mode.call.Explains (Outcome.IsAligned .call below t ts)
      (stepCall d ⟨control, context, fragments, rules, map, warnings, last⟩ t) := by
  cases h with
  | nest h => cases h
  | callName h hkey hname =>
    simp only [stepCall, hname, if_true]
    exact .call h hkey
  | call h hkey => exact aligned_stepArguments h hkey _

lemma aligned_stepReference (h : Aligned (.reference :: below) context fragments (t :: ts)) :
    Mode.reference.Explains (Outcome.IsAligned .reference below t ts)
      (stepReference ⟨control, context, fragments, rules, map, warnings, last⟩ t) := by
  let Q : Machine P → Prop := fun m => Outcome.IsAligned .reference below t ts (.close m)
  -- at its bracket the reference is opened, behind it the frame is its own and what it goes to is below
  cases h with
  | nest h => cases h
  | referenceBracket h hkey hbracket =>
    simp only [stepReference, hbracket, if_true]
    exact .reference h hkey
  | argumentBracket h hkey hbracket =>
    simp only [stepReference, hbracket, if_true]
    exact .argument h hkey
  | reference h hkey =>
    refine .of_ite (fun _ => .reference h hkey) fun _ => .of_ite (fun _ =>
      .of_ite (fun _ => by rfl) fun _ => .reference h hkey) fun _ => .of_ite (fun _ => ?_)
      fun _ => by rfl
    refine .map (Q := Q) ?_ fun _ hm => hm
    unfold closeReference
    dsimp only
    split
    · rfl
    · next hframe => cases hframe
    · exact explains_pushValue (.declaration h hkey)
  | argument h hkey =>
    refine .of_ite (fun _ => .argument h hkey) fun _ => .of_ite (fun _ =>
      .of_ite (fun _ => by rfl) fun _ => .argument h hkey) fun _ => .of_ite (fun _ => ?_)
      fun _ => by rfl
    refine .map (Q := Q) ?_ fun _ hm => hm
    unfold closeReference
    dsimp only
    split
    · rfl
    · exact explains_pushArgument fun _ => .call h hkey
    · next hne => exact absurd rfl (hne _ _)

/-- A `Map` block that is open reads declarations; before that it reads no tokens. -/
lemma aligned_stepMap (h : Aligned (.map :: below) context fragments (t :: ts))
    (hbody : inMapBody ⟨control, context, fragments, rules, map, warnings, last⟩) :
    Mode.map.Explains (Outcome.IsAligned .map below t ts)
      (stepMap ⟨control, context, fragments, rules, map, warnings, last⟩ t) := by
  cases h with
  | nest h => cases h
  | mapKeyword _ => cases hbody
  | map =>
    unfold stepMap
    exact .of_ite (fun _ => Aligned.map) fun _ => .of_ite (fun hbrace => .mapBrace hbrace) fun _ =>
      .of_ite (fun hkind => .declarationKey (.map _) hkind) fun _ => by rfl

/-- A step that the stacks are aligned for leaves them so, and finds no fault in them. -/
theorem aligned_step {mode : Mode} {m : Machine P}
    (h : Aligned (mode :: below) m.context m.fragments (t :: ts))
    (hopened : mode = .map → m.inMapBody) :
    mode.Explains (Outcome.IsAligned mode below t ts) (step d mode m t) := by
  cases mode with
  | root => exact aligned_stepRoot h
  | rule => exact aligned_stepRule h
  | declaration => exact aligned_stepDeclaration h
  | filter => exact aligned_stepFilter h
  | call => exact aligned_stepCall h
  | reference => exact aligned_stepReference h
  | map => exact aligned_stepMap h (hopened rfl)

/-! ### Whole readings -/

lemma aligned_stepEnd {mode : Mode} {m : Machine P}
    (h : Aligned (mode :: below) m.context m.fragments []) :
    mode.Explains (fun _ => Aligned below m.context m.fragments []) (m.stepEnd mode) := by
  obtain ⟨control, context, fragments, rules, map, warnings, last⟩ := m
  cases mode with
  | root =>
    cases h with
    | nest h => cases h; exact .done
  | rule =>
    change Mode.rule.Explains _ (.error (.atEnd (if _ then _ else _) _))
    split <;> rfl
  | filter =>
    cases h with
    | nest h => cases h
    | filter h hframes =>
      cases hframes with
      | none => exact .selectors h .none
      | comma => exact .selectorsComma h
      | text text opening => rfl
      | commaText text opening => rfl
  | declaration => rfl
  | call => rfl
  | reference => rfl
  | map => rfl

lemma aligned_readTokens {mode : Mode} {m : Machine P}
    (h : Aligned (mode :: below) m.context m.fragments ts) (hopened : mode = .map → m.inMapBody) :
    mode.Explains (fun (n, rest) => Aligned n.control n.context n.fragments rest)
      (readTokens d mode below m ts) := by
  induction ts generalizing m with
  | nil => exact .map (aligned_stepEnd h) fun _ h => h
  | cons t ts ih =>
    have hstep := aligned_step (d := d) (m := { m with last := t.location }) h hopened
    rw [readTokens]
    split
    · next e heq => rwa [heq] at hstep
    · next n heq =>
      rw [heq] at hstep
      refine ih hstep ?_
      rintro rfl
      exact inMapBody_of_stepMap_stay (m := { m with last := t.location }) (hopened rfl) heq
    · next child n heq => rwa [heq] at hstep
    · next n heq => rwa [heq] at hstep
    · next n heq => rwa [heq] at hstep

/-- Only the keyword of a `Map` block makes a reader open one. -/
lemma aligned_openMap {m : Machine P} (h : Aligned m.control m.context m.fragments ts)
    (hcontrol : m.control = .map :: below) (hunopened : ¬ m.inMapBody) :
    Mode.map.Explains (fun (n, rest) => Aligned (.map :: below) n.context n.fragments rest)
      (m.openMap ts) := by
  obtain ⟨control, context, fragments, rules, map, warnings, last⟩ := m
  subst hcontrol
  cases h with
  | nest h => cases h
  | map => exact absurd rfl hunopened
  | mapKeyword hkeyword =>
    -- the keyword itself is not looked at again: a block is opened behind whatever comes first
    unfold openMap
    split
    · rfl
    · exact .of_ite (fun _ => Aligned.map) fun _ => by rfl

lemma aligned_activate {mode : Mode} {m : Machine P}
    (h : Aligned m.control m.context m.fragments ts) (hcontrol : m.control = mode :: below) :
    mode.Explains (fun (n, rest) => Aligned n.control n.context n.fragments rest)
      (m.activate d ts) := by
  by_cases hopened : mode = .map → m.inMapBody
  · rw [activate_of_opened hcontrol hopened]
    exact aligned_readTokens (hcontrol ▸ h) hopened
  · obtain ⟨rfl, hunopened⟩ := Classical.not_imp.mp hopened
    rw [activate_of_unopened hcontrol hunopened]
    have hopen := aligned_openMap h hcontrol hunopened
    cases hmap : m.openMap ts with
    | error e => rwa [hmap] at hopen
    | ok p =>
      rw [hmap] at hopen
      exact aligned_readTokens hopen fun _ => (openMap_eq_ok hmap below).1

/-- The stacks fit together after any number of activations. -/
theorem aligned_run {k : Nat} {m n : Machine P} {rest : List Token}
    (h : Aligned m.control m.context m.fragments ts) (hrun : run d k m ts = .ok (n, rest)) :
    Aligned n.control n.context n.fragments rest := by
  induction k generalizing m ts with
  | zero => cases hrun; exact h
  | succ k ih =>
    by_cases hcontrol : m.control = []
    · rw [run_of_control_nil hcontrol] at hrun
      cases hrun
      exact h
    obtain ⟨mode, below, hmode⟩ := List.exists_cons_of_ne_nil hcontrol
    rw [run_succ hcontrol] at hrun
    have hnext := aligned_activate (d := d) h hmode
    cases hact : m.activate d ts with
    | error e => rw [hact] at hrun; cases hrun
    | ok p =>
      rw [hact] at hrun hnext
      exact ih hnext hrun

lemma isInternal_root_le {mode : Mode} {e : Error} (h : e.isInternal mode = false) :
    e.isInternal .root = false := by
  cases e with
  | malformed fault near l =>
    cases fault
    case unmatchedBrace => rfl
    all_goals exact h
  | badFilter text l cause => rfl
  | unreadable path => rfl

/-- An activation that fails does so for a fault of the text. -/
lemma isInternal_of_run {k : Nat} {m : Machine P} {e : Error}
    (h : Aligned m.control m.context m.fragments ts) (hrun : run d k m ts = .error e) :
    e.isInternal .root = false := by
  induction k generalizing m ts with
  | zero => cases hrun
  | succ k ih =>
    by_cases hcontrol : m.control = []
    · rw [run_of_control_nil hcontrol] at hrun
      cases hrun
    obtain ⟨mode, below, hmode⟩ := List.exists_cons_of_ne_nil hcontrol
    rw [run_succ hcontrol] at hrun
    have hnext := aligned_activate (d := d) h hmode
    cases hact : m.activate d ts with
    | error e' =>  -- the mode may find a brace too many, which is no internal fault at the top level
      rw [hact] at hrun hnext
      cases hrun
      exact isInternal_root_le hnext
    | ok p =>
      rw [hact] at hrun hnext
      exact ih hnext hrun

/-- Nothing is left and no block is open once the control stack is empty. -/
lemma finish_of_aligned {m : Machine P} (h : Aligned m.control m.context m.fragments ts)
    (hcontrol : m.control = []) :
    m.finish ts = .ok ⟨{ rules := m.rules, map := m.map }, m.warnings⟩ := by
  obtain ⟨control, context, fragments, rules, map, warnings, last⟩ := m
  subst hcontrol
  cases h with
  | done => rfl
  | nest h => cases h

end Machine

/-! ### Blocks and their markers -/

/-- There is one open block for each marker in a context, in the same order and of the same kind, and a
`Map` block is alone. -/
def Marked (context : List (Frame P)) (fragments : List (Fragment P)) : Prop :=
  fragments.map Fragment.isRule = context.filterMap Frame.marksRule? ∧
    ((∀ f ∈ fragments, f.isRule) ∨ ∃ p, fragments = [.map p])

section

variable {control : List Mode} {context : List (Frame P)} {fragments : List (Fragment P)}

lemma Nest.marks (h : Nest control context fragments) :
    fragments.map Fragment.isRule = context.filterMap Frame.marksRule? ∧
      ∀ f ∈ fragments, f.isRule := by
  induction h with
  | top => exact ⟨rfl, nofun⟩
  | rule h r ih =>
    refine ⟨congrArg (true :: ·) ih.1, fun f hf => ?_⟩
    cases hf with
    | head => rfl
    | tail _ hf => exact ih.2 f hf

lemma Nest.marked (h : Nest control context fragments) : Marked context fragments :=
  h.marks.imp_right .inl

lemma Block.marked (h : Block control context fragments) : Marked context fragments := by
  cases h with
  | rule h r => exact (Nest.rule h r).marked
  | map p => exact ⟨rfl, .inr ⟨p, rfl⟩⟩

/-- The frames above the innermost marker are no markers of blocks. -/
lemma Marked.above (h : Marked context fragments) (frames : List (Frame P))
    (hframes : frames.filterMap Frame.marksRule? = []) : Marked (frames ++ context) fragments := by
  rwa [Marked, List.filterMap_append, hframes]

lemma Aligned.marked {ts : List Token} (h : Aligned control context fragments ts) :
    Marked context fragments := by
  -- every alignment has its frames above a nest or a block, whose marks they leave as they are
  cases h with
  | done => exact Nest.top.marked
  | nest h => exact h.marked
  | map => exact (Block.map _).marked
  | mapKeyword => exact Nest.top.marked
  | ruleBrace => exact (Nest.rule .top _).marked
  | mapBrace => exact (Block.map _).marked
  | selectors h hmarkers =>
    rw [List.append_cons]
    refine h.marked.above _ ?_
    cases hmarkers <;> rfl
  | @selectorsComma _ _ _ earlier current h =>
    exact h.marked.above [.commaMarker, .selectors earlier current] rfl
  | filter h hframes =>
    rw [List.append_cons]
    refine h.marked.above _ ?_
    cases hframes <;> rfl
  | @declarationKey _ _ _ decl _ _ h => exact h.marked.above [.declaration decl] rfl
  | @declaration _ _ _ decl _ h => exact h.marked.above [.declaration decl] rfl
  | @callName _ _ _ decl _ _ h => exact h.marked.above [.declaration decl] rfl
  | @call _ _ _ decl call _ h => exact h.marked.above [.call call, .declaration decl] rfl
  | @referenceBracket _ _ _ decl _ _ h => exact h.marked.above [.declaration decl] rfl
  | @reference _ _ _ decl name opening _ h =>
    exact h.marked.above [.reference name opening, .declaration decl] rfl
  | @argumentBracket _ _ _ decl call _ _ h =>
    exact h.marked.above [.call call, .declaration decl] rfl
  | @argument _ _ _ decl call name opening _ h =>
    exact h.marked.above [.reference name opening, .call call, .declaration decl] rfl

end

/-- In a reading of any tokens the stacks fit together between activations: there is one open block for
each marker in the context, in the same order and of the same kind, a `Map` block being alone, and the
other frames are those of the constructs that the control stack names. So neither an activation nor the
whole reading ever finds the stacks out of step, and only the top level finds a brace too many. -/
theorem Dialect.aligned_and_not_isInternal (d : Dialect P) (ts : List Token) :
    (∀ k m rest, Machine.run d k {} ts = .ok (m, rest) →
      Marked m.context m.fragments ∧ Aligned m.control m.context m.fragments rest ∧
      ∀ mode below e, m.control = mode :: below → m.activate d rest = .error e →
        e.isInternal mode = false) ∧
    ∀ e, d.parseTokens ts = .error e → e.isInternal .root = false := by
  have hstart : Aligned ({} : Machine P).control ({} : Machine P).context
      ({} : Machine P).fragments ts := .nest .top
  constructor
  · intro k m rest hrun
    have h := Machine.aligned_run hstart hrun
    refine ⟨h.marked, h, fun mode below e hcontrol hact => ?_⟩
    have hnext := Machine.aligned_activate (d := d) h hcontrol
    rwa [hact] at hnext
  · intro e he
    rw [Dialect.parseTokens] at he
    split at he
    · next e' hrun =>
      cases he
      exact Machine.isInternal_of_run hstart hrun
    · next m rest hrun =>
      have hcontrol := Machine.control_of_run (Nat.le_of_eq (Machine.pending_start ts)) hrun
      rw [Machine.finish_of_aligned (Machine.aligned_run hstart hrun) hcontrol] at he
      cases he

end MapStyle
