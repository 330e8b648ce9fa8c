import Mathlib.Tactic.Lemma
import MapStyle.Sheet.Parse

/-!
# What a step does not look at

A step of a reader looks at the constructs that are open and at the token at hand. What has been
finished, what is below on the control stack and where the last token was can be changed before a
step or behind it, with the same effect.
-/

namespace MapStyle

variable {P : Type}

/-- The part of a reader's state that its steps do not look at, seen from outside: what is on the
control stack, what was finished before, and the place of the last token. -/
structure Surroundings (P : Type) where
  control : List Mode → List Mode := id
  rules : List (Rule P) := []
  map : Properties → Properties := id
  warnings : List Warning := []
  last : Location → Location := id

/-- Adding a block to the properties of the map does not depend on what comes from outside. -/
def Surroundings.Joins (s : Surroundings P) (policy : DuplicateKeys) : Prop :=
  ∀ map block, s.map (policy.join map block) = policy.join (s.map map) block

/-- What a step has done, with every machine changed. -/
def Outcome.map (f : Machine P → Machine P) : Outcome P → Outcome P
  | .stay m => .stay (f m)
  | .enter mode m => .enter mode (f m)
  | .leave m => .leave (f m)
  | .close m => .close (f m)

/-- The state in which a step leaves the reader. -/
def Outcome.machine : Outcome P → Machine P
  | .stay m | .enter _ m | .leave m | .close m => m

/-- The literal that a numeric token stands for. -/
def Token.numberLiteral (t : Token) : Literal :=
  (Literal.parseNumber? (Text.dropEnding "px" t.text)).getD (.string t.text)

/-- The warnings that a numeric token gives rise to. -/
def Token.numberWarnings (t : Token) : List Warning :=
  if (Literal.parseNumber? (Text.dropEnding "px" t.text)).isSome then [] else [⟨t.text, t.location⟩]

namespace Machine

/-- A state put into surroundings. -/
def within (s : Surroundings P) (m : Machine P) : Machine P :=
  { m with
    control := s.control m.control
    rules := s.rules ++ m.rules
    map := s.map m.map
    warnings := s.warnings ++ m.warnings
    last := s.last m.last }

variable (s : Surroundings P) (m : Machine P) (t : Token)

@[simp] lemma within_context : (m.within s).context = m.context := rfl

@[simp] lemma within_fragments : (m.within s).fragments = m.fragments := rfl

@[simp] lemma within_rules : (m.within s).rules = s.rules ++ m.rules := rfl

@[simp] lemma within_map : (m.within s).map = s.map m.map := rfl

@[simp] lemma within_warnings : (m.within s).warnings = s.warnings ++ m.warnings := rfl

@[simp] lemma inRuleBody_within : (m.within s).inRuleBody = m.inRuleBody := rfl

@[simp] lemma inMapBody_within : (m.within s).inMapBody = m.inMapBody := rfl

@[simp] lemma atComma_within : (m.within s).atComma = m.atComma := rfl

@[simp] lemma pushFrame_within (f : Frame P) :
    (m.within s).pushFrame f = (m.pushFrame f).within s := rfl

@[simp] lemma dropFrame_within : (m.within s).dropFrame = m.dropFrame.within s := rfl

lemma within_setContext (context : List (Frame P)) :
    { m.within s with context } = { m with context }.within s := rfl

/-! ### Operations -/

@[simp] lemma updateSelector_within (f : Selector P → Except Error (Selector P)) :
    (m.within s).updateSelector t f = (m.updateSelector t f).map (within s) := by
  simp only [updateSelector, within_context]
  cases updateInContext t f m.context <;> rfl

@[simp] lemma nextSelector_within : (m.within s).nextSelector = m.nextSelector.within s := by
  simp only [nextSelector, within_context]
  split <;> rfl

@[simp] lemma openRule_within (limit : Nat) :
    (m.within s).openRule limit t = (m.openRule limit t).map (within s) := by
  simp only [openRule, within_context, within_fragments]
  split
  · simp only [apply_ite (Except.map (within s))]
    rfl
  · rfl

@[simp] lemma updateDeclaration_within (f : Declaration → Except Error Declaration) :
    (m.within s).updateDeclaration t f = (m.updateDeclaration t f).map (within s) := by
  simp only [updateDeclaration, within_context]
  split
  · next d below _ => cases f d <;> rfl
  · rfl

@[simp] lemma pushValue_within (v : Value) :
    (m.within s).pushValue t v = (m.pushValue t v).map (within s) := by
  simp only [pushValue, updateDeclaration_within]

/-- A numeric token does nothing to the state but add warnings. -/
lemma readNumber_eq : m.readNumber t =
    ({ m with warnings := m.warnings ++ t.numberWarnings }, t.numberLiteral) := by
  unfold readNumber Token.numberWarnings Token.numberLiteral
  cases Literal.parseNumber? (Text.dropEnding "px" t.text) <;> simp

@[simp] lemma readNumber_within :
    (m.within s).readNumber t = ((m.readNumber t).1.within s, (m.readNumber t).2) := by
  simp [readNumber_eq, within]

@[simp] lemma commit_within (policy : DuplicateKeys) :
    (m.within s).commit policy t = (m.commit policy t).map (within s) := by
  simp only [commit, within_context, within_fragments]
  split
  · next d below _ =>
    cases d.key with
    | none => rfl
    | some key =>
      simp only
      split
      · rfl
      · split <;> rfl
  · rfl

@[simp] lemma updateCall_within (f : OpenCall → Except Error OpenCall) :
    (m.within s).updateCall t f = (m.updateCall t f).map (within s) := by
  simp only [updateCall, within_context]
  split
  · next c below _ => cases f c <;> rfl
  · rfl

@[simp] lemma pushArgument_within (a : Argument) :
    (m.within s).pushArgument t a = (m.pushArgument t a).map (within s) := by
  simp only [pushArgument, updateCall_within]

@[simp] lemma closeCall_within (functions : Registry) :
    (m.within s).closeCall functions t = (m.closeCall functions t).map (within s) := by
  simp only [closeCall, within_context]
  split
  · split
    · rfl
    · split
      · rfl
      · rw [within_setContext, pushValue_within]
  · rfl

@[simp] lemma closeReference_within :
    (m.within s).closeReference t = (m.closeReference t).map (within s) := by
  simp only [closeReference, within_context, within_setContext]
  split
  · split
    · rfl
    · rw [pushArgument_within]
    · rw [pushValue_within]
  · rfl

/-- A filter that has been opened ends the same way wherever the last token was. -/
lemma closeFilter_within (engine : PredicateEngine P) {text : String} {opening : Token}
    {below : List (Frame P)} (h : m.context = .filterText text opening :: below) :
    (m.within s).closeFilter engine = (m.closeFilter engine).map (within s) := by
  simp only [closeFilter, within_context, within_setContext, h]
  split
  · rfl
  · split
    · rfl
    · split <;> rw [updateSelector_within]

@[simp] lemma extendFilter_within :
    (m.within s).extendFilter t = (m.extendFilter t).map (within s) := by
  simp only [extendFilter, within_context]
  split <;> rfl

@[simp] lemma closeNested_within :
    (m.within s).closeNested t = (m.closeNested t).map (within s) := by
  simp only [closeNested, within_context, within_fragments]
  split
  · split <;> rfl
  · rfl

lemma closeBlock_within {policy : DuplicateKeys} (h : s.Joins policy) :
    (m.within s).closeBlock policy t = (m.closeBlock policy t).map (within s) := by
  simp only [closeBlock, within_context, within_fragments]
  split
  · simp [within, Except.map]
  · simp [within, Except.map, h m.map]
  · rfl

/-! ### Steps -/

/-- An operation that commutes with a change of the state still does so as a step. -/
lemma map_outcome {f : Machine P → Machine P} {g : Machine P → Outcome P}
    (hg : ∀ m, g (f m) = (g m).map f) (x : Except Error (Machine P)) :
    (x.map f).map g = (x.map g).map (Outcome.map f) := by
  cases x with
  | error e => rfl
  | ok m => exact congrArg Except.ok (hg m)

@[simp] lemma map_stay (x : Except Error (Machine P)) :
    (x.map (within s)).map .stay = (x.map .stay).map (Outcome.map (within s)) :=
  map_outcome (fun _ => rfl) x

@[simp] lemma map_enter (mode : Mode) (x : Except Error (Machine P)) :
    (x.map (within s)).map (.enter mode) = (x.map (.enter mode)).map (Outcome.map (within s)) :=
  map_outcome (fun _ => rfl) x

@[simp] lemma map_leave (x : Except Error (Machine P)) :
    (x.map (within s)).map .leave = (x.map .leave).map (Outcome.map (within s)) :=
  map_outcome (fun _ => rfl) x

@[simp] lemma map_close (x : Except Error (Machine P)) :
    (x.map (within s)).map .close = (x.map .close).map (Outcome.map (within s)) :=
  map_outcome (fun _ => rfl) x

@[simp] lemma map_nextSelector (x : Except Error (Machine P)) :
    ((x.map (within s)).map fun m => .stay m.nextSelector) =
      (x.map fun m => .stay m.nextSelector).map (Outcome.map (within s)) :=
  map_outcome (fun m => by rw [nextSelector_within]; rfl) x

lemma stepRoot_within {d : Dialect P} (h : s.Joins d.duplicateKeys) :
    stepRoot d (m.within s) t = (stepRoot d m t).map (Outcome.map (within s)) := by
  simp only [stepRoot, closeBlock_within s m t h, map_stay, pushFrame_within]
  split
  · rfl
  · simp only [apply_ite (Except.map (Outcome.map (within s)))]
    rfl

lemma stepSelectorPart_within (d : Dialect P) :
    stepSelectorPart d (m.within s) t = (stepSelectorPart d m t).map (Outcome.map (within s)) := by
  simp only [stepSelectorPart, updateSelector_within, openRule_within, pushFrame_within, map_stay,
    map_nextSelector]
  cases t.kind with
  | operator | delimiter =>
    simp only [apply_ite (Except.map (Outcome.map (within s)))]
    rfl
  | _ => rfl

lemma stepSelector_within (d : Dialect P) :
    stepSelector d (m.within s) t = (stepSelector d m t).map (Outcome.map (within s)) := by
  simp only [stepSelector, within_context, within_setContext, updateSelector_within,
    stepSelectorPart_within, map_stay]
  split
  -- behind a full stop, behind one colon and behind two of them
  · simp only [apply_ite (Except.map (Outcome.map (within s)))]
    rfl
  · simp only [apply_ite (Except.map (Outcome.map (within s)))]
    rfl
  · simp only [apply_ite (Except.map (Outcome.map (within s)))]
    rfl
  · rfl

lemma stepBody_within :
    stepBody (m.within s) t = (stepBody m t).map (Outcome.map (within s)) := by
  simp only [stepBody, within_fragments, closeNested_within, map_close, pushFrame_within]
  split
  · rfl
  · simp only [apply_ite (Except.map (Outcome.map (within s)))]
    rfl

lemma stepDeclaration_within (d : Dialect P) :
    stepDeclaration d (m.within s) t = (stepDeclaration d m t).map (Outcome.map (within s)) := by
  simp only [stepDeclaration, readWord, readNumber_within, updateDeclaration_within,
    pushValue_within, commit_within, map_stay, map_enter, map_leave, map_close]
  cases t.kind with
  | delimiter =>
    simp only [apply_ite (Except.map (Outcome.map (within s)))]
    rfl
  | _ => rfl

lemma stepFilter_within (d : Dialect P) :
    stepFilter d (m.within s) t = (stepFilter d m t).map (Outcome.map (within s)) := by
  simp only [stepFilter, within_context]
  split
  · next text opening below hcontext =>
    simp only [stepFilterText, closeFilter_within s m d.engine hcontext, extendFilter_within,
      map_stay, apply_ite (Except.map (Outcome.map (within s)))]
    rfl
  · simp only [pushFrame_within, atComma_within, dropFrame_within, nextSelector_within,
      apply_ite (Except.map (Outcome.map (within s)))]
    rfl

lemma stepCall_within (d : Dialect P) :
    stepCall d (m.within s) t = (stepCall d m t).map (Outcome.map (within s)) := by
  simp only [stepCall, within_context]
  split
  · simp only [stepArguments, pushArgument_within, readNumber_within, updateCall_within,
      closeCall_within, map_stay, map_enter, map_close]
    cases t.kind with
    | delimiter =>
      simp only [apply_ite (Except.map (Outcome.map (within s)))]
      rfl
    | _ => rfl
  · simp only [pushFrame_within, apply_ite (Except.map (Outcome.map (within s)))]
    rfl

lemma stepReference_within :
    stepReference (m.within s) t = (stepReference m t).map (Outcome.map (within s)) := by
  simp only [stepReference, within_context, within_setContext, closeReference_within, map_close,
    pushFrame_within]
  split
  · simp only [apply_ite (Except.map (Outcome.map (within s)))]
    rfl
  · simp only [apply_ite (Except.map (Outcome.map (within s)))]
    rfl

lemma stepMap_within :
    stepMap (m.within s) t = (stepMap m t).map (Outcome.map (within s)) := by
  simp only [stepMap, pushFrame_within, apply_ite (Except.map (Outcome.map (within s)))]
  rfl

/-- A step does the same whatever the surroundings are. -/
theorem step_within {d : Dialect P} (h : s.Joins d.duplicateKeys) (mode : Mode) :
    step d mode (m.within s) t = (step d mode m t).map (Outcome.map (within s)) := by
  cases mode with
  | root => exact stepRoot_within s m t h
  | rule =>
    simp only [step, stepRule, inRuleBody_within, stepBody_within, stepSelector_within,
      apply_ite (Except.map (Outcome.map (within s)))]
  | declaration => exact stepDeclaration_within s m t d
  | filter => exact stepFilter_within s m t d
  | call => exact stepCall_within s m t d
  | reference => exact stepReference_within s m t
  | map => exact stepMap_within s m t

end Machine

end MapStyle
