import Mathlib.Tactic.Lemma
import MapStyle.Proofs.Reading.Course

/-!
# Readers in lockstep

What a repeated key means is carried out where a declaration is committed and where a `Map` block is
closed, and no step looks at the outcome. So readers that differ in nothing else go through the same
states, up to what has been read of blocks, and stop at the same token with the same error.
-/

namespace MapStyle

variable {P : Type}

/-- Results that are equal up to a function are the same error, or are both there. -/
lemma cases_of_map_eq_map {ε α β : Type} {x y : Except ε α} {f : α → β}
    (h : x.map f = y.map f) :
    (∃ e, x = .error e ∧ y = .error e) ∨ ∃ a b, x = .ok a ∧ y = .ok b ∧ f a = f b := by
  cases x with
  | error e =>
    cases y with
    | error e' => exact .inl ⟨e, rfl, by rw [Except.error.inj h]⟩
    | ok b => cases h
  | ok a =>
    cases y with
    | error e' => cases h
    | ok b => exact .inr ⟨a, b, rfl, rfl, Except.ok.inj h⟩

/-- Dialects that differ at most in what a repeated key means. -/
structure Dialect.SameSyntax (d d' : Dialect P) : Prop where
  maxDepth : d.maxDepth = d'.maxDepth
  engine : d.engine = d'.engine
  functions : d.functions = d'.functions

namespace Fragment

/-- An open block without anything that has been read of it. -/
def bare : Fragment P → Fragment P
  | rule _ => rule (.ofSelectors [])
  | map _ => map {}

@[simp] lemma bare_bare (block : Fragment P) : block.bare.bare = block.bare := by
  cases block <;> rfl

@[simp] lemma bare_comp_bare : (bare ∘ bare : Fragment P → Fragment P) = bare :=
  funext bare_bare

@[simp] lemma isRule_bare (block : Fragment P) : block.bare.isRule = block.isRule := by
  cases block <;> rfl

lemma mapProperties_bare (f g : Properties → Properties) (block : Fragment P) :
    (block.bare.mapProperties f).bare = (block.mapProperties g).bare := by
  cases block <;> rfl

end Fragment

namespace Machine

/-- A state without anything that has been read of blocks. -/
def bare (m : Machine P) : Machine P :=
  { m with fragments := m.fragments.map Fragment.bare, rules := [], map := {} }

variable (m : Machine P) (t : Token)

@[simp] lemma bare_context : m.bare.context = m.context := rfl

@[simp] lemma bare_fragments : m.bare.fragments = m.fragments.map Fragment.bare := rfl

@[simp] lemma bare_bare : m.bare.bare = m.bare := by
  simp [bare]

@[simp] lemma inRuleBody_bare : m.bare.inRuleBody = m.inRuleBody := rfl

@[simp] lemma atComma_bare : m.bare.atComma = m.atComma := rfl

@[simp] lemma pushFrame_bare (f : Frame P) : m.bare.pushFrame f = (m.pushFrame f).bare := rfl

@[simp] lemma dropFrame_bare : m.bare.dropFrame = m.dropFrame.bare := rfl

@[simp] lemma nextSelector_bare : m.bare.nextSelector = m.nextSelector.bare := by
  simp only [nextSelector, bare_context]
  split <;> rfl

lemma bare_setContext (context : List (Frame P)) :
    { m.bare with context } = { m with context }.bare := rfl

/-! ### Operations -/

@[simp] lemma updateSelector_bare (f : Selector P → Except Error (Selector P)) :
    (m.bare.updateSelector t f).map bare = (m.updateSelector t f).map bare := by
  simp only [updateSelector, bare_context]
  cases updateInContext t f m.context with
  | error e => rfl
  | ok context => exact congrArg Except.ok (bare_bare { m with context })

@[simp] lemma openRule_bare (limit : Nat) :
    (m.bare.openRule limit t).map bare = (m.openRule limit t).map bare := by
  have hcount : (m.fragments.map Fragment.bare).countP Fragment.isRule =
      m.fragments.countP Fragment.isRule := by
    rw [List.countP_map]
    exact List.countP_congr fun block _ => by rw [Function.comp_apply, Fragment.isRule_bare]
  simp only [openRule, bare_context, bare_fragments, hcount]
  split
  · simp only [apply_ite (Except.map bare)]
    simp [Except.map, bare]
  · rfl

@[simp] lemma updateDeclaration_bare (f : Declaration → Except Error Declaration) :
    (m.bare.updateDeclaration t f).map bare = (m.updateDeclaration t f).map bare := by
  simp only [updateDeclaration, bare_context]
  split
  · next declaration below _ =>
    cases f declaration with
    | error e => rfl
    | ok declaration =>
      exact congrArg Except.ok (bare_bare { m with context := .declaration declaration :: below })
  · rfl

@[simp] lemma pushValue_bare (v : Value) :
    (m.bare.pushValue t v).map bare = (m.pushValue t v).map bare := by
  simp only [pushValue, updateDeclaration_bare]

@[simp] lemma readNumber_bare :
    m.bare.readNumber t = ((m.readNumber t).1.bare, (m.readNumber t).2) := by
  simp [readNumber_eq, bare]

/-- Whatever the policies are, a declaration is committed by both readers or by none. -/
@[simp] lemma commit_bare (policy policy' : DuplicateKeys) :
    (m.bare.commit policy t).map bare = (m.commit policy' t).map bare := by
  simp only [commit, bare_context, bare_fragments]
  split
  · next declaration below _ =>
    cases declaration.key with
    | none => rfl
    | some key =>
      simp only
      split
      · rfl
      cases combine key declaration.values with
      | error fault => rfl
      | ok value =>
        cases m.fragments with
        | nil => rfl
        | cons block outer =>
          simp [Except.map, bare, Fragment.mapProperties_bare _ (policy'.declare key value)]
  · rfl

@[simp] lemma updateCall_bare (f : OpenCall → Except Error OpenCall) :
    (m.bare.updateCall t f).map bare = (m.updateCall t f).map bare := by
  simp only [updateCall, bare_context]
  split
  · next c below _ =>
    cases f c with
    | error e => rfl
    | ok c => exact congrArg Except.ok (bare_bare { m with context := .call c :: below })
  · rfl

@[simp] lemma pushArgument_bare (a : Argument) :
    (m.bare.pushArgument t a).map bare = (m.pushArgument t a).map bare := by
  simp only [pushArgument, updateCall_bare]

@[simp] lemma closeCall_bare (functions : Registry) :
    (m.bare.closeCall functions t).map bare = (m.closeCall functions t).map bare := by
  simp only [closeCall, bare_context]
  split
  · split
    · rfl
    split
    · rfl
    · rw [bare_setContext, pushValue_bare]
  · rfl

@[simp] lemma closeReference_bare :
    (m.bare.closeReference t).map bare = (m.closeReference t).map bare := by
  simp only [closeReference, bare_context, bare_setContext]
  split
  · split
    · rfl
    · rw [pushArgument_bare]
    · rw [pushValue_bare]
  · rfl

@[simp] lemma closeFilter_bare (engine : PredicateEngine P) :
    (m.bare.closeFilter engine).map bare = (m.closeFilter engine).map bare := by
  simp only [closeFilter, bare_context, bare_setContext]
  split
  · split
    · rfl
    split
    · rfl
    · split <;> rw [updateSelector_bare]
  · rfl

@[simp] lemma extendFilter_bare :
    (m.bare.extendFilter t).map bare = (m.extendFilter t).map bare := by
  simp only [extendFilter, bare_context]
  split
  · exact congrArg Except.ok (bare_bare { m with context := _ })
  · rfl

@[simp] lemma closeNested_bare :
    (m.bare.closeNested t).map bare = (m.closeNested t).map bare := by
  obtain ⟨control, context, fragments, rules, map, warnings, last⟩ := m
  rcases context with - | ⟨frame, below⟩
  · rfl
  cases frame with
  | ruleBody =>
    rcases fragments with - | ⟨- | -, - | ⟨- | -, outermost⟩⟩ <;>
      simp [closeNested, bare, Fragment.bare, Except.map]
  | _ => rfl

/-- Whatever the policies are, a block is closed by both readers or by none. -/
@[simp] lemma closeBlock_bare (policy policy' : DuplicateKeys) :
    (m.bare.closeBlock policy t).map bare = (m.closeBlock policy' t).map bare := by
  obtain ⟨control, context, fragments, rules, map, warnings, last⟩ := m
  rcases context with - | ⟨frame, below⟩
  · rfl
  cases frame with
  | ruleBody | mapBody =>
    rcases fragments with - | ⟨- | -, outer⟩ <;> simp [closeBlock, bare, Fragment.bare, Except.map]
  | _ => rfl

/-! ### Steps -/

lemma map_outcome_bare {g g' : Machine P → Outcome P}
    (hg : ∀ m, (g m).map bare = g' m.bare) (x : Except Error (Machine P)) :
    (x.map g).map (Outcome.map bare) = (x.map bare).map g' := by
  cases x with
  | error e => rfl
  | ok m => exact congrArg Except.ok (hg m)

@[simp] lemma map_stay_bare (x : Except Error (Machine P)) :
    (x.map .stay).map (Outcome.map bare) = (x.map bare).map .stay :=
  map_outcome_bare (fun _ => rfl) x

@[simp] lemma map_enter_bare (mode : Mode) (x : Except Error (Machine P)) :
    (x.map (.enter mode)).map (Outcome.map bare) = (x.map bare).map (.enter mode) :=
  map_outcome_bare (fun _ => rfl) x

@[simp] lemma map_leave_bare (x : Except Error (Machine P)) :
    (x.map .leave).map (Outcome.map bare) = (x.map bare).map .leave :=
  map_outcome_bare (fun _ => rfl) x

@[simp] lemma map_close_bare (x : Except Error (Machine P)) :
    (x.map .close).map (Outcome.map bare) = (x.map bare).map .close :=
  map_outcome_bare (fun _ => rfl) x

@[simp] lemma map_nextSelector_bare (x : Except Error (Machine P)) :
    (x.map fun m => .stay m.nextSelector).map (Outcome.map bare) =
      (x.map bare).map fun m => .stay m.nextSelector :=
  map_outcome_bare (fun m => by rw [nextSelector_bare]; rfl) x

variable {d d' : Dialect P}

lemma stepRoot_bare :
    (stepRoot d m.bare t).map (Outcome.map bare) = (stepRoot d' m t).map (Outcome.map bare) := by
  simp only [stepRoot]
  split
  · simp [Except.map, Outcome.map]
  · simp only [apply_ite (Except.map (Outcome.map bare)), map_stay_bare,
      closeBlock_bare _ _ d.duplicateKeys d'.duplicateKeys, pushFrame_bare]
    simp [Except.map, Outcome.map]

lemma stepSelectorPart_bare (h : d.SameSyntax d') :
    (stepSelectorPart d m.bare t).map (Outcome.map bare) =
      (stepSelectorPart d' m t).map (Outcome.map bare) := by
  simp only [stepSelectorPart, h.maxDepth]
  cases t.kind with
  | whitespace => simp [Except.map, Outcome.map]
  | colorLiteral | identifier => rw [map_stay_bare, map_stay_bare, updateSelector_bare]
  | operator =>
    simp only [apply_ite (Except.map (Outcome.map bare)), map_stay_bare, updateSelector_bare,
      pushFrame_bare]
    simp [Except.map, Outcome.map]
  | delimiter =>
    simp only [apply_ite (Except.map (Outcome.map bare)), map_stay_bare, map_nextSelector_bare,
      updateSelector_bare, openRule_bare, pushFrame_bare]
    simp [Except.map, Outcome.map]
  | _ => rfl

lemma stepSelector_bare (h : d.SameSyntax d') : (stepSelector d m.bare t).map (Outcome.map bare) =
    (stepSelector d' m t).map (Outcome.map bare) := by
  simp only [stepSelector, bare_context, bare_setContext]
  split
  -- behind a full stop, behind one colon and behind two of them
  · simp only [apply_ite (Except.map (Outcome.map bare)), map_stay_bare, updateSelector_bare]
  · simp only [apply_ite (Except.map (Outcome.map bare))]
    simp [Except.map, Outcome.map]
  · simp only [apply_ite (Except.map (Outcome.map bare)), map_stay_bare, updateSelector_bare]
  · exact stepSelectorPart_bare m t h

lemma stepBody_bare :
    (stepBody m.bare t).map (Outcome.map bare) = (stepBody m t).map (Outcome.map bare) := by
  simp only [stepBody, bare_fragments, List.length_map]
  split
  · simp [Except.map, Outcome.map]
  · simp only [apply_ite (Except.map (Outcome.map bare)), map_close_bare, closeNested_bare,
      pushFrame_bare]
    simp [Except.map, Outcome.map]

lemma stepDeclaration_bare : (stepDeclaration d m.bare t).map (Outcome.map bare) =
    (stepDeclaration d' m t).map (Outcome.map bare) := by
  simp only [stepDeclaration, readWord, readNumber_bare]
  cases t.kind with
  | whitespace => simp [Except.map, Outcome.map]
  | identifier => rw [map_stay_bare, map_stay_bare, updateDeclaration_bare]
  | number | string | colorLiteral => simp only [map_stay_bare, pushValue_bare]
  | functionStart => rw [map_enter_bare, map_enter_bare, updateDeclaration_bare]
  | delimiter =>
    simp only [apply_ite (Except.map (Outcome.map bare)), map_stay_bare, map_enter_bare,
      map_leave_bare, map_close_bare, updateDeclaration_bare,
      commit_bare _ _ d.duplicateKeys d'.duplicateKeys]
  | operator => rfl

lemma stepFilter_bare (h : d.SameSyntax d') : (stepFilter d m.bare t).map (Outcome.map bare) =
    (stepFilter d' m t).map (Outcome.map bare) := by
  simp only [stepFilter, bare_context]
  split
  · simp only [stepFilterText, h.engine, apply_ite (Except.map (Outcome.map bare)), map_stay_bare,
      closeFilter_bare, extendFilter_bare]
  · simp only [apply_ite (Except.map (Outcome.map bare)), pushFrame_bare, dropFrame_bare,
      nextSelector_bare]
    simp [Except.map, Outcome.map]

lemma stepCall_bare (h : d.SameSyntax d') : (stepCall d m.bare t).map (Outcome.map bare) =
    (stepCall d' m t).map (Outcome.map bare) := by
  simp only [stepCall, bare_context]
  split
  · simp only [stepArguments, h.functions, readNumber_bare]
    cases t.kind with
    | whitespace => simp [Except.map, Outcome.map]
    | identifier | string | colorLiteral | number => simp only [map_stay_bare, pushArgument_bare]
    | delimiter =>
      simp only [apply_ite (Except.map (Outcome.map bare)), map_stay_bare, map_enter_bare,
        map_close_bare, updateCall_bare, closeCall_bare]
    | functionStart | operator => rfl
  · simp only [apply_ite (Except.map (Outcome.map bare)), pushFrame_bare]
    simp [Except.map, Outcome.map]

lemma stepReference_bare :
    (stepReference m.bare t).map (Outcome.map bare) = (stepReference m t).map (Outcome.map bare) := by
  simp only [stepReference, bare_context, bare_setContext]
  split
  · simp only [apply_ite (Except.map (Outcome.map bare)), map_close_bare, closeReference_bare]
    simp [Except.map, Outcome.map]
  · simp only [apply_ite (Except.map (Outcome.map bare)), pushFrame_bare]
    simp [Except.map, Outcome.map]

lemma stepMap_bare :
    (stepMap m.bare t).map (Outcome.map bare) = (stepMap m t).map (Outcome.map bare) := by
  simp only [stepMap, apply_ite (Except.map (Outcome.map bare)), pushFrame_bare]
  simp [Except.map, Outcome.map]

/-- A step of one reader is a step of the other, up to what has been read of blocks. -/
theorem step_bare (h : d.SameSyntax d') (mode : Mode) :
    (step d mode m.bare t).map (Outcome.map bare) = (step d' mode m t).map (Outcome.map bare) := by
  cases mode with
  | root => exact stepRoot_bare m t
  | rule =>
    by_cases hbody : m.inRuleBody
    · simpa only [step, stepRule, inRuleBody_bare, hbody, if_true] using stepBody_bare m t
    · simpa only [step, stepRule, inRuleBody_bare, hbody, Bool.false_eq_true, if_false] using
        stepSelector_bare m t h
  | declaration => exact stepDeclaration_bare m t
  | filter => exact stepFilter_bare m t h
  | call => exact stepCall_bare m t h
  | reference => exact stepReference_bare m t
  | map => exact stepMap_bare m t

/-- States that are equal up to what has been read of blocks are so behind a step. -/
lemma step_map_bare {m m' : Machine P} (h : d.SameSyntax d') (hm : m.bare = m'.bare) (mode : Mode) :
    (step d mode m t).map (Outcome.map bare) = (step d' mode m' t).map (Outcome.map bare) := by
  calc (step d mode m t).map (Outcome.map bare)
      = (step d mode m.bare t).map (Outcome.map bare) := (step_bare m t ⟨rfl, rfl, rfl⟩ mode).symm
    _ = (step d mode m'.bare t).map (Outcome.map bare) := by rw [hm]
    _ = (step d' mode m' t).map (Outcome.map bare) := step_bare m' t h mode

/-! ### Whole readings -/

/-- States that are equal up to what has been read of blocks. -/
lemma setControl_bare {m m' : Machine P} (hm : m.bare = m'.bare) (control : List Mode) :
    { m with control }.bare = { m' with control }.bare :=
  congrArg (fun m : Machine P => { m with control }) hm

lemma setLast_bare {m m' : Machine P} (hm : m.bare = m'.bare) (last : Location) :
    { m with last }.bare = { m' with last }.bare :=
  congrArg (fun m : Machine P => { m with last }) hm

/-- Outcomes that are equal up to what has been read of blocks go on in such states, with the same
tokens. -/
lemma next_map_bare {o o' : Outcome P} (h : o.map bare = o'.map bare) (mode : Mode)
    (below : List Mode) (ts : List Token) :
    (o.next mode below t ts).1.bare = (o'.next mode below t ts).1.bare ∧
      (o.next mode below t ts).2 = (o'.next mode below t ts).2 := by
  cases o <;> cases o' <;> simp only [Outcome.map, reduceCtorEq, Outcome.stay.injEq,
    Outcome.enter.injEq, Outcome.leave.injEq, Outcome.close.injEq] at h
  · exact ⟨setControl_bare h _, rfl⟩
  · obtain ⟨rfl, h⟩ := h
    exact ⟨setControl_bare h _, rfl⟩
  · exact ⟨setControl_bare h _, rfl⟩
  · exact ⟨setControl_bare h _, rfl⟩

lemma finish_bare (ts : List Token) :
    (m.bare.finish ts).map (fun _ => ()) = (m.finish ts).map fun _ => () := by
  cases ts with
  | nil =>
    simp only [finish, apply_ite (Except.map fun _ => ())]
    simp [bare, Except.map]
  | cons t ts => rfl

lemma openMap_bare (ts : List Token) :
    (m.bare.openMap ts).map (fun x => (x.1.bare, x.2)) =
      (m.openMap ts).map fun x => (x.1.bare, x.2) := by
  simp only [openMap]
  split
  · rfl
  · simp only [apply_ite (Except.map fun x : Machine P × List Token => (x.1.bare, x.2))]
    simp [bare, Except.map]

/-- Readers in states that are equal up to what has been read of blocks stop with the same error, or
both come to the end. -/
theorem read_bare (h : d.SameSyntax d') (m m' : Machine P) (ts : List Token)
    (hm : m.bare = m'.bare) :
    (read d m ts).map (fun _ => ()) = (read d' m' ts).map (fun _ => ()) := by
  -- both readers take the same step, as their states are equal up to what blocks hold
  induction m, ts using read_induction (d := d) generalizing m' with
  | done m ts hcontrol =>
    have hcontrol' : m'.control = [] := (congrArg control hm).symm.trans hcontrol
    rw [read_of_control_nil hcontrol, read_of_control_nil hcontrol', ← finish_bare, hm, finish_bare]
  | ends m mode below hcontrol hopened ih =>
    have hcontrol' : m'.control = mode :: below := (congrArg control hm).symm.trans hcontrol
    have hbody : m'.inMapBody = m.inMapBody := (congrArg inMapBody hm).symm
    have hend' : m'.stepEnd mode = m.stepEnd mode :=
      (congrArg (fun m : Machine P => m.stepEnd mode) hm).symm
    rw [read_nil hcontrol hopened, read_nil hcontrol' (hbody ▸ hopened), hend']
    cases hend : m.stepEnd mode with
    | error e => rfl
    | ok _ => exact ih hend _ (setControl_bare hm below)
  | steps m mode below t ts hcontrol hopened ih =>
    have hcontrol' : m'.control = mode :: below := (congrArg control hm).symm.trans hcontrol
    have hbody : m'.inMapBody = m.inMapBody := (congrArg inMapBody hm).symm
    have hstep := step_map_bare t h (setLast_bare hm t.location) mode
    rw [read_cons hcontrol hopened, read_cons hcontrol' (hbody ▸ hopened)]
    obtain ⟨e, ho, ho'⟩ | ⟨o, o', ho, ho', hmap⟩ := cases_of_map_eq_map hstep
    · rw [ho, ho']
      rfl
    · obtain ⟨hnext, hrest⟩ := next_map_bare t hmap mode below ts
      rw [ho, ho']
      change (read d _ _).map _ = (read d' _ _).map _
      rw [← hrest]
      exact ih o ho _ hnext
  | opens m below ts hcontrol hunopened ih =>
    have hcontrol' : m'.control = .map :: below := (congrArg control hm).symm.trans hcontrol
    have hbody : m'.inMapBody = m.inMapBody := (congrArg inMapBody hm).symm
    have hopen : (m.openMap ts).map (fun x => (x.1.bare, x.2)) =
        (m'.openMap ts).map fun x => (x.1.bare, x.2) := by
      rw [← openMap_bare, hm, openMap_bare]
    rw [read_of_unopened hcontrol hunopened, read_of_unopened hcontrol' (hbody ▸ hunopened)]
    obtain ⟨e, ho, ho'⟩ | ⟨⟨n, rest⟩, ⟨n', rest'⟩, ho, ho', hmap⟩ := cases_of_map_eq_map hopen
    · rw [ho, ho']
      rfl
    · obtain ⟨hn, rfl : rest = rest'⟩ := Prod.mk.inj hmap
      rw [ho, ho']
      exact ih n rest ho n' hn

end Machine

/-- What a repeated key means decides nothing of whether a token list is accepted, nor of the error. -/
theorem Dialect.SameSyntax.parseTokens_map {d d' : Dialect P} (h : d.SameSyntax d')
    (ts : List Token) :
    (d.parseTokens ts).map (fun _ => ()) = (d'.parseTokens ts).map (fun _ => ()) := by
  rw [Machine.parseTokens_eq_read, Machine.parseTokens_eq_read]
  exact Machine.read_bare h {} {} ts rfl

end MapStyle
