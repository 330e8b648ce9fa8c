import MapStyle.Proofs.Reading.Alignment

/-!
# Accepting states

Whether a reading comes to a certain good end depends on the stacks, on what has been finished, and on
the tokens that are left, but not on where the last token was. This module says so once, and how
acceptance passes from a state over a token to the next state.
-/

namespace MapStyle

variable {P : Type}

namespace Machine

variable {d : Dialect P} {p : Parsed P}

/-! ### The place of the last token -/

lemma stepEnd_setLast (m : Machine P) (l : Location) (mode : Mode) :
    ({ m with last := l } : Machine P).stepEnd mode = .ok () ↔ m.stepEnd mode = .ok () := by
  cases mode <;> simp [stepEnd]

lemma bind_error_ne_ok {α β : Type} {e : Error} {f : α → Except Error β} {b : β} :
    (Except.error e).bind f ≠ .ok b := nofun

/-- A good end does not tell where the last token was. -/
lemma read_setLast (m : Machine P) (l : Location) (ts : List Token) :
    read d { m with last := l } ts = .ok p ↔ read d m ts = .ok p := by
  induction m, ts using read_induction (d := d) generalizing l with
  | done m ts hcontrol =>
    rw [read_of_control_nil hcontrol, read_of_control_nil (m := { m with last := l }) hcontrol]
    cases ts with
    | nil => simp only [finish]; split <;> simp
    | cons t ts => rfl
  | ends m mode below hcontrol hopened ih =>
    rw [read_nil hcontrol hopened, read_nil (m := { m with last := l }) hcontrol hopened]
    by_cases hend : m.stepEnd mode = .ok ()
    · rw [hend, (stepEnd_setLast m l mode).mpr hend]
      exact ih hend l
    · have hend' := mt (stepEnd_setLast m l mode).mp hend
      -- both fail, and their errors may be of different locations
      cases h : m.stepEnd mode with
      | ok _ => exact absurd h hend
      | error e =>
        cases h' : ({ m with last := l } : Machine P).stepEnd mode with
        | ok _ => exact absurd h' hend'
        | error e' => exact iff_of_false bind_error_ne_ok bind_error_ne_ok
  | steps m mode below t ts hcontrol hopened ih =>
    rw [read_cons hcontrol hopened, read_cons (m := { m with last := l }) hcontrol hopened]
  | opens m below ts hcontrol hunopened ih =>
    rw [read_of_unopened hcontrol hunopened,
      read_of_unopened (m := { m with last := l }) hcontrol hunopened]
    simp only [openMap]
    split
    · exact iff_of_false bind_error_ne_ok bind_error_ne_ok
    · rfl

/-! ### Acceptance -/

/-- Reading some tokens from a state on, with certain stacks and finished parts, comes to a certain
result. -/
def Accepts (d : Dialect P) (p : Parsed P) (control : List Mode) (context : List (Frame P))
    (fragments : List (Fragment P)) (rules : List (Rule P)) (map : Properties)
    (warnings : List Warning) (ts : List Token) : Prop :=
  read d ⟨control, context, fragments, rules, map, warnings, {}⟩ ts = .ok p

lemma accepts_iff_read (m : Machine P) (ts : List Token) :
    Accepts d p m.control m.context m.fragments m.rules m.map m.warnings ts ↔ read d m ts = .ok p :=
  read_setLast m {} ts

@[simp] lemma map_ok {α β : Type} (f : α → β) (a : α) :
    (Except.ok a : Except Error α).map f = .ok (f a) := rfl

@[simp] lemma map_error {α β : Type} (f : α → β) (e : Error) :
    (Except.error e : Except Error α).map f = .error e := rfl

@[simp] lemma map_ite {α β : Type} {c : Prop} [Decidable c] (f : α → β) (x y : Except Error α) :
    (if c then x else y).map f = if c then x.map f else y.map f :=
  apply_ite (Except.map f) c x y

/-- What a step leads to is accepted. -/
def Leads (d : Dialect P) (p : Parsed P) (mode : Mode) (below : List Mode) (t : Token)
    (ts : List Token) : Except Error (Outcome P) → Prop
  | .error _ => False
  | .ok (.stay m) => Accepts d p (mode :: below) m.context m.fragments m.rules m.map m.warnings ts
  | .ok (.enter child m) =>
    Accepts d p (child :: mode :: below) m.context m.fragments m.rules m.map m.warnings (t :: ts)
  | .ok (.leave m) => Accepts d p below m.context m.fragments m.rules m.map m.warnings (t :: ts)
  | .ok (.close m) => Accepts d p below m.context m.fragments m.rules m.map m.warnings ts

section

variable {mode child : Mode} {control below : List Mode} {context : List (Frame P)}
  {fragments : List (Fragment P)} {rules : List (Rule P)} {map : Properties}
  {warnings : List Warning} {last : Location} {t : Token} {ts : List Token}

@[simp] lemma leads_error (e : Error) : Leads d p mode below t ts (.error e) ↔ False := Iff.rfl

@[simp] lemma leads_stay :
    Leads d p mode below t ts (.ok (.stay ⟨control, context, fragments, rules, map, warnings, last⟩)) ↔
      Accepts d p (mode :: below) context fragments rules map warnings ts := Iff.rfl

@[simp] lemma leads_enter :
    Leads d p mode below t ts
        (.ok (.enter child ⟨control, context, fragments, rules, map, warnings, last⟩)) ↔
      Accepts d p (child :: mode :: below) context fragments rules map warnings (t :: ts) := Iff.rfl

@[simp] lemma leads_leave :
    Leads d p mode below t ts
        (.ok (.leave ⟨control, context, fragments, rules, map, warnings, last⟩)) ↔
      Accepts d p below context fragments rules map warnings (t :: ts) := Iff.rfl

@[simp] lemma leads_close :
    Leads d p mode below t ts
        (.ok (.close ⟨control, context, fragments, rules, map, warnings, last⟩)) ↔
      Accepts d p below context fragments rules map warnings ts := Iff.rfl

@[simp] lemma leads_ite_error {c : Prop} [Decidable c] (x : Except Error (Outcome P)) (e : Error) :
    Leads d p mode below t ts (if c then x else .error e) ↔ c ∧ Leads d p mode below t ts x := by
  by_cases h : c <;> simp [h]

@[simp] lemma leads_error_ite {c : Prop} [Decidable c] (x : Except Error (Outcome P)) (e : Error) :
    Leads d p mode below t ts (if c then .error e else x) ↔ ¬ c ∧ Leads d p mode below t ts x := by
  by_cases h : c <;> simp [h]

/-- Reading goes on behind the token at hand as the step of the mode on top says. -/
lemma accepts_cons
    (hopened : mode = .map → inMapBody ⟨mode :: below, context, fragments, rules, map, warnings, {}⟩) :
    Accepts d p (mode :: below) context fragments rules map warnings (t :: ts) ↔
      Leads d p mode below t ts
        (step d mode ⟨mode :: below, context, fragments, rules, map, warnings, t.location⟩ t) := by
  rw [Accepts, read_cons rfl hopened]
  cases step d mode ⟨mode :: below, context, fragments, rules, map, warnings, t.location⟩ t with
  | error e => exact ⟨nofun, nofun⟩
  | ok o => cases o <;> exact (accepts_iff_read _ _).symm

lemma accepts_nil
    (hopened : mode = .map → inMapBody ⟨mode :: below, context, fragments, rules, map, warnings, {}⟩) :
    Accepts d p (mode :: below) context fragments rules map warnings [] ↔
      stepEnd ⟨mode :: below, context, fragments, rules, map, warnings, {}⟩ mode = .ok () ∧
        Accepts d p below context fragments rules map warnings [] := by
  rw [Accepts, read_nil rfl hopened]
  cases stepEnd (P := P) ⟨mode :: below, context, fragments, rules, map, warnings, {}⟩ mode with
  | error e => exact ⟨nofun, nofun⟩
  | ok _ => simp [Except.bind, Accepts]

end

end Machine

end MapStyle
