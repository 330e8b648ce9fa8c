import MapStyle.Proofs.Comments.Tokens
import MapStyle.Proofs.Reading.Alignment

/-!
# Reading step by step

A whole reading is followed through the states between two steps. The stacks fit together in each of
them.
-/

namespace MapStyle

variable {P : Type}

namespace Machine

/-- One step of a reader: over the brace of a `Map` block that is not open yet, over the token at hand,
or out of a construct at the end of the text. -/
def advance (d : Dialect P) (m : Machine P) (ts : List Token) : Except Error (Machine P × List Token) :=
  match m.control with
  | [] => .ok (m, ts)
  | mode :: below =>
    if mode = .map ∧ ¬ m.inMapBody then m.openMap ts
    else
      match ts with
      | [] => (m.stepEnd mode).map fun _ => ({ m with control := below }, [])
      | t :: ts => (step d mode { m with last := t.location } t).map fun o => o.next mode below t ts

/-- A number of steps of a reader. -/
def advances (d : Dialect P) : Nat → Machine P → List Token → Except Error (Machine P × List Token)
  | 0, m, ts => .ok (m, ts)
  | n + 1, m, ts => (advance d m ts).bind fun (m, ts) => advances d n m ts

/-- The ways in which a reader goes on, with the state and the tokens behind the step. -/
inductive Moves (d : Dialect P) (m : Machine P) : List Token → Machine P → List Token → Prop
  | done {ts : List Token} (hcontrol : m.control = []) : Moves d m ts m ts
  | opens {below : List Mode} {n : Machine P} {ts us : List Token} (hcontrol : m.control = .map :: below)
      (hunopened : ¬ m.inMapBody) (hmap : m.openMap ts = .ok (n, us)) : Moves d m ts n us
  | ends {mode : Mode} {below : List Mode} (hcontrol : m.control = mode :: below)
      (hopened : mode = .map → m.inMapBody) (hend : m.stepEnd mode = .ok ()) :
      Moves d m [] { m with control := below } []
  | steps {mode : Mode} {below : List Mode} {t : Token} {ts : List Token} {o : Outcome P}
      (hcontrol : m.control = mode :: below) (hopened : mode = .map → m.inMapBody)
      (hstep : step d mode { m with last := t.location } t = .ok o) :
      Moves d m (t :: ts) (o.next mode below t ts).1 (o.next mode below t ts).2

variable {d : Dialect P} {m m' : Machine P} {n : Nat} {mode : Mode} {below : List Mode} {t : Token}
  {ts ts' : List Token}

lemma advance_of_unopened (hcontrol : m.control = .map :: below) (hunopened : ¬ m.inMapBody) :
    advance d m ts = m.openMap ts := by
  unfold advance
  rw [hcontrol]
  exact if_pos ⟨rfl, hunopened⟩

lemma advance_nil (hcontrol : m.control = mode :: below) (hopened : mode = .map → m.inMapBody) :
    advance d m [] = (m.stepEnd mode).map fun _ => ({ m with control := below }, []) := by
  unfold advance
  rw [hcontrol]
  exact if_neg fun h => h.2 (hopened h.1)

lemma advance_cons (hcontrol : m.control = mode :: below) (hopened : mode = .map → m.inMapBody) :
    advance d m (t :: ts) =
      (step d mode { m with last := t.location } t).map fun o => o.next mode below t ts := by
  unfold advance
  rw [hcontrol]
  exact if_neg fun h => h.2 (hopened h.1)

lemma moves_of_advance (h : advance d m ts = .ok (m', ts')) : Moves d m ts m' ts' := by
  match hcontrol : m.control with
  | [] =>
    unfold advance at h
    rw [hcontrol] at h
    cases h
    exact .done hcontrol
  | mode :: below =>
    by_cases hopened : mode = .map → m.inMapBody
    · cases ts with
      | nil =>
        rw [advance_nil hcontrol hopened, Token.map_eq_ok_iff] at h
        obtain ⟨_, hend, heq⟩ := h
        cases heq
        exact .ends hcontrol hopened hend
      | cons t ts =>
        rw [advance_cons hcontrol hopened, Token.map_eq_ok_iff] at h
        obtain ⟨o, hstep, heq⟩ := h
        obtain ⟨rfl, rfl⟩ := Prod.mk.inj heq
        exact .steps hcontrol hopened hstep
    · obtain ⟨rfl, hunopened⟩ := Classical.not_imp.mp hopened
      rw [advance_of_unopened hcontrol hunopened] at h
      exact .opens hcontrol hunopened h

/-- A whole reading goes on behind each step. -/
lemma read_advance (m : Machine P) (ts : List Token) :
    read d m ts = (advance d m ts).bind fun (m, ts) => read d m ts := by
  match hcontrol : m.control with
  | [] =>
    unfold advance
    rw [hcontrol]
    rfl
  | mode :: below =>
    by_cases hopened : mode = .map → m.inMapBody
    · cases ts with
      | nil =>
        rw [read_nil hcontrol hopened, advance_nil hcontrol hopened]
        cases m.stepEnd mode <;> rfl
      | cons t ts =>
        rw [read_cons hcontrol hopened, advance_cons hcontrol hopened]
        cases step d mode { m with last := t.location } t <;> rfl
    · obtain ⟨rfl, hunopened⟩ := Classical.not_imp.mp hopened
      rw [read_of_unopened hcontrol hunopened, advance_of_unopened hcontrol hunopened]

/-- What holds at the start and is kept by each step holds behind any number of them. -/
theorem advances_induction {motive : Machine P → List Token → Prop}
    (step : ∀ m ts m' ts', motive m ts → advance d m ts = .ok (m', ts') → motive m' ts')
    (start : motive m ts) (h : advances d n m ts = .ok (m', ts')) : motive m' ts' := by
  induction n generalizing m ts with
  | zero =>
    cases h
    exact start
  | succ n ih =>
    rw [advances] at h
    cases hadvance : advance d m ts with
    | error e =>
      rw [hadvance] at h
      cases h
    | ok p =>
      rw [hadvance] at h
      exact ih (step m ts p.1 p.2 start hadvance) h

/-- The states that come one after another are those of a whole reading. -/
theorem read_of_advances (h : advances d n m ts = .ok (m', ts')) : read d m' ts' = read d m ts := by
  refine advances_induction (motive := fun m' ts' => read d m' ts' = read d m ts) ?_ rfl h
  intro m₁ ts₁ m₂ ts₂ hread hadvance
  rw [← hread, read_advance m₁, hadvance]
  rfl

/-- A step takes tokens only from the front. -/
lemma openMap_suffix (h : m.openMap ts = .ok (m', ts')) : ts' <:+ ts := by
  unfold openMap at h
  split at h
  · cases h
  · next brace us hbrace =>
    split at h
    · cases h
      have hrest := List.dropWhile_suffix Token.isWhitespace (l := ts.tail)
      rw [hbrace] at hrest
      exact ((List.suffix_cons brace ts').trans hrest).trans (List.tail_suffix ts)
    · cases h

/-- A step keeps the stacks aligned. -/
lemma aligned_advance (h : Aligned m.control m.context m.fragments ts)
    (hadvance : advance d m ts = .ok (m', ts')) : Aligned m'.control m'.context m'.fragments ts' := by
  cases moves_of_advance hadvance with
  | done => exact h
  | @opens below n ts us hcontrol hunopened hmap =>
    have hnext := aligned_openMap h hcontrol hunopened
    rw [hmap] at hnext
    rw [(openMap_eq_ok hmap below).2.1, hcontrol]
    exact hnext
  | ends hcontrol hopened hend =>
    have hnext := aligned_stepEnd (hcontrol ▸ h)
    rwa [hend] at hnext
  | @steps mode below t ts o hcontrol hopened hstep =>
    have hnext := aligned_step (d := d) (m := { m with last := t.location }) (hcontrol ▸ h) hopened
    rw [hstep] at hnext
    exact hnext

end Machine

end MapStyle
