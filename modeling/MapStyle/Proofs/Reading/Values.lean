import MapStyle.Proofs.Reading.Grammar
import MapStyle.Proofs.Reading.Acceptance

/-!
# Reading values

From the start of a reference, a call or a declaration on, a reading is accepted exactly if the tokens
start with what the grammar calls so and the rest is accepted from the state that has taken it up.
-/

namespace MapStyle

open Grammar

variable {P : Type}

namespace Grammar

variable {t : Token} {ts rest : List Token}

/-! ### White space -/

/-- What does not depend on one blank does not depend on many. -/
lemma Blanks.iff {A : List Token → Prop} (hA : ∀ t ts, t.isWhitespace → (A (t :: ts) ↔ A ts))
    (h : Blanks ts rest) : A ts ↔ A rest := by
  induction h with
  | none => rfl
  | more h _ ih => rw [hA _ _ h, ih]

lemma Blanks.exists_cons {A : List Token → Prop}
    (hA : ∀ t ts, t.isWhitespace → (A (t :: ts) ↔ A ts)) (hnil : ¬ A []) (h : A ts) :
    ∃ t us, Blanks ts (t :: us) ∧ ¬ t.isWhitespace ∧ A (t :: us) := by
  induction ts with
  | nil => exact absurd h hnil
  | cons t ts ih =>
    by_cases ht : t.isWhitespace
    · obtain ⟨u, us, hblanks, hu⟩ := ih ((hA t ts ht).mp h)
      exact ⟨u, us, .more ht hblanks, hu⟩
    · exact ⟨t, ts, .none, ht, h⟩

lemma blanks_dropWhile (ts : List Token) : Blanks ts (ts.dropWhile Token.isWhitespace) := by
  induction ts with
  | nil => exact .none
  | cons t ts ih =>
    rw [List.dropWhile_cons]
    split
    · next h => exact .more h ih
    · exact .none

lemma Blanks.dropWhile_eq (h : Blanks ts (t :: rest)) (ht : ¬ t.isWhitespace) :
    ts.dropWhile Token.isWhitespace = t :: rest := by
  generalize hus : t :: rest = us at h
  induction h with
  | none => rw [← hus, List.dropWhile_cons, if_neg ht]
  | more h _ ih => rw [List.dropWhile_cons, if_pos h, ih hus]

lemma Reference.isDelimiter {name : String} (h : Reference (t :: ts) name rest) :
    t.isDelimiter "[" := by
  cases h with
  | intro hopen => exact hopen

lemma Declaration.kind_eq {functions : Registry} {key : String} {v : Value} {ws : List Warning}
    (h : Declaration functions (t :: ts) key v ws rest) : t.kind = .identifier := by
  cases h with
  | intro hkey => exact hkey

lemma exists_atom_iff {Q : Argument → List Warning → List Token → Prop} :
    (∃ a ws rest, Atom (t :: ts) a ws rest ∧ Q a ws rest) ↔
      (t.IsWord ∧ Q (.literal (.string t.text)) [] ts) ∨
      (t.kind = .colorLiteral ∧ Q (.literal (.color t.text)) [] ts) ∨
      (t.kind = .number ∧ Q (.literal t.numberLiteral) t.numberWarnings ts) ∨
      (t.isDelimiter "[" ∧ ∃ name rest, Reference (t :: ts) name rest ∧
        Q (.reference name) [] rest) := by
  constructor
  · rintro ⟨a, ws, rest, ha, hQ⟩
    cases ha with
    | word h => exact .inl ⟨h, hQ⟩
    | color h => exact .inr (.inl ⟨h, hQ⟩)
    | number h => exact .inr (.inr (.inl ⟨h, hQ⟩))
    | reference h => exact .inr (.inr (.inr ⟨h.isDelimiter, _, _, h, hQ⟩))
  · rintro (⟨h, hQ⟩ | ⟨h, hQ⟩ | ⟨h, hQ⟩ | ⟨_, name, rest, h, hQ⟩)
    · exact ⟨_, _, _, .word h, hQ⟩
    · exact ⟨_, _, _, .color h, hQ⟩
    · exact ⟨_, _, _, .number h, hQ⟩
    · exact ⟨_, _, _, .reference h, hQ⟩

end Grammar

namespace Machine

variable {d : Dialect P} {p : Parsed P} {below : List Mode} {context : List (Frame P)}
  {fragments : List (Fragment P)} {rules : List (Rule P)} {map : Properties} {ws : List Warning}
  {t : Token} {ts : List Token}

/-! ### References -/

lemma accepts_reference_cons {name : Option String} {opening : Token} :
    Accepts d p (.reference :: below) (.reference name opening :: context) fragments rules map ws
        (t :: ts) ↔
      (t.isWhitespace ∧ Accepts d p (.reference :: below) (.reference name opening :: context)
        fragments rules map ws ts) ∨
      (t.IsWord ∧ name = none ∧ Accepts d p (.reference :: below)
        (.reference (some t.text) opening :: context) fragments rules map ws ts) ∨
      (t.isDelimiter "]" ∧ Leads d p .reference below t ts
        ((closeReference ⟨.reference :: below, .reference name opening :: context, fragments, rules,
          map, ws, t.location⟩ t).map .close)) := by
  rw [accepts_cons (by nofun)]
  obtain ⟨kind, raw, text, location⟩ := t
  cases kind <;>
    simp [step, stepReference, Token.isWhitespace, Token.isDelimiter, Token.IsWord]

/-- A reference is read as the grammar has it, whatever is then to be done with its name. -/
lemma accepts_reference {A : String → List Token → Prop} {frame : Frame P}
    (hframe : ∀ name opening, frame ≠ .reference name opening) (ht : t.isDelimiter "[")
    (hA : ∀ name u rest, Leads d p .reference below u rest
      ((closeReference ⟨.reference :: below, .reference (some name) t :: frame :: context, fragments,
        rules, map, ws, u.location⟩ u).map .close) ↔ A name rest) :
    Accepts d p (.reference :: below) (frame :: context) fragments rules map ws (t :: ts) ↔
      ∃ name rest, Reference (t :: ts) name rest ∧ A name rest := by
  have hopen : Accepts d p (.reference :: below) (frame :: context) fragments rules map ws (t :: ts) ↔
      Accepts d p (.reference :: below) (.reference none t :: frame :: context) fragments rules map ws
        ts := by
    rw [accepts_cons (by nofun), step, stepReference]
    split
    · next h => cases h; exact absurd rfl (hframe _ _)
    · rw [if_pos ht]
      rfl
  have hskip : ∀ name u us, u.isWhitespace →
      (Accepts d p (.reference :: below) (.reference name t :: frame :: context) fragments rules map ws
        (u :: us) ↔ Accepts d p (.reference :: below) (.reference name t :: frame :: context) fragments
        rules map ws us) := by
    intro name u us hu
    obtain ⟨raw, text, location, rfl⟩ := Token.eq_of_isWhitespace hu
    simp [accepts_reference_cons, Token.isWhitespace, Token.IsWord, Token.isDelimiter]
  have hnil : ∀ name, ¬ Accepts d p (.reference :: below) (.reference name t :: frame :: context)
      fragments rules map ws [] := fun name h => by
    rw [accepts_nil (by nofun)] at h
    cases h.1
  rw [hopen]
  constructor
  · intro h
    -- the name and the closing bracket are the next tokens that are no blanks
    obtain ⟨word, us, hbefore, hword, h⟩ := Blanks.exists_cons (hskip none) (hnil none) h
    rw [accepts_reference_cons] at h
    obtain ⟨hblank, _⟩ | ⟨hword, _, h⟩ | ⟨_, h⟩ := h
    · -- the first is a blank, a name or the bracket; the name is not there yet
      exact absurd hblank hword
    · obtain ⟨u, vs, hbehind, hu, h⟩ := Blanks.exists_cons (hskip _) (hnil _) h
      rw [accepts_reference_cons] at h
      obtain ⟨hblank, _⟩ | ⟨_, hnone, _⟩ | ⟨hclose, h⟩ := h
      · exact absurd hblank hu
      · cases hnone
      · exact ⟨_, _, .intro ht hbefore hword hbehind hclose, (hA _ _ _).mp h⟩
    · cases h
  · rintro ⟨name, rest, href, h⟩
    cases href with
    | @intro _ word u _ us _ _ hbefore hword hbehind hclose =>
      rw [hbefore.iff (hskip none), accepts_reference_cons]
      refine .inr (.inl ⟨hword, rfl, ?_⟩)
      rw [hbehind.iff (hskip _), accepts_reference_cons]
      exact .inr (.inr ⟨hclose, (hA _ _ _).mpr h⟩)

/-- A reference among the arguments of a call. -/
lemma accepts_reference_of_call {c : OpenCall} (ht : t.isDelimiter "[") (hc : c.expectsArgument) :
    Accepts d p (.reference :: .call :: below) (.call c :: context) fragments rules map ws (t :: ts) ↔
      ∃ name rest, Reference (t :: ts) name rest ∧ Accepts d p (.call :: below)
        (.call { c with args := c.args ++ [.reference name], expectsArgument := false } :: context)
        fragments rules map ws rest := by
  refine accepts_reference nofun ht fun name u rest => ?_
  simp [closeReference, pushArgument, updateCall, requireArgument, hc]

/-! ### Calls -/

/-- Reading goes on among the values of a declaration that has been started in a state. -/
def AcceptsValues (d : Dialect P) (p : Parsed P) (m : Machine P) (key : String) (vs : List Value)
    (ws : List Warning) (ts : List Token) : Prop :=
  Accepts d p (.declaration :: m.control) (.declaration ⟨some key, true, vs⟩ :: m.context)
    m.fragments m.rules m.map ws ts

/-- Reading goes on inside a call among the values of a declaration. -/
def AcceptsArguments (d : Dialect P) (p : Parsed P) (m : Machine P) (key : String) (vs : List Value)
    (c : OpenCall) (ws : List Warning) (ts : List Token) : Prop :=
  Accepts d p (.call :: .declaration :: m.control)
    (.call c :: .declaration ⟨some key, true, vs⟩ :: m.context) m.fragments m.rules m.map ws ts

variable {m : Machine P} {key : String} {vs : List Value} {c : OpenCall}

lemma acceptsArguments_reference (ht : t.isDelimiter "[") (hc : c.expectsArgument) :
    Accepts d p (.reference :: .call :: .declaration :: m.control)
        (.call c :: .declaration ⟨some key, true, vs⟩ :: m.context) m.fragments m.rules m.map ws
        (t :: ts) ↔
      ∃ name rest, Reference (t :: ts) name rest ∧ AcceptsArguments d p m key vs
        { c with args := c.args ++ [.reference name], expectsArgument := false } ws rest :=
  accepts_reference_of_call ht hc

lemma leads_pushArgument {last : Location} {a : Argument} :
    Leads d p .call (.declaration :: m.control) t ts
        ((pushArgument ⟨.call :: .declaration :: m.control,
          .call c :: .declaration ⟨some key, true, vs⟩ :: m.context, m.fragments, m.rules, m.map, ws,
          last⟩ t a).map .stay) ↔
      c.expectsArgument ∧ AcceptsArguments d p m key vs
        { c with args := c.args ++ [a], expectsArgument := false } ws ts := by
  simp [pushArgument, updateCall, requireArgument, AcceptsArguments]

lemma leads_closeCall {last : Location} :
    Leads d p .call (.declaration :: m.control) t ts
        ((closeCall d.functions ⟨.call :: .declaration :: m.control,
          .call c :: .declaration ⟨some key, true, vs⟩ :: m.context, m.fragments, m.rules, m.map, ws,
          last⟩ t).map .close) ↔
      (c.expectsArgument → c.args = []) ∧
        ∃ v, d.functions.build c.name c.args = .ok v ∧ AcceptsValues d p m key (vs ++ [v]) ws ts := by
  cases hv : d.functions.build c.name c.args <;>
    simp [closeCall, hv, pushValue, updateDeclaration, requireColon, AcceptsValues]

lemma acceptsArguments_cons :
    AcceptsArguments d p m key vs c ws (t :: ts) ↔
      (t.isWhitespace ∧ AcceptsArguments d p m key vs c ws ts) ∨
      (c.expectsArgument ∧ ∃ a ws' rest, Atom (t :: ts) a ws' rest ∧ AcceptsArguments d p m key vs
        { c with args := c.args ++ [a], expectsArgument := false } (ws ++ ws') rest) ∨
      (t.isDelimiter "," ∧ c.expectsArgument = false ∧
        AcceptsArguments d p m key vs { c with expectsArgument := true } ws ts) ∨
      (t.isDelimiter ")" ∧ (c.expectsArgument → c.args = []) ∧
        ∃ v, d.functions.build c.name c.args = .ok v ∧ AcceptsValues d p m key (vs ++ [v]) ws ts) := by
  -- by the kind of the token; of the delimiters, three have a meaning of their own here
  rw [exists_atom_iff, AcceptsArguments, accepts_cons (by nofun)]
  obtain ⟨kind, raw, text, location⟩ := t
  cases kind with
  | delimiter =>
    by_cases hcomma : text = ","
    · subst hcomma
      simp [step, stepCall, stepArguments, updateCall, Token.isWhitespace, Token.isDelimiter,
        Token.IsWord, AcceptsArguments]
    by_cases hbracket : text = "["
    · subst hbracket
      simpa [step, stepCall, stepArguments, updateCall, requireArgument, Token.isWhitespace,
        Token.isDelimiter, Token.IsWord] using fun hc => acceptsArguments_reference rfl hc
    by_cases hclose : text = ")"
    · subst hclose
      simp [step, stepCall, stepArguments, leads_closeCall, Token.isWhitespace, Token.isDelimiter,
        Token.IsWord]
    · simp [step, stepCall, stepArguments, hcomma, hbracket, hclose, Token.isWhitespace,
        Token.isDelimiter, Token.IsWord]
  | whitespace =>
    simp [step, stepCall, stepArguments, Token.isWhitespace, Token.isDelimiter, Token.IsWord,
      AcceptsArguments]
  | _ =>
    simp [step, stepCall, stepArguments, readNumber_eq, leads_pushArgument, Token.isWhitespace,
      Token.isDelimiter, Token.IsWord]

lemma acceptsArguments_of_atom {a : Argument} {ws' : List Warning} {rest : List Token}
    (hc : c.expectsArgument) (ha : Atom ts a ws' rest)
    (h : AcceptsArguments d p m key vs
      { c with args := c.args ++ [a], expectsArgument := false } (ws ++ ws') rest) :
    AcceptsArguments d p m key vs c ws ts := by
  cases ts with
  | nil => exact absurd ha.length_lt (Nat.not_lt_zero _)
  | cons t ts => exact acceptsArguments_cons.mpr (.inr (.inl ⟨hc, a, ws', rest, ha, h⟩))

lemma acceptsArguments_blank (c : OpenCall) (ws : List Warning) (t : Token) (ts : List Token)
    (ht : t.isWhitespace) :
    AcceptsArguments d p m key vs c ws (t :: ts) ↔ AcceptsArguments d p m key vs c ws ts := by
  obtain ⟨raw, text, location, rfl⟩ := Token.eq_of_isWhitespace ht
  simp [acceptsArguments_cons, exists_atom_iff, Token.isWhitespace, Token.isDelimiter, Token.IsWord]

lemma not_acceptsArguments_nil (c : OpenCall) (ws : List Warning) :
    ¬ AcceptsArguments d p m key vs c ws [] := by
  intro h
  rw [AcceptsArguments, accepts_nil (by nofun)] at h
  cases h.1

/-- A call with an argument to come is read as the grammar has it. -/
lemma acceptsArguments_iff {name : String} {args : List Argument} {opening : Token} :
    AcceptsArguments d p m key vs ⟨name, args, true, opening⟩ ws ts ↔
      (∃ as ws' rest v, Arguments ts as ws' rest ∧ d.functions.build name (args ++ as) = .ok v ∧
        AcceptsValues d p m key (vs ++ [v]) (ws ++ ws') rest) ∨
      (args = [] ∧ ∃ u rest v, Blanks ts (u :: rest) ∧ u.isDelimiter ")" ∧
        d.functions.build name [] = .ok v ∧ AcceptsValues d p m key (vs ++ [v]) ws rest) := by
  constructor
  · intro hts
    induction hn : ts.length using Nat.strongRecOn generalizing ts args ws with
    | ind n ih =>
      subst hn
      obtain ⟨t, us, hbefore, ht, hus⟩ :=
        Blanks.exists_cons (acceptsArguments_blank _ ws) (not_acceptsArguments_nil _ ws) hts
      rw [acceptsArguments_cons] at hus
      obtain ⟨hblank, _⟩ | ⟨_, a, ws', vs', ha, hvs⟩ | ⟨_, hfalse, _⟩ | ⟨hclose, hnone, v, hv, h⟩ := hus
      · exact absurd hblank ht
      · obtain ⟨u, us', hbehind, hu, hus'⟩ :=
          Blanks.exists_cons (acceptsArguments_blank _ _) (not_acceptsArguments_nil _ _) hvs
        rw [acceptsArguments_cons] at hus'
        obtain ⟨hblank, _⟩ | ⟨hfalse, _⟩ | ⟨hcomma, _, hmore⟩ | ⟨hclose, _, v, hv, h⟩ := hus'
        · exact absurd hblank hu
        · cases hfalse
        · have hlt : us'.length < ts.length := by
            have hbefore := hbefore.length_le
            have ha := ha.length_lt
            have hbehind := hbehind.length_le
            simp only [List.length_cons] at *
            omega
          -- there is an argument before the comma, so the call cannot be the empty one
          obtain ⟨as, ws'', rest, v, has, hv, h⟩ | ⟨hnil, _⟩ := ih _ hlt hmore rfl
          · rw [List.append_assoc] at hv h
            exact .inl ⟨_, _, _, v, .more hbefore ha hbehind hcomma has, hv, h⟩
          · simp at hnil
        · exact .inl ⟨_, _, _, v, .last hbefore ha hbehind hclose, hv, h⟩
      · cases hfalse
      · have hargs := hnone rfl
        dsimp only at hargs hv
        rw [hargs] at hv
        exact .inr ⟨hargs, t, us, v, hbefore, hclose, hv, h⟩
  · rintro (⟨as, ws', rest, v, has, hv, h⟩ | ⟨rfl, u, rest, v, hblanks, hclose, hv, h⟩)
    · induction has generalizing args ws with
      | last hbefore ha hbehind hclose =>
        rw [hbefore.iff (acceptsArguments_blank _ _)]
        refine acceptsArguments_of_atom rfl ha ?_
        rw [hbehind.iff (acceptsArguments_blank _ _), acceptsArguments_cons]
        exact .inr (.inr (.inr ⟨hclose, nofun, v, hv, h⟩))
      | more hbefore ha hbehind hcomma hmore ih =>
        rw [hbefore.iff (acceptsArguments_blank _ _)]
        refine acceptsArguments_of_atom rfl ha ?_
        rw [hbehind.iff (acceptsArguments_blank _ _), acceptsArguments_cons]
        rw [← List.append_assoc] at h
        exact .inr (.inr (.inl ⟨hcomma, rfl, ih (by simpa using hv) h⟩))
    · rw [hblanks.iff (acceptsArguments_blank _ _), acceptsArguments_cons]
      exact .inr (.inr (.inr ⟨hclose, fun _ => rfl, v, hv, h⟩))

lemma accepts_call (ht : t.kind = .functionStart) :
    Accepts d p (.call :: .declaration :: m.control) (.declaration ⟨some key, true, vs⟩ :: m.context)
        m.fragments m.rules m.map ws (t :: ts) ↔
      ∃ v ws' rest, Grammar.Call d.functions (t :: ts) v ws' rest ∧
        AcceptsValues d p m key (vs ++ [v]) (ws ++ ws') rest := by
  have hopen : Accepts d p (.call :: .declaration :: m.control)
      (.declaration ⟨some key, true, vs⟩ :: m.context) m.fragments m.rules m.map ws (t :: ts) ↔
      AcceptsArguments d p m key vs ⟨t.text, [], true, t⟩ ws ts := by
    rw [accepts_cons (by nofun)]
    simp [step, stepCall, ht, pushFrame, AcceptsArguments]
  rw [hopen, acceptsArguments_iff]
  constructor
  · rintro (⟨as, ws', rest, v, has, hv, h⟩ | ⟨_, u, rest, v, hblanks, hclose, hv, h⟩)
    · exact ⟨v, ws', rest, .applied ht has hv, h⟩
    · exact ⟨v, [], rest, .empty ht hblanks hclose hv, by rwa [List.append_nil]⟩
  · rintro ⟨v, ws', rest, hcall, h⟩
    cases hcall with
    | empty _ hblanks hclose hv =>
      rw [List.append_nil] at h
      exact .inr ⟨rfl, _, _, v, hblanks, hclose, hv, h⟩
    | applied _ hargs hv => exact .inl ⟨_, _, _, v, hargs, hv, h⟩

/-! ### Declarations -/

/-- Reading goes on behind a declaration in a state, with a value for the key in its innermost block. -/
def AcceptsDeclared (d : Dialect P) (p : Parsed P) (m : Machine P) (key : String) (v : Value)
    (ws : List Warning) (ts : List Token) : Prop :=
  match m.fragments with
  | [] => False
  | block :: outer => Accepts d p m.control m.context
    (block.mapProperties (d.duplicateKeys.declare key v) :: outer) m.rules m.map ws ts

lemma leads_commit {last : Location} :
    (Leads d p .declaration m.control t ts ((commit d.duplicateKeys ⟨.declaration :: m.control,
        .declaration ⟨some key, true, vs⟩ :: m.context, m.fragments, m.rules, m.map, ws, last⟩ t).map
        .close) ↔ ∃ v, Combined vs v ∧ AcceptsDeclared d p m key v ws ts) ∧
    (Leads d p .declaration m.control t ts ((commit d.duplicateKeys ⟨.declaration :: m.control,
        .declaration ⟨some key, true, vs⟩ :: m.context, m.fragments, m.rules, m.map, ws, last⟩ t).map
        .leave) ↔ ∃ v, Combined vs v ∧ AcceptsDeclared d p m key v ws (t :: ts)) := by
  have hcombined (v : Value) : Combined vs v ↔ combine key vs = .ok v := combine_eq_ok_iff.symm
  simp only [hcombined]
  cases hv : combine key vs <;> cases hblocks : m.fragments <;>
    simp [commit, hv, AcceptsDeclared, hblocks]

lemma exists_item_iff {Q : Value → List Warning → List Token → Prop} :
    (∃ v ws rest, Item d.functions (t :: ts) v ws rest ∧ Q v ws rest) ↔
      (t.kind = .functionStart ∧
        ∃ v ws rest, Grammar.Call d.functions (t :: ts) v ws rest ∧ Q v ws rest) ∨
      ∃ a ws rest, Atom (t :: ts) a ws rest ∧ Q a.value ws rest := by
  constructor
  · rintro ⟨v, ws, rest, hitem, hQ⟩
    cases hitem with
    | atom h => exact .inr ⟨_, _, _, h, hQ⟩
    | call h =>
      refine .inl ⟨?_, _, _, _, h, hQ⟩
      cases h with
      | empty hname => exact hname
      | applied hname => exact hname
  · rintro (⟨_, v, ws, rest, h, hQ⟩ | ⟨a, ws, rest, h, hQ⟩)
    · exact ⟨_, _, _, .call h, hQ⟩
    · exact ⟨_, _, _, .atom h, hQ⟩

lemma exists_end_iff {Q : List Token → Prop} :
    (∃ rest, End (t :: ts) rest ∧ Q rest) ↔
      (t.isDelimiter ";" ∧ Q ts) ∨ (t.isDelimiter "\x7d" ∧ Q (t :: ts)) := by
  constructor
  · rintro ⟨rest, hend, hQ⟩
    cases hend with
    | semicolon h => exact .inl ⟨h, hQ⟩
    | brace h => exact .inr ⟨h, hQ⟩
  · rintro (⟨h, hQ⟩ | ⟨h, hQ⟩)
    · exact ⟨_, .semicolon h, hQ⟩
    · exact ⟨_, .brace h, hQ⟩

lemma acceptsValues_reference (ht : t.isDelimiter "[") :
    Accepts d p (.reference :: .declaration :: m.control)
        (.declaration ⟨some key, true, vs⟩ :: m.context) m.fragments m.rules m.map ws (t :: ts) ↔
      ∃ name rest, Reference (t :: ts) name rest ∧
        AcceptsValues d p m key (vs ++ [.reference name]) ws rest := by
  refine accepts_reference nofun ht fun name u rest => ?_
  simp [closeReference, pushValue, updateDeclaration, requireColon, AcceptsValues]

lemma acceptsValues_cons :
    AcceptsValues d p m key vs ws (t :: ts) ↔
      (t.isWhitespace ∧ AcceptsValues d p m key vs ws ts) ∨
      (t.isDelimiter "," ∧ vs ≠ [] ∧ AcceptsValues d p m key vs ws ts) ∨
      (∃ v ws' rest, Item d.functions (t :: ts) v ws' rest ∧
        AcceptsValues d p m key (vs ++ [v]) (ws ++ ws') rest) ∨
      ∃ rest, End (t :: ts) rest ∧ ∃ v, Combined vs v ∧
        AcceptsDeclared d p m key v ws rest := by
  -- by the kind of the token; of the delimiters, five have a meaning of their own here
  rw [exists_item_iff, exists_atom_iff, exists_end_iff, AcceptsValues, accepts_cons (by nofun)]
  obtain ⟨kind, raw, text, location⟩ := t
  cases kind with
  | delimiter =>
    by_cases hcolon : text = ":"
    · subst hcolon
      simp [step, stepDeclaration, updateDeclaration, Token.isWhitespace, Token.isDelimiter,
        Token.IsWord]
    by_cases hcomma : text = ","
    · subst hcomma
      simp [step, stepDeclaration, updateDeclaration, Token.isWhitespace, Token.isDelimiter,
        Token.IsWord, AcceptsValues]
    by_cases hbracket : text = "["
    · subst hbracket
      simpa [step, stepDeclaration, updateDeclaration, requireColon, Token.isWhitespace,
        Token.isDelimiter, Token.IsWord, Argument.value] using acceptsValues_reference rfl
    by_cases hsemicolon : text = ";"
    · subst hsemicolon
      simp [step, stepDeclaration, leads_commit, Token.isWhitespace, Token.isDelimiter, Token.IsWord]
    by_cases hbrace : text = "\x7d"
    · subst hbrace
      simp [step, stepDeclaration, leads_commit, Token.isWhitespace, Token.isDelimiter, Token.IsWord]
    · simp [step, stepDeclaration, *, Token.isWhitespace, Token.isDelimiter, Token.IsWord]
  | whitespace =>
    simp [step, stepDeclaration, Token.isWhitespace, Token.isDelimiter, Token.IsWord, AcceptsValues]
  | functionStart | operator =>
    simp [step, stepDeclaration, updateDeclaration, requireColon, accepts_call, Token.isWhitespace,
      Token.isDelimiter, Token.IsWord]
  | _ =>
    simp [step, stepDeclaration, readWord, readNumber_eq, pushValue, updateDeclaration, requireColon,
      Token.isWhitespace, Token.isDelimiter, Token.IsWord, AcceptsValues, Argument.value, Value.string,
      Value.color]

lemma acceptsValues_blank (vs : List Value) (ws : List Warning) (t : Token) (ts : List Token)
    (ht : t.isWhitespace) :
    AcceptsValues d p m key vs ws (t :: ts) ↔ AcceptsValues d p m key vs ws ts := by
  obtain ⟨raw, text, location, rfl⟩ := Token.eq_of_isWhitespace ht
  simp [step, stepDeclaration, AcceptsValues, accepts_cons]

lemma not_acceptsValues_nil (vs : List Value) (ws : List Warning) :
    ¬ AcceptsValues d p m key vs ws [] := by
  intro h
  rw [AcceptsValues, accepts_nil (by nofun)] at h
  cases h.1

lemma acceptsValues_of_item {v : Value} {ws' : List Warning} {rest : List Token}
    (hitem : Item d.functions ts v ws' rest)
    (h : AcceptsValues d p m key (vs ++ [v]) (ws ++ ws') rest) : AcceptsValues d p m key vs ws ts := by
  cases ts with
  | nil => exact absurd hitem.length_lt (Nat.not_lt_zero _)
  | cons t ts => exact acceptsValues_cons.mpr (.inr (.inr (.inl ⟨v, ws', rest, hitem, h⟩)))

lemma acceptsValues_of_end {rest : List Token} {v : Value} (hend : End ts rest)
    (hv : Combined vs v) (h : AcceptsDeclared d p m key v ws rest) :
    AcceptsValues d p m key vs ws ts := by
  cases ts with
  | nil => cases hend
  | cons t ts => exact acceptsValues_cons.mpr (.inr (.inr (.inr ⟨rest, hend, v, hv, h⟩)))

/-- Behind its first value a declaration is read as the grammar has it. -/
lemma acceptsValues_iff (hvs : vs ≠ []) :
    AcceptsValues d p m key vs ws ts ↔
      ∃ others ws' us rest v, Items d.functions ts others ws' us ∧ End us rest ∧
        Combined (vs ++ others) v ∧ AcceptsDeclared d p m key v (ws ++ ws') rest := by
  constructor
  · intro h
    -- each of the four readings leaves fewer tokens, so the induction is on their number
    induction hn : ts.length using Nat.strongRecOn generalizing ts vs ws with
    | ind n ih =>
      subst hn
      cases ts with
      | nil => exact absurd h (not_acceptsValues_nil _ _)
      | cons t ts =>
        rw [acceptsValues_cons] at h
        obtain ⟨ht, h⟩ | ⟨ht, _, h⟩ | ⟨v, ws', us, hitem, h⟩ | ⟨rest, hend, v, hv, h⟩ := h
        · obtain ⟨others, ws', us, rest, v, hitems, h⟩ := ih _ (Nat.lt_succ_self _) hvs h rfl
          exact ⟨others, ws', us, rest, v, .blank ht hitems, h⟩
        · obtain ⟨others, ws', us, rest, v, hitems, h⟩ := ih _ (Nat.lt_succ_self _) hvs h rfl
          exact ⟨others, ws', us, rest, v, .comma ht hitems, h⟩
        · obtain ⟨others, ws'', us', rest, v', hitems, hend, hv, h⟩ :=
            ih _ hitem.length_lt (by simp) h rfl
          rw [List.append_assoc] at hv h
          exact ⟨v :: others, ws' ++ ws'', us', rest, v', .item hitem hitems, hend, hv, h⟩
        · exact ⟨[], [], t :: ts, rest, v, .done, hend, by simpa using hv, by simpa using h⟩
  · rintro ⟨others, ws', us, rest, v, hitems, hend, hv, h⟩
    -- the values read so far grow along the items
    induction hitems generalizing vs ws with
    | done =>
      rw [List.append_nil] at hv h
      exact acceptsValues_of_end hend hv h
    | blank ht _ ih => rw [acceptsValues_blank _ _ _ _ ht]; exact ih hvs hend hv h
    | comma ht _ ih =>
      rw [acceptsValues_cons]
      exact .inr (.inl ⟨ht, hvs, ih hvs hend hv h⟩)
    | item hitem _ ih =>
      refine acceptsValues_of_item hitem (ih (by simp) hend (by simpa using hv) ?_)
      rwa [List.append_assoc]

lemma accepts_key_cons :
    Accepts d p (.declaration :: m.control) (.declaration ⟨some key, false, []⟩ :: m.context)
        m.fragments m.rules m.map ws (t :: ts) ↔
      (t.isWhitespace ∧ Accepts d p (.declaration :: m.control)
        (.declaration ⟨some key, false, []⟩ :: m.context) m.fragments m.rules m.map ws ts) ∨
      (t.isDelimiter ":" ∧ AcceptsValues d p m key [] ws ts) := by
  rw [accepts_cons (by nofun)]
  obtain ⟨kind, raw, text, location⟩ := t
  cases kind with
  | delimiter =>
    by_cases hcolon : text = ":"
    · subst hcolon
      simp [step, stepDeclaration, updateDeclaration, Token.isWhitespace, Token.isDelimiter,
        AcceptsValues]
    · simp [step, stepDeclaration, updateDeclaration, requireColon, commit, hcolon, Token.isWhitespace,
        Token.isDelimiter]
  | _ =>
    simp [step, stepDeclaration, readWord, readNumber_eq, pushValue, updateDeclaration, requireColon,
      Token.isWhitespace, Token.isDelimiter]

/-- A declaration is read as the grammar has it. -/
theorem accepts_declaration (ht : t.kind = .identifier) :
    Accepts d p (.declaration :: m.control) (.declaration {} :: m.context) m.fragments m.rules m.map ws
        (t :: ts) ↔
      ∃ key v ws' rest, Grammar.Declaration d.functions (t :: ts) key v ws' rest ∧
        AcceptsDeclared d p m key v (ws ++ ws') rest := by
  have hopen : Accepts d p (.declaration :: m.control) (.declaration {} :: m.context) m.fragments
      m.rules m.map ws (t :: ts) ↔ Accepts d p (.declaration :: m.control)
      (.declaration ⟨some t.text, false, []⟩ :: m.context) m.fragments m.rules m.map ws ts := by
    rw [accepts_cons (by nofun)]
    simp [step, stepDeclaration, ht, readWord, updateDeclaration]
  have hskip : ∀ u us, u.isWhitespace → (Accepts d p (.declaration :: m.control)
      (.declaration ⟨some t.text, false, []⟩ :: m.context) m.fragments m.rules m.map ws (u :: us) ↔
      Accepts d p (.declaration :: m.control) (.declaration ⟨some t.text, false, []⟩ :: m.context)
        m.fragments m.rules m.map ws us) := by
    intro u us hu
    have hcolon : ¬ u.isDelimiter ":" := fun h => Token.not_isWhitespace h hu
    simp [accepts_key_cons, hu, hcolon]
  have hnil : ¬ Accepts d p (.declaration :: m.control)
      (.declaration ⟨some t.text, false, []⟩ :: m.context) m.fragments m.rules m.map ws [] := by
    rw [accepts_nil (by nofun)]
    rintro ⟨hend, _⟩
    cases hend
  rw [hopen]
  constructor
  · intro h
    obtain ⟨colon, us, hbefore, hblank, h⟩ := Blanks.exists_cons hskip hnil h
    rw [accepts_key_cons] at h
    obtain ⟨hblank', _⟩ | ⟨hcolon, h⟩ := h
    · exact absurd hblank' hblank
    obtain ⟨u, us', hbehind, hu, h⟩ :=
      Blanks.exists_cons (acceptsValues_blank _ _) (not_acceptsValues_nil _ _) h
    rw [acceptsValues_cons] at h
    -- a first value must come: the comma and the end ask for one that is there already
    obtain ⟨hu', _⟩ | ⟨_, hne, _⟩ | ⟨first, ws', vs, hfirst, h⟩ | ⟨_, _, _, hv, _⟩ := h
    · exact absurd hu' hu
    · exact absurd rfl hne
    · rw [acceptsValues_iff (by simp)] at h
      obtain ⟨others, ws'', vs', rest, v, hothers, hend, hv, h⟩ := h
      rw [List.append_assoc] at h
      exact ⟨_, v, _, rest, .intro ht hbefore hcolon hbehind hfirst hothers hend hv, h⟩
    · exact absurd rfl hv.ne_nil
  · rintro ⟨key, v, ws', rest, hdecl, h⟩
    cases hdecl with
    | intro _ hbefore hcolon hbehind hfirst hothers hend hv =>
      rw [hbefore.iff hskip, accepts_key_cons]
      refine .inr ⟨hcolon, ?_⟩
      rw [hbehind.iff (acceptsValues_blank _ _)]
      refine acceptsValues_of_item hfirst ((acceptsValues_iff (by simp)).mpr ?_)
      rw [← List.append_assoc] at h
      exact ⟨_, _, _, rest, v, hothers, hend, hv, h⟩

end Machine

end MapStyle
