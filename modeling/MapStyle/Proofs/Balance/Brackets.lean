import Mathlib.Tactic.Lemma
import MapStyle.Lexeme.Basic
import MapStyle.Token.Basic
import MapStyle.Proofs.Reading.Kinds

/-!
# Balanced tokens

Which tokens open and close brackets, and when a token list is balanced: each bracket is closed by its
own closer, in the right order, and no closer is left over. The name of a function opens a parenthesis.
-/

namespace MapStyle.Token

/-- The bracket that a token opens. -/
def opens? (t : Token) : Option Bracket :=
  if t.kind = .functionStart then some .paren
  else [.paren, .square, .curly].find? fun b : Bracket => t.isDelimiter (String.ofList [b.opener])

/-- The bracket that a token closes. -/
def closes? (t : Token) : Option Bracket :=
  [.paren, .square, .curly].find? fun b : Bracket => t.isDelimiter (String.ofList [b.closer])

/-- The brackets that are open behind a token, innermost first, given those that are open before it.
There are none if the token is a closer that does not fit. -/
def turn (opened : List Bracket) (t : Token) : Option (List Bracket) :=
  match t.opens?, t.closes? with
  | some b, _ => some (b :: opened)
  | none, none => some opened
  | none, some b => if opened.head? = some b then some opened.tail else none

/-- The brackets that are open behind some tokens. -/
def openBehind (opened : List Bracket) (ts : List Token) : Option (List Bracket) :=
  ts.foldlM turn opened

/-- All brackets that are opened are closed again, in the right order, and no others. -/
def Balanced (ts : List Token) : Prop :=
  openBehind [] ts = some []

instance (ts : List Token) : Decidable (Balanced ts) :=
  inferInstanceAs (Decidable (_ = _))

/-- A token that neither opens nor closes a bracket. -/
structure IsPlain (t : Token) : Prop where
  opens : t.opens? = none
  closes : t.closes? = none

section

variable {t u : Token} {ts us inner : List Token} {b : Bracket} {opened opened' : List Bracket}

/-! ### Which tokens open and close -/

lemma opens?_eq_some_iff : t.opens? = some b ↔
    (t.kind = .functionStart ∧ b = .paren) ∨ t.isDelimiter (String.ofList [b.opener]) := by
  constructor
  · intro h
    unfold opens? at h
    split at h
    · next hkind => exact .inl ⟨hkind, (Option.some_inj.mp h).symm⟩
    · have hfind := List.find?_some h
      exact .inr hfind
  · rintro (⟨hkind, rfl⟩ | h)
    · exact if_pos hkind
    · obtain ⟨raw, location, rfl⟩ := eq_of_isDelimiter h
      cases b <;> rfl

lemma closes?_eq_some_iff : t.closes? = some b ↔ t.isDelimiter (String.ofList [b.closer]) := by
  constructor
  · intro h
    unfold closes? at h
    have hfind := List.find?_some h
    exact hfind
  · intro h
    obtain ⟨raw, location, rfl⟩ := eq_of_isDelimiter h
    cases b <;> rfl

lemma opens?_eq_none (h : t.closes? = some b) : t.opens? = none := by
  obtain ⟨raw, location, rfl⟩ := eq_of_isDelimiter (closes?_eq_some_iff.mp h)
  cases b <;> rfl

lemma isPlain_of_kind (hdelimiter : t.kind ≠ .delimiter) (hfunction : t.kind ≠ .functionStart) :
    t.IsPlain := by
  have hnot (text : String) : ¬ t.isDelimiter text := fun h => by
    obtain ⟨raw, location, rfl⟩ := eq_of_isDelimiter h
    exact hdelimiter rfl
  constructor
  · refine Option.eq_none_iff_forall_ne_some.mpr fun b h => ?_
    exact (opens?_eq_some_iff.mp h).elim (hfunction ·.1) (hnot _)
  · exact Option.eq_none_iff_forall_ne_some.mpr fun b h => hnot _ (closes?_eq_some_iff.mp h)

lemma isPlain_of_isDelimiter {text : String} (h : t.isDelimiter text)
    (hopener : ∀ b : Bracket, text ≠ String.ofList [b.opener])
    (hcloser : ∀ b : Bracket, text ≠ String.ofList [b.closer]) : t.IsPlain := by
  constructor
  · refine Option.eq_none_iff_forall_ne_some.mpr fun b hb => ?_
    rcases opens?_eq_some_iff.mp hb with ⟨hkind, -⟩ | hb
    · obtain ⟨raw, location, rfl⟩ := eq_of_isDelimiter h
      cases hkind
    · exact not_isDelimiter h (hopener b) hb
  · refine Option.eq_none_iff_forall_ne_some.mpr fun b hb => ?_
    exact not_isDelimiter h (hcloser b) (closes?_eq_some_iff.mp hb)

/-! ### What is open behind a token -/

lemma turn_of_opens (h : t.opens? = some b) : turn opened t = some (b :: opened) := by
  rw [turn, h]

lemma turn_of_closes (h : t.closes? = some b) :
    turn opened t = if opened.head? = some b then some opened.tail else none := by
  rw [turn, opens?_eq_none h, h]

lemma turn_close (h : t.closes? = some b) : turn (b :: opened) t = some opened := by
  rw [turn_of_closes h]
  exact if_pos rfl

lemma IsPlain.turn_eq (h : t.IsPlain) : turn opened t = some opened := by
  rw [turn, h.opens, h.closes]

lemma openBehind_cons (opened : List Bracket) (t : Token) (ts : List Token) :
    openBehind opened (t :: ts) = (turn opened t).bind (openBehind · ts) := rfl

lemma openBehind_append (opened : List Bracket) (ts us : List Token) :
    openBehind opened (ts ++ us) = (openBehind opened ts).bind (openBehind · us) :=
  List.foldlM_append

lemma turn_frame (h : turn opened t = some opened') (below : List Bracket) :
    turn (opened ++ below) t = some (opened' ++ below) := by
  unfold turn at h ⊢
  split at h
  · cases h
    rfl
  · cases h
    rfl
  · split at h
    · next hhead =>
      cases h
      cases opened with
      | nil => cases hhead
      | cons b opened =>
        rw [List.cons_append, List.head?_cons, ← List.head?_cons (l := opened), hhead]
        exact if_pos rfl
    · cases h

/-- What is open around some tokens does not matter as long as they do not close it. -/
lemma openBehind_frame (h : openBehind opened ts = some opened') (below : List Bracket) :
    openBehind (opened ++ below) ts = some (opened' ++ below) := by
  induction ts generalizing opened with
  | nil =>
    cases h
    rfl
  | cons t ts ih =>
    rw [openBehind_cons, Option.bind_eq_some_iff] at h ⊢
    obtain ⟨opened'', hturn, hts⟩ := h
    exact ⟨_, turn_frame hturn below, ih hts⟩

/-! ### Building balanced lists -/

lemma balanced_nil : Balanced [] := rfl

lemma IsPlain.balanced (h : t.IsPlain) : Balanced [t] := by
  rw [Balanced, openBehind_cons, h.turn_eq]
  rfl

lemma Balanced.append (hts : Balanced ts) (hus : Balanced us) : Balanced (ts ++ us) := by
  rw [Balanced, openBehind_append, hts]
  exact hus

lemma Balanced.block (hopen : t.opens? = some b) (hinner : Balanced inner)
    (hclose : u.closes? = some b) : Balanced (t :: (inner ++ [u])) := by
  have hframe : openBehind [b] inner = some [b] := openBehind_frame hinner [b]
  rw [Balanced, openBehind_cons, turn_of_opens hopen, Option.bind_some, openBehind_append, hframe,
    Option.bind_some, openBehind_cons, turn_close hclose]
  rfl

/-! ### Taking balanced lists apart -/

/-- Tokens that neither open nor close a bracket of a kind leave such a bracket around them alone. -/
lemma openBehind_below (hopens : ∀ t ∈ ts, t.opens? ≠ some b) (hcloses : ∀ t ∈ ts, t.closes? ≠ some b)
    (hb : b ∉ opened) {below : List Bracket}
    (h : openBehind (opened ++ b :: below) ts = some opened') :
    ∃ inner, openBehind opened ts = some inner ∧ b ∉ inner ∧ opened' = inner ++ b :: below := by
  induction ts generalizing opened with
  | nil =>
    cases h
    exact ⟨opened, rfl, hb, rfl⟩
  | cons t ts ih =>
    obtain ⟨hopen, hopens⟩ := List.forall_mem_cons.mp hopens
    obtain ⟨hclose, hcloses⟩ := List.forall_mem_cons.mp hcloses
    rw [openBehind_cons, Option.bind_eq_some_iff] at h
    obtain ⟨opened'', hturn, hts⟩ := h
    -- the turn of the innermost brackets is the same without those from `b` on
    have hstep : ∃ next, turn opened t = some next ∧ b ∉ next ∧ opened'' = next ++ b :: below := by
      unfold turn at hturn ⊢
      split at hturn
      · next c hc =>
        cases hturn
        have hne : b ≠ c := fun hbc => hopen (hbc ▸ hc)
        exact ⟨c :: opened, rfl, List.not_mem_cons_of_ne_of_not_mem hne hb, rfl⟩
      · cases hturn
        exact ⟨opened, rfl, hb, rfl⟩
      · -- the token closes the innermost bracket, which is not `b` as `b` is not closed
        next c hnone hc =>
        split at hturn
        · next hhead =>
          cases hturn
          cases opened with
          | nil => exact absurd (hc.trans hhead.symm) hclose
          | cons a opened =>
            have ha : (a :: opened).head? = some c := hhead
            exact ⟨opened, if_pos ha, fun hmem => hb (List.mem_cons_of_mem a hmem), rfl⟩
        · cases hturn
    obtain ⟨next, hturn', hnext, rfl⟩ := hstep
    obtain ⟨inner, hinner, hbinner, rfl⟩ := ih hopens hcloses hnext hts
    exact ⟨inner, by rw [openBehind_cons, hturn', Option.bind_some, hinner], hbinner, rfl⟩

/-- What stands between an innermost pair of brackets of a kind in a balanced list is balanced. -/
lemma Balanced.of_block {pre post : List Token} (h : Balanced (pre ++ t :: (inner ++ u :: post)))
    (hopen : t.opens? = some b) (hclose : u.closes? = some b)
    (hopens : ∀ x ∈ inner, x.opens? ≠ some b) (hcloses : ∀ x ∈ inner, x.closes? ≠ some b) :
    Balanced inner := by
  rw [Balanced, openBehind_append, Option.bind_eq_some_iff] at h
  obtain ⟨opened, -, h⟩ := h
  rw [openBehind_cons, turn_of_opens hopen, Option.bind_some, openBehind_append,
    Option.bind_eq_some_iff] at h
  obtain ⟨opened', hinner, h⟩ := h
  have hinner : openBehind ([] ++ b :: opened) inner = some opened' := hinner
  obtain ⟨left, hleft, hb, rfl⟩ := openBehind_below hopens hcloses List.not_mem_nil hinner
  rw [openBehind_cons, Option.bind_eq_some_iff] at h
  obtain ⟨opened'', hturn, -⟩ := h
  rw [turn_of_closes hclose] at hturn
  cases left with
  | nil => exact hleft
  | cons c left =>
    have hne : ((c :: left) ++ b :: opened).head? ≠ some b := fun hhead =>
      hb (Option.some_inj.mp hhead ▸ List.mem_cons_self)
    rw [if_neg hne] at hturn
    cases hturn

end

end MapStyle.Token
