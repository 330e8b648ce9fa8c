import MapStyle.Proofs.Pointwise
import MapStyle.Sheet.Machine

/-!
# Combining values

What the values behind the key of a declaration make up together, and that this is what a reader makes of
them.
-/

namespace MapStyle

namespace Grammar

/-- A number among the values of a declaration, as a list has it: an integer counts as a floating-point
number. -/
inductive IsNumber : Value → Float → Prop
  | integer (n : Int64) : IsNumber (.literal (.integer n)) (Float.ofInt n.toInt)
  | float (x : Float) : IsNumber (.literal (.float x)) x

/-- The one value that the values of a declaration make up: a single one as it is, numbers as a list, and
other literals as the words of one string. References, calls and lists can only stand alone. -/
inductive Combined : List Value → Value → Prop
  | single {v : Value} : Combined [v] v
  | numbers {vs : List Value} {xs : List Float} (hlength : 2 ≤ vs.length)
      (hnumbers : List.Forall₂ IsNumber vs xs) : Combined vs (.list xs)
  | words {ls : List Literal} (hlength : 2 ≤ ls.length)
      (hword : ∃ l ∈ ls, ∀ x, ¬ IsNumber (.literal l) x) :
      Combined (ls.map .literal) (.literal (.string (" ".intercalate (ls.map Literal.display))))

lemma Combined.ne_nil {vs : List Value} {v : Value} (h : Combined vs v) : vs ≠ [] := by
  rintro rfl
  generalize hvs : ([] : List Value) = vs at h
  cases h with
  | single => cases hvs
  | numbers hlength => simp [← hvs] at hlength
  | words hlength =>
    obtain rfl := List.map_eq_nil_iff.mp hvs.symm
    simp at hlength

lemma numericItem?_eq_some_iff {v : Value} {x : Float} :
    Machine.numericItem? v = some x ↔ IsNumber v x := by
  constructor
  · intro h
    obtain ⟨l, rfl⟩ : ∃ l, v = .literal l := by
      cases v with
      | literal l => exact ⟨l, rfl⟩
      | _ => cases h
    cases l with
    | integer n =>
      cases h
      exact .integer n
    | float x =>
      cases h
      exact .float x
    | _ => cases h
  · rintro (n | x)
    · rfl
    · rfl

lemma mapM_asLiteral?_eq_some_iff {vs : List Value} {ls : List Literal} :
    vs.mapM Value.asLiteral? = some ls ↔ vs = ls.map .literal := by
  have hliteral (v : Value) (l : Literal) : v.asLiteral? = some l ↔ v = .literal l := by
    cases v <;> simp [Value.asLiteral?]
  simp only [mapM_eq_some_iff, hliteral]
  rw [← List.forall₂_eq_eq_eq, List.forall₂_map_right_iff]

end Grammar

open Grammar

/-! ### Combining -/

namespace Machine

variable {key : String} {vs : List Value} {v : Value}

lemma mapM_numericItem?_eq_some_iff {xs : List Float} :
    vs.mapM numericItem? = some xs ↔ List.Forall₂ IsNumber vs xs := by
  simp only [mapM_eq_some_iff, numericItem?_eq_some_iff]

lemma mapM_numericItem?_eq_none_iff :
    vs.mapM numericItem? = none ↔ ∃ v ∈ vs, ∀ x, ¬ IsNumber v x := by
  rw [mapM_eq_none_iff]
  simp only [Option.eq_none_iff_forall_ne_some, ne_eq, numericItem?_eq_some_iff]

/-- Two values or more are combined as numbers, and if they are not all numbers, as words. -/
lemma combine_eq_ok_iff_of_two_le (hlength : 2 ≤ vs.length) :
    combine key vs = .ok v ↔ (∃ xs, vs.mapM numericItem? = some xs ∧ v = .list xs) ∨
      vs.mapM numericItem? = none ∧ ∃ ls, vs.mapM Value.asLiteral? = some ls ∧
        v = .literal (.string (" ".intercalate (ls.map Literal.display))) := by
  match vs, hlength with
  | u :: w :: us, _ =>
    simp only [combine]
    cases (u :: w :: us).mapM numericItem? with
    | some xs => simp [eq_comm]
    | none => cases (u :: w :: us).mapM Value.asLiteral? <;> simp [Value.string, eq_comm]

/-- Values are combined into the one value that they make up. -/
theorem combine_eq_ok_iff : combine key vs = .ok v ↔ Combined vs v := by
  constructor
  · intro h
    match vs with
    | [] => cases h
    | [w] =>
      cases h
      exact .single
    | u :: w :: us =>
      have hlength : 2 ≤ (u :: w :: us).length := Nat.le_add_left 2 _
      -- with two values or more, all of them are numbers or some are not
      obtain ⟨xs, hxs, rfl⟩ | ⟨hword, ls, hls, rfl⟩ := (combine_eq_ok_iff_of_two_le hlength).mp h
      · exact .numbers hlength (mapM_numericItem?_eq_some_iff.mp hxs)
      · rw [mapM_numericItem?_eq_none_iff] at hword
        rw [mapM_asLiteral?_eq_some_iff] at hls
        rw [hls] at hlength hword ⊢
        exact .words (by simpa using hlength) (by simpa using hword)
  · intro h
    cases h with
    | single => rfl
    | numbers hlength hxs =>
      rw [combine_eq_ok_iff_of_two_le hlength]
      exact .inl ⟨_, mapM_numericItem?_eq_some_iff.mpr hxs, rfl⟩
    | words hlength hword =>
      rw [combine_eq_ok_iff_of_two_le (by simpa using hlength)]
      refine .inr ⟨?_, _, mapM_asLiteral?_eq_some_iff.mpr rfl, rfl⟩
      exact mapM_numericItem?_eq_none_iff.mpr (by simpa using hword)

end Machine

end MapStyle
