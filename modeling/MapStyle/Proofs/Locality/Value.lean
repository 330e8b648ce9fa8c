import Mathlib.Tactic.Lemma
import MapStyle.Value

/-!
# What values look at

What a value becomes on a candidate depends only on the attributes that it names, and on the colours
that are drawn only if it draws any.
-/

namespace MapStyle

variable {c d : Candidate}

lemma Argument.resolve?_congr {a : Argument} (h : ∀ name ∈ a.fields, c name = d name) :
    a.resolve? c = a.resolve? d := by
  cases a with
  | literal value => rfl
  | reference name => rw [resolve?, resolve?, h name (List.mem_singleton_self name)]

namespace Call

lemma resolve?_congr {f : Call} (h : ∀ name ∈ f.fields, c name = d name) :
    f.resolve? c = f.resolve? d := by
  have hargs : f.args.mapM (Argument.resolve? c) = f.args.mapM (Argument.resolve? d) := by
    rw [fields] at h
    generalize f.args = args at h ⊢
    induction args with
    | nil => rfl
    | cons a args ih =>
      rw [List.flatMap_cons, List.forall_mem_append] at h
      rw [List.mapM_cons, List.mapM_cons, Argument.resolve?_congr h.1, ih h.2]
  rw [resolve?, resolve?, hargs]

lemma isRandom_of_resolve? {f g : Call} (h : f.resolve? c = some g) : g.isRandom = f.isRandom := by
  obtain ⟨args, _, rfl⟩ := Option.map_eq_some_iff.mp h
  rfl

/-- A call that draws no colour does not depend on the colour that is offered. -/
lemma evaluate?_of_not_isRandom {f : Call} (h : f.isRandom = false) (drawn drawn' : Rgba) :
    f.evaluate? drawn = f.evaluate? drawn' := by
  simp [evaluate?, h]

end Call

namespace Value

mutual

lemma resolve?_congr (palette palette' : Palette) (v : Value)
    (h : ∀ name ∈ v.fields, c name = d name) (hv : v.draws = 0) :
    v.resolve? palette c = v.resolve? palette' d := by
  match v with
  | .literal value => rfl
  | .list items => rfl
  | .reference name => rw [resolve?, resolve?, h name (List.mem_singleton_self name)]
  | .call f =>
    have hf : f.isRandom = false := by simpa [draws] using hv
    rw [resolve?, resolve?, Call.resolve?_congr (show ∀ name ∈ f.fields, _ from h)]
    cases hg : f.resolve? d with
    | none => rfl
    | some g =>
      have hrandom : g.isRandom = false := (Call.isRandom_of_resolve? hg).trans hf
      rw [Option.map_some, Option.map_some,
        Call.evaluate?_of_not_isRandom hrandom (palette 0) (palette' 0)]
  | .composite parts =>
    rw [resolve?, resolve?, resolveList?_congr palette palette' parts h hv]

lemma resolveList?_congr (palette palette' : Palette) (vs : List Value)
    (h : ∀ name ∈ fieldsList vs, c name = d name) (hvs : drawsList vs = 0) :
    resolveList? palette c vs = resolveList? palette' d vs := by
  match vs with
  | [] => rfl
  | v :: vs =>
    rw [fieldsList, List.forall_mem_append] at h
    rw [drawsList, Nat.add_eq_zero_iff] at hvs
    rw [resolveList?, resolveList?, resolve?_congr palette palette' v h.1 hvs.1,
      resolveList?_congr _ (fun n => palette' (n + v.draws)) vs h.2 hvs.2]

end

end Value

end MapStyle
