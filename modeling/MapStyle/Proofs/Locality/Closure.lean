import Mathlib
import MapStyle.Proofs.Locality.Value
import MapStyle.Proofs.Pointwise

/-!
# Values with their attributes filled in

A value can be filled in on a candidate if the candidate has every attribute that the value names.
What it becomes is settled: it names nothing, draws nothing and computes nothing, so filling it in
once more leaves it as it is, on whatever candidate.
-/

namespace MapStyle

variable {c : Candidate}

namespace Argument

lemma resolve?_eq_none_iff {a : Argument} :
    a.resolve? c = none ↔ ∃ name ∈ a.fields, c name = none := by
  cases a with
  | literal value => simp [resolve?, fields]
  | reference name => simp [resolve?, fields]

lemma fields_of_resolve? {a b : Argument} (h : a.resolve? c = some b) : b.fields = [] := by
  cases a with
  | literal value =>
    cases h
    rfl
  | reference name =>
    obtain ⟨value, _, rfl⟩ := Option.map_eq_some_iff.mp h
    rfl

lemma resolve?_of_fields_eq_nil {a : Argument} (h : a.fields = []) (c : Candidate) :
    a.resolve? c = some a := by
  cases a with
  | literal value => rfl
  | reference name => cases h

end Argument

namespace Call

lemma resolve?_eq_none_iff {f : Call} :
    f.resolve? c = none ↔ ∃ name ∈ f.fields, c name = none := by
  rw [resolve?, Option.map_eq_none_iff, mapM_eq_none_iff, fields]
  simp only [Argument.resolve?_eq_none_iff, List.mem_flatMap]
  constructor
  · rintro ⟨a, ha, name, hname, hc⟩
    exact ⟨name, ⟨a, ha, hname⟩, hc⟩
  · rintro ⟨name, ⟨a, ha, hname⟩, hc⟩
    exact ⟨a, ha, name, hname, hc⟩

lemma fields_of_resolve? {f g : Call} (h : f.resolve? c = some g) : g.fields = [] := by
  obtain ⟨bs, hbs, rfl⟩ := Option.map_eq_some_iff.mp h
  show bs.flatMap Argument.fields = []
  rw [List.flatMap_eq_nil_iff]
  intro b hb
  obtain ⟨a, -, hab⟩ := exists_of_mapM_eq_some hbs hb
  exact Argument.fields_of_resolve? hab

lemma resolve?_of_fields_eq_nil {f : Call} (h : f.fields = []) (c : Candidate) :
    f.resolve? c = some f := by
  have hargs : f.args.mapM (Argument.resolve? c) = some f.args := by
    rw [fields, List.flatMap_eq_nil_iff] at h
    exact mapM_eq_some_self fun a ha => Argument.resolve?_of_fields_eq_nil (h a ha) c
  rw [resolve?, hargs]
  rfl

/-- A call that computes no colour draws none: a random colour is always there. -/
lemma isRandom_of_evaluate? {f : Call} {drawn : Rgba} (h : f.evaluate? drawn = none) :
    f.isRandom = false := by
  by_contra hrandom
  rw [Bool.not_eq_false] at hrandom
  simp [evaluate?, hrandom] at h

end Call

namespace Value

mutual

/-- A value in which nothing is left to be filled in or computed. -/
def IsSettled : Value → Prop
  | reference _ => False
  | call f => f.fields = [] ∧ ∀ drawn, f.evaluate? drawn = none
  | composite parts => AreSettled parts
  | _ => True

/-- The values of a list in which nothing is left to be filled in or computed. -/
def AreSettled : List Value → Prop
  | [] => True
  | v :: vs => v.IsSettled ∧ AreSettled vs

end

mutual

lemma resolve?_eq_none_iff (palette : Palette) (v : Value) :
    v.resolve? palette c = none ↔ ∃ name ∈ v.fields, c name = none := by
  match v with
  | .literal value => simp [resolve?, fields]
  | .list items => simp [resolve?, fields]
  | .reference name => simp [resolve?, fields]
  | .call f => rw [resolve?, Option.map_eq_none_iff, Call.resolve?_eq_none_iff, fields]
  | .composite parts =>
    rw [resolve?, Option.map_eq_none_iff, resolveList?_eq_none_iff palette parts, fields]

lemma resolveList?_eq_none_iff (palette : Palette) (vs : List Value) :
    resolveList? palette c vs = none ↔ ∃ name ∈ fieldsList vs, c name = none := by
  match vs with
  | [] => simp [resolveList?, fieldsList]
  | v :: vs =>
    have hv := resolve?_eq_none_iff palette v
    have hvs := resolveList?_eq_none_iff (fun n => palette (n + v.draws)) vs
    simp only [fieldsList, List.mem_append, or_and_right, exists_or, ← hv, ← hvs]
    cases hw : v.resolve? palette c <;>
      cases hws : resolveList? (fun n => palette (n + v.draws)) c vs <;>
        simp [resolveList?, hw, hws]

end

mutual

lemma isSettled_of_resolve? {palette : Palette} (v : Value) {w : Value}
    (h : v.resolve? palette c = some w) : w.IsSettled := by
  match v with
  | .literal value =>
    cases h
    trivial
  | .list items =>
    cases h
    trivial
  | .reference name =>
    obtain ⟨value, _, rfl⟩ := Option.map_eq_some_iff.mp h
    trivial
  | .call f =>
    obtain ⟨g, hg, hw⟩ := Option.map_eq_some_iff.mp h
    cases he : g.evaluate? (palette 0) with
    | some rgba =>
      rw [he] at hw
      cases hw
      trivial
    | none =>
      rw [he] at hw
      cases hw
      -- a call that is left over draws no colour, so it is left over whichever colour is offered
      have hrandom : g.isRandom = false := Call.isRandom_of_evaluate? he
      refine ⟨Call.fields_of_resolve? hg, fun drawn => ?_⟩
      rw [Call.evaluate?_of_not_isRandom hrandom drawn (palette 0), he]
  | .composite parts =>
    obtain ⟨ws, hws, rfl⟩ := Option.map_eq_some_iff.mp h
    exact areSettled_of_resolveList? parts hws

lemma areSettled_of_resolveList? {palette : Palette} (vs : List Value) {ws : List Value}
    (h : resolveList? palette c vs = some ws) : AreSettled ws := by
  match vs with
  | [] =>
    cases h
    trivial
  | v :: vs =>
    obtain ⟨w, hw, h⟩ := Option.bind_eq_some_iff.mp h
    obtain ⟨ws', hws', hcons⟩ := Option.bind_eq_some_iff.mp h
    cases hcons
    exact ⟨isSettled_of_resolve? v hw, areSettled_of_resolveList? vs hws'⟩

end

mutual

lemma IsSettled.fields_eq_nil {w : Value} (h : w.IsSettled) : w.fields = [] := by
  match w with
  | .literal value => rfl
  | .list items => rfl
  | .reference name => exact h.elim
  | .call f => exact h.1
  | .composite parts => exact AreSettled.fieldsList_eq_nil h

lemma AreSettled.fieldsList_eq_nil {ws : List Value} (h : AreSettled ws) :
    fieldsList ws = [] := by
  match ws with
  | [] => rfl
  | w :: ws =>
    rw [fieldsList, IsSettled.fields_eq_nil h.1, AreSettled.fieldsList_eq_nil h.2]
    rfl

end

mutual

lemma IsSettled.draws_eq_zero {w : Value} (h : w.IsSettled) : w.draws = 0 := by
  match w with
  | .literal value => rfl
  | .list items => rfl
  | .reference name => exact h.elim
  | .call f =>
    have hrandom : f.isRandom = false := Call.isRandom_of_evaluate? (h.2 (Rgba.solid 0 0 0))
    simp [draws, hrandom]
  | .composite parts => exact AreSettled.drawsList_eq_zero h

lemma AreSettled.drawsList_eq_zero {ws : List Value} (h : AreSettled ws) :
    drawsList ws = 0 := by
  match ws with
  | [] => rfl
  | w :: ws => rw [drawsList, IsSettled.draws_eq_zero h.1, AreSettled.drawsList_eq_zero h.2]

end

mutual

lemma IsSettled.resolve?_eq {w : Value} (h : w.IsSettled) (palette : Palette) (c : Candidate) :
    w.resolve? palette c = some w := by
  match w with
  | .literal value => rfl
  | .list items => rfl
  | .reference name => exact h.elim
  | .call f =>
    rw [resolve?, Call.resolve?_of_fields_eq_nil h.1]
    simp only [Option.map_some, h.2 (palette 0)]
  | .composite parts =>
    rw [resolve?, AreSettled.resolveList?_eq h palette c]
    rfl

lemma AreSettled.resolveList?_eq {ws : List Value} (h : AreSettled ws) (palette : Palette)
    (c : Candidate) : resolveList? palette c ws = some ws := by
  match ws with
  | [] => rfl
  | w :: ws =>
    rw [resolveList?, IsSettled.resolve?_eq h.1 palette c, AreSettled.resolveList?_eq h.2 _ c]
    rfl

end

/-- A value becomes nothing on a candidate exactly if an attribute is missing that the value names.
What it becomes otherwise names no attribute, draws no colour, and becomes itself on every
candidate. -/
theorem resolve?_settles (v : Value) (palette : Palette) (c : Candidate) :
    (v.resolve? palette c = none ↔ ∃ name ∈ v.fields, c name = none) ∧
      ∀ w, v.resolve? palette c = some w →
        w.fields = [] ∧ w.draws = 0 ∧
          ∀ (palette' : Palette) (d : Candidate), w.resolve? palette' d = some w := by
  refine ⟨resolve?_eq_none_iff palette v, fun w hw => ?_⟩
  have hsettled : w.IsSettled := isSettled_of_resolve? v hw
  exact ⟨hsettled.fields_eq_nil, hsettled.draws_eq_zero, hsettled.resolve?_eq⟩

/-- A random colour beside a composite of an attribute and a call that no function carries out: they
settle on a candidate that has the attribute, and become nothing on one that has none. -/
theorem resolve?_settles_nested :
    let v := composite [call ⟨"randcolor", []⟩,
      composite [reference "NAME", call ⟨"shade", [.reference "NAME", .literal (.boolean true)]⟩]]
    let w := composite [color (Rgba.solid 1 2 3).display,
      composite [string "Oslo", call ⟨"shade", [.literal (.string "Oslo"), .literal (.boolean true)]⟩]]
    (v.resolve? (fun _ => Rgba.solid 1 2 3) (fun _ => some (.string "Oslo")) = some w ∧
        w.fields = [] ∧ w.draws = 0 ∧
          ∀ (palette' : Palette) (d : Candidate), w.resolve? palette' d = some w) ∧
      v.resolve? (fun _ => Rgba.solid 1 2 3) (fun _ => none) = none := by
  intro v w
  have hw : v.resolve? (fun _ => Rgba.solid 1 2 3) (fun _ => some (.string "Oslo")) = some w := by
    cbv
  refine ⟨⟨hw, (resolve?_settles v _ _).2 w hw⟩, ?_⟩
  exact (resolve?_settles v _ _).1.mpr ⟨"NAME", by decide, rfl⟩

end Value

end MapStyle
