import Mathlib.Tactic.Lemma
import MapStyle.Watcher

/-!
# Replacing a stylesheet

What a stylesheet that is loaded again does to a resolver: it takes the place of the first one that was
loaded from the same path, or comes on top if there is none.
-/

namespace MapStyle

variable {P : Type}

namespace Path

variable {p q : Path}

lemma same_iff : p.same q ↔ p.components = q.components :=
  beq_iff_eq

lemma same_refl (p : Path) : p.same p :=
  same_iff.mpr rfl

end Path

namespace Sheet

variable {s : Sheet P} {p q : Path}

lemma isFrom_of_path (hpath : s.path = some q) (p : Path) : s.isFrom p = q.same p := by
  rw [isFrom, hpath]
  rfl

/-- Paths that compare as equal are the same source. -/
lemma isFrom_congr (h : p.same q) (s : Sheet P) : s.isFrom p = s.isFrom q := by
  unfold isFrom Path.same
  rw [Path.same_iff.mp h]

/-- A stylesheet is from one path only, up to spelling. -/
lemma same_of_isFrom (hp : s.isFrom p) (hq : s.isFrom q) : p.same q := by
  obtain ⟨u, hu, hup⟩ := (Option.any_eq_true _ _).mp hp
  rw [isFrom_of_path hu] at hq
  exact Path.same_iff.mpr ((Path.same_iff.mp hup).symm.trans (Path.same_iff.mp hq))

end Sheet

namespace FileSystem

lemma readText?_of_fileAt? {fs : FileSystem} {p : Path} {place : RealPath} {text : String}
    (htarget : fs.target? p = some place) (hfile : fs.fileAt? place = some text.toUTF8) :
    fs.readText? p = some text := by
  rw [readText?, read?, htarget, Option.bind_some, hfile, Option.bind_some, String.fromUTF8?]
  exact dif_pos text.isValidUTF8

/-- A file system with one stylesheet, in the directory that relative paths start from. -/
def withRoads (text : String) : FileSystem where
  home := ["session"]
  files := [(["session", "roads.mss"], text.toUTF8)]

end FileSystem

namespace Dialect

variable {d : Dialect P} {fs : FileSystem} {p : Path} {s : Sheet P}

/-- A stylesheet keeps the path as it was given. -/
lemma path_of_load (h : d.load fs p = .ok s) : s.path = some p := by
  unfold load at h
  split at h
  · cases h
  · next text htext =>
    cases hparse : d.parse text <;> rw [hparse] at h <;> cases h
    rfl

lemma isFrom_of_load (h : d.load fs p = .ok s) : s.isFrom p :=
  (Sheet.isFrom_of_path (path_of_load h) p).trans (Path.same_refl p)

lemma load_of_readText? {text : String} {parsed : Parsed P} (htext : fs.readText? p = some text)
    (hparse : d.parse text = .ok parsed) :
    d.load fs p = .ok { parsed.sheet with path := some p } := by
  rw [load, htext]
  simp only [hparse]
  rfl

end Dialect

namespace Resolver

variable {path : Path} {s : Sheet P} {ts us : List (Sheet P)}

lemma replaceFirst_append {before after : List (Sheet P)} {t : Sheet P}
    (hbefore : ∀ b ∈ before, ¬ b.isFrom path) (ht : t.isFrom path) :
    replaceFirst path s (before ++ t :: after) = some (before ++ s :: after) := by
  induction before with
  | nil => rw [List.nil_append, replaceFirst, if_pos ht, List.nil_append]
  | cons b before ih =>
    obtain ⟨hb, hbefore⟩ := List.forall_mem_cons.mp hbefore
    rw [List.cons_append, replaceFirst, if_neg hb, ih hbefore, Option.map_some, List.cons_append]

lemma replaceFirst_eq_none (hts : ∀ t ∈ ts, ¬ t.isFrom path) : replaceFirst path s ts = none := by
  induction ts with
  | nil => rfl
  | cons t ts ih =>
    obtain ⟨ht, hts⟩ := List.forall_mem_cons.mp hts
    rw [replaceFirst, if_neg ht, ih hts, Option.map_none]

/-- The first stylesheet from the path gives its place to the new one. -/
lemma replace_of_first {r : Resolver P} {before after : List (Sheet P)} {t : Sheet P}
    (hr : r.sheets = before ++ t :: after) (hbefore : ∀ b ∈ before, ¬ b.isFrom path)
    (ht : t.isFrom path) : (r.replace path s).2.sheets = before ++ s :: after := by
  rw [replace, hr, replaceFirst_append hbefore ht]

/-- Where no stylesheet is from the path, the new one comes on top. -/
lemma replace_of_forall_not {r : Resolver P} (hr : ∀ t ∈ r.sheets, ¬ t.isFrom path) :
    (r.replace path s).2.sheets = r.sheets ++ [s] := by
  rw [replace, replaceFirst_eq_none hr]
  rfl

/-- Either some stylesheet is the first one from a path, or none is. -/
lemma exists_first_or_forall_not (path : Path) (ts : List (Sheet P)) :
    (∃ before t after, ts = before ++ t :: after ∧ (∀ b ∈ before, ¬ b.isFrom path) ∧ t.isFrom path) ∨
      ∀ t ∈ ts, ¬ t.isFrom path := by
  cases hfind : ts.find? (·.isFrom path) with
  | none => exact .inr (List.find?_eq_none.mp hfind)
  | some t =>
    obtain ⟨ht, before, after, rfl, hbefore⟩ := List.find?_eq_some_iff_append.mp hfind
    exact .inl ⟨before, t, after, rfl, fun b hb => by simpa using hbefore b hb, ht⟩

lemma getElem?_length_append (before : List (Sheet P)) (t : Sheet P) (after : List (Sheet P)) :
    (before ++ t :: after)[before.length]? = some t := by
  rw [List.getElem?_append_right (Nat.le_refl _), Nat.sub_self, List.getElem?_cons_zero]

/-- A stylesheet from another path keeps its place. -/
lemma getElem?_replace {r : Resolver P} {i : Nat} {t : Sheet P} (hi : r.sheets[i]? = some t)
    (ht : ¬ t.isFrom path) : (r.replace path s).2.sheets[i]? = some t := by
  obtain ⟨before, u, after, hr, hbefore, hu⟩ | hnone := exists_first_or_forall_not path r.sheets
  · have hset : before ++ s :: after = r.sheets.set before.length s := by simp [hr]
    have hne : before.length ≠ i := by
      rintro rfl
      rw [hr, getElem?_length_append] at hi
      cases hi
      exact ht hu
    rw [replace_of_first hr hbefore hu, hset, List.getElem?_set_ne hne, hi]
  · obtain ⟨hlt, -⟩ := List.getElem?_eq_some_iff.mp hi
    rw [replace_of_forall_not hnone, List.getElem?_append_left hlt, hi]

lemma applyChange_of_load {d : Dialect P} {fs : FileSystem} {state : Resolver P × Nat} {c : Change}
    (hkind : c.kind = .modified) (hload : d.load fs c.path = .ok s) :
    applyChange d fs state c = ((state.1.replace c.path s).2, state.2 + 1) := by
  rw [applyChange, hkind]
  simp only [hload]

end Resolver

end MapStyle
