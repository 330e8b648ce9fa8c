import MapStyle.Proofs.Comments.Sheets
import MapStyle.Proofs.Reading.Concatenation
import MapStyle.Proofs.Reloading.Replacement

/-!
# Versions of a file

Which stylesheets from a path a resolver holds after a list of changes. A modified file takes the place of
the first of them, a removed one takes all of them away, and nothing else touches them. So older versions
stay if the file was loaded more than once.
-/

namespace MapStyle

variable {P : Type}

namespace Resolver

/-- The stylesheets that were loaded from a path, in the order of their precedence. -/
def sheetsFrom (r : Resolver P) (p : Path) : List (Sheet P) :=
  r.sheets.filter (·.isFrom p)

/-- What a change of a file makes of the stylesheets from its path. -/
def follow (d : Dialect P) (fs : FileSystem) (sheets : List (Sheet P)) (c : Change) :
    List (Sheet P) :=
  match c.kind with
  | .removed => []
  | .modified =>
    match d.load fs c.path with
    | .ok s => s :: sheets.tail
    | .error _ => sheets

variable {d : Dialect P} {fs : FileSystem} {r : Resolver P} {p q : Path} {s : Sheet P}

/-! ### One change -/

lemma sheetsFrom_remove_of_same (h : q.same p) : (r.remove q).sheetsFrom p = [] := by
  rw [sheetsFrom, remove, List.filter_filter, List.filter_eq_nil_iff]
  intro t _
  rw [Sheet.isFrom_congr h, Bool.and_not_self]
  exact Bool.false_ne_true

lemma sheetsFrom_remove_of_not_same (h : ¬ q.same p) : (r.remove q).sheetsFrom p = r.sheetsFrom p := by
  rw [sheetsFrom, remove, List.filter_filter, sheetsFrom]
  refine List.filter_congr fun t _ => ?_
  cases hp : t.isFrom p with
  | false => rfl
  | true =>
    have hq : t.isFrom q = false := Bool.eq_false_iff.mpr fun hq => h (Sheet.same_of_isFrom hq hp)
    rw [hq]
    rfl

lemma sheetsFrom_replace_of_same (hpath : s.path = some q) (h : q.same p) :
    (r.replace q s).2.sheetsFrom p = s :: (r.sheetsFrom p).tail := by
  have hs : s.isFrom p := (Sheet.isFrom_of_path hpath p).trans h
  have hnil {ts : List (Sheet P)} (hts : ∀ t ∈ ts, ¬ t.isFrom q) : ts.filter (·.isFrom p) = [] :=
    List.filter_eq_nil_iff.mpr fun t ht => Sheet.isFrom_congr h t ▸ hts t ht
  obtain ⟨before, t, after, hr, hbefore, ht⟩ | hnone := exists_first_or_forall_not q r.sheets
  · rw [Sheet.isFrom_congr h] at ht
    simp only [sheetsFrom, replace_of_first hr hbefore (Sheet.isFrom_congr h t ▸ ht), hr,
      List.filter_append, hnil hbefore, List.filter_cons, hs, ht, if_true, List.nil_append,
      List.tail_cons]
  · simp only [sheetsFrom, replace_of_forall_not hnone, List.filter_append, hnil hnone,
      List.filter_cons, hs, if_true, List.filter_nil, List.nil_append, List.tail_nil]

lemma sheetsFrom_replace_of_not_same (hpath : s.path = some q) (h : ¬ q.same p) :
    (r.replace q s).2.sheetsFrom p = r.sheetsFrom p := by
  have hs : ¬ s.isFrom p := by rwa [Sheet.isFrom_of_path hpath]
  obtain ⟨before, t, after, hr, hbefore, ht⟩ | hnone := exists_first_or_forall_not q r.sheets
  · have htp : ¬ t.isFrom p := fun htp => h (Sheet.same_of_isFrom ht htp)
    simp only [sheetsFrom, replace_of_first hr hbefore ht, hr, List.filter_append, List.filter_cons, hs,
      htp, Bool.false_eq_true, if_false]
  · simp only [sheetsFrom, replace_of_forall_not hnone, List.filter_append, List.filter_cons, hs,
      Bool.false_eq_true, if_false, List.filter_nil, List.append_nil]

/-- A change touches the stylesheets from its own path only. -/
lemma sheetsFrom_applyChange (d : Dialect P) (fs : FileSystem) (state : Resolver P × Nat) (c : Change)
    (p : Path) : (applyChange d fs state c).1.sheetsFrom p =
      if c.path.same p then follow d fs (state.1.sheetsFrom p) c else state.1.sheetsFrom p := by
  obtain ⟨r, reloaded⟩ := state
  simp only [applyChange, follow]
  cases c.kind with
  | removed =>
    by_cases h : c.path.same p
    · rw [if_pos h]
      exact sheetsFrom_remove_of_same h
    · rw [if_neg h]
      exact sheetsFrom_remove_of_not_same h
  | modified =>
    cases hload : d.load fs c.path with
    | error e => exact (ite_self _).symm
    | ok s =>
      by_cases h : c.path.same p
      · rw [if_pos h]
        exact sheetsFrom_replace_of_same (Dialect.path_of_load hload) h
      · rw [if_neg h]
        exact sheetsFrom_replace_of_not_same (Dialect.path_of_load hload) h

/-! ### Lists of changes -/

/-- The stylesheets from a path follow the changes of this path. -/
theorem sheetsFrom_applyChanges (d : Dialect P) (fs : FileSystem) (r : Resolver P) (cs : List Change)
    (p : Path) : (applyChanges d fs r cs).1.sheetsFrom p =
      (cs.filter (·.path.same p)).foldl (follow d fs) (r.sheetsFrom p) := by
  rw [applyChanges, List.foldl_filter]
  generalize hstate : (r, 0) = state
  obtain rfl : state.1 = r := by rw [← hstate]
  clear hstate
  induction cs generalizing state with
  | nil => rfl
  | cons c cs ih => rw [List.foldl_cons, List.foldl_cons, ih, sheetsFrom_applyChange]

/-- All stylesheets but the first stay as they are until the file is removed. -/
lemma tail_foldl_follow (cs : List Change) (sheets : List (Sheet P)) :
    (cs.foldl (follow d fs) sheets).tail =
      if cs.any (·.kind = .removed) then [] else sheets.tail := by
  induction cs generalizing sheets with
  | nil => rfl
  | cons c cs ih =>
    rw [List.foldl_cons, ih, List.any_cons]
    unfold follow
    cases c.kind with
    | removed => simp
    | modified => cases d.load fs c.path <;> simp

/-- Behind the last change of a path, the stylesheet that was loaded then is the first one from the path. -/
lemma sheetsFrom_applyChanges_append (r : Resolver P) (before : List Change) {after : List Change}
    {c : Change} (hkind : c.kind = .modified) (hload : d.load fs c.path = .ok s)
    (hlast : ∀ a ∈ after, ¬ a.path.same c.path) :
    (applyChanges d fs r (before ++ c :: after)).1.sheetsFrom c.path =
      s :: if ∃ b ∈ before, b.path.same c.path ∧ b.kind = .removed then []
        else (r.sheetsFrom c.path).tail := by
  have hlater : (c :: after).filter (·.path.same c.path) = [c] := by
    rw [List.filter_cons, if_pos (Path.same_refl _), List.filter_eq_nil_iff.mpr hlast]
  have hremoved : (before.filter (·.path.same c.path)).any (·.kind = .removed) ↔
      ∃ b ∈ before, b.path.same c.path ∧ b.kind = .removed := by
    simp [List.any_filter]
  rw [sheetsFrom_applyChanges, List.filter_append, hlater, List.foldl_append, List.foldl_cons,
    List.foldl_nil, follow, hkind]
  simp only [hload, tail_foldl_follow, hremoved]

/-- If the last change of a path is that its file was modified, and the file can be read, then the
stylesheet that was read is in the resolver. It is the only version of that file there if and only if the
file was removed before or the resolver held no other version of it behind the first one. -/
theorem forall_eq_applyChanges_iff (d : Dialect P) (fs : FileSystem) (r : Resolver P)
    (before : List Change) {after : List Change} {c : Change} {s : Sheet P} (hkind : c.kind = .modified)
    (hload : d.load fs c.path = .ok s) (hlast : ∀ a ∈ after, ¬ a.path.same c.path) :
    s ∈ (applyChanges d fs r (before ++ c :: after)).1.sheets ∧
      ((∀ t ∈ (applyChanges d fs r (before ++ c :: after)).1.sheets, t.isFrom c.path → t = s) ↔
        (∃ b ∈ before, b.path.same c.path ∧ b.kind = .removed) ∨
          ∀ t ∈ (r.sheetsFrom c.path).tail, t = s) := by
  have hfrom := sheetsFrom_applyChanges_append r before hkind hload hlast
  have hmem (t : Sheet P) : t ∈ (applyChanges d fs r (before ++ c :: after)).1.sheetsFrom c.path ↔
      t ∈ (applyChanges d fs r (before ++ c :: after)).1.sheets ∧ t.isFrom c.path := List.mem_filter
  rw [hfrom] at hmem
  refine ⟨((hmem s).mp List.mem_cons_self).1, ?_⟩
  have hall : (∀ t ∈ (applyChanges d fs r (before ++ c :: after)).1.sheets, t.isFrom c.path → t = s) ↔
      ∀ t ∈ (if ∃ b ∈ before, b.path.same c.path ∧ b.kind = .removed then []
        else (r.sheetsFrom c.path).tail), t = s := by
    constructor
    · intro h t ht
      obtain ⟨hsheet, hpath⟩ := (hmem t).mp (List.mem_cons_of_mem _ ht)
      exact h t hsheet hpath
    · intro h t hsheet hpath
      obtain rfl | ht := List.mem_cons.mp ((hmem t).mpr ⟨hsheet, hpath⟩)
      · rfl
      · exact h t ht
  rw [hall]
  split
  · next hremoved => exact ⟨fun _ => .inl hremoved, fun _ t ht => absurd ht List.not_mem_nil⟩
  · next hremoved => exact ⟨.inr, fun h => h.resolve_left hremoved⟩

/-- A stylesheet in which roads have a width. -/
def widthText (width : String) : String := "#roads \x7b width: " ++ width ++ "; \x7d"

lemma exists_load_of_any {path : Path} {width : String} (value : Literal)
    (htarget : (FileSystem.withRoads (widthText width)).target? path = some ["session", "roads.mss"])
    (hparse : (Dialect.cql.parse (widthText width)).toOption.any fun p =>
      Dialect.literalsOf "width" p.sheet = [some value]) :
    ∃ s, Dialect.cql.load (.withRoads (widthText width)) path = .ok s ∧
      Dialect.literalsOf "width" s = [some value] := by
  obtain ⟨p, hp, hvalue⟩ := Dialect.exists_parse_of_any hparse
  exact ⟨_, Dialect.load_of_readText? (FileSystem.readText?_of_fileAt? htarget rfl) hp,
    of_decide_eq_true hvalue⟩

/-- The stylesheets that are loaded from a file before and after it was modified. -/
lemma exists_versions {p q : Path}
    (hp : (FileSystem.withRoads (widthText "1")).target? p = some ["session", "roads.mss"])
    (hq : (FileSystem.withRoads (widthText "2")).target? q = some ["session", "roads.mss"]) :
    ∃ s t : Sheet Cql.Expr, Dialect.cql.load (.withRoads (widthText "1")) p = .ok s ∧
      Dialect.cql.load (.withRoads (widthText "2")) q = .ok t ∧ s ≠ t := by
  obtain ⟨s, hs, hwidth⟩ := exists_load_of_any (.integer 1) hp (by decide +kernel)
  obtain ⟨t, ht, hwidth'⟩ := exists_load_of_any (.integer 2) hq (by decide +kernel)
  refine ⟨s, t, hs, ht, fun heq => ?_⟩
  have hwidths := hwidth.symm.trans (heq ▸ hwidth')
  exact absurd hwidths (by decide)

/-- What a watcher reports of that file. -/
def roadsModified : Change := ⟨⟨"roads.mss"⟩, .modified⟩

/-- A file that was loaded once has one stylesheet afterwards, the new version. -/
theorem forall_eq_applyChanges_roads : ∃ s t : Sheet Cql.Expr,
    Dialect.cql.load (.withRoads (widthText "1")) ⟨"roads.mss"⟩ = .ok s ∧
      Dialect.cql.load (.withRoads (widthText "2")) roadsModified.path = .ok t ∧ s ≠ t ∧
      roadsModified.kind = .modified ∧
      (∀ a ∈ [(⟨⟨"rails.mss"⟩, .removed⟩ : Change)], ¬ a.path.same roadsModified.path) ∧
      let r := (applyChanges Dialect.cql (.withRoads (widthText "2")) (({} : Resolver _).add s)
        ([] ++ roadsModified :: [⟨⟨"rails.mss"⟩, .removed⟩])).1
      t ∈ r.sheets ∧ ∀ u ∈ r.sheets, u.isFrom roadsModified.path → u = t := by
  obtain ⟨s, t, hs, ht, hne⟩ := exists_versions (p := ⟨"roads.mss"⟩) (q := roadsModified.path) rfl rfl
  have hlast : ∀ a ∈ [(⟨⟨"rails.mss"⟩, .removed⟩ : Change)], ¬ a.path.same roadsModified.path := by
    decide +kernel
  obtain ⟨hmem, hiff⟩ := forall_eq_applyChanges_iff Dialect.cql (.withRoads (widthText "2"))
    (({} : Resolver _).add s) [] rfl ht hlast
  have htail : (({} : Resolver _).add s).sheetsFrom roadsModified.path = [s] :=
    List.filter_eq_self.mpr (List.forall_mem_singleton.mpr (Dialect.isFrom_of_load hs))
  refine ⟨s, t, hs, ht, hne, rfl, hlast, hmem, hiff.mpr (.inr fun u hu => ?_)⟩
  rw [htail] at hu
  exact absurd hu List.not_mem_nil

/-- A file that was loaded twice keeps its older version, above the new one. -/
theorem exists_stale_applyChanges : ∃ s t : Sheet Cql.Expr,
    Dialect.cql.load (.withRoads (widthText "1")) ⟨"roads.mss"⟩ = .ok s ∧
      Dialect.cql.load (.withRoads (widthText "2")) roadsModified.path = .ok t ∧ s ≠ t ∧
      s.isFrom roadsModified.path ∧
      (applyChanges Dialect.cql (.withRoads (widthText "2")) ((({} : Resolver _).add s).add s)
        [roadsModified]).1.sheets = [t, s] := by
  obtain ⟨s, t, hs, ht, hne⟩ := exists_versions (p := ⟨"roads.mss"⟩) (q := roadsModified.path) rfl rfl
  have hfrom : s.isFrom roadsModified.path := Dialect.isFrom_of_load hs
  have hsheets : ((({} : Resolver _).add s).add s).sheets = [] ++ s :: [s] := rfl
  refine ⟨s, t, hs, ht, hne, hfrom, ?_⟩
  rw [applyChanges, List.foldl_cons, List.foldl_nil, applyChange_of_load rfl ht]
  exact replace_of_first hsheets (fun _ h => absurd h List.not_mem_nil) hfrom

end Resolver

end MapStyle
