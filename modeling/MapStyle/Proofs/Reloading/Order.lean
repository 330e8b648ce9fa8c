import MapStyle.Proofs.Reloading.Effects
import MapStyle.Proofs.Reloading.Versions

/-!
# The order of changes

Changes of different files can be followed in any order, as long as no file comes on top that was not loaded
before: new versions go into slots that no other change looks at, and removing stylesheets keeps the order of
the others.
-/

namespace MapStyle

variable {P : Type}

namespace Path

variable {p q : Path}

lemma same_comm : p.same q ↔ q.same p := by
  rw [same_iff, same_iff, eq_comm]

end Path

namespace Resolver

variable {d : Dialect P} {fs : FileSystem} {p q : Path} {s t : Sheet P} {c c' : Change}

/-! ### Stylesheets in slots -/

/-- Puts a stylesheet in the place of the first one that was loaded from a path, if there is one. -/
def renew (p : Path) (s : Sheet P) : List (Sheet P) → List (Sheet P)
  | [] => []
  | t :: ts => if t.isFrom p then s :: ts else t :: renew p s ts

/-- Where a path has a stylesheet, replacing renews the first one. -/
lemma replaceFirst_eq_renew {ts : List (Sheet P)} (hts : ∃ t ∈ ts, t.isFrom p) :
    replaceFirst p s ts = some (renew p s ts) := by
  induction ts with
  | nil => simp at hts
  | cons t ts ih =>
    rw [replaceFirst, renew]
    by_cases ht : t.isFrom p
    · rw [if_pos ht, if_pos ht]
    · have hrest : ∃ u ∈ ts, u.isFrom p := by simpa [ht] using hts
      rw [if_neg ht, if_neg ht, ih hrest, Option.map_some]

/-- New versions of different files come into different slots. -/
lemma renew_comm (hne : ¬ p.same q) (hs : s.isFrom p) (ht : t.isFrom q) (ts : List (Sheet P)) :
    renew q t (renew p s ts) = renew p s (renew q t ts) := by
  have hsq : ¬ s.isFrom q := fun h => hne (Sheet.same_of_isFrom hs h)
  have htp : ¬ t.isFrom p := fun h => hne (Sheet.same_of_isFrom h ht)
  induction ts with
  | nil => rfl
  | cons u ts ih =>
    by_cases hup : u.isFrom p
    · have huq : ¬ u.isFrom q := fun h => hne (Sheet.same_of_isFrom hup h)
      simp only [renew, hup, huq, hsq, if_true, if_false, Bool.false_eq_true]
    · by_cases huq : u.isFrom q
      · simp only [renew, hup, huq, htp, if_true, if_false, Bool.false_eq_true]
      · simp only [renew, hup, huq, if_false, Bool.false_eq_true, ih]

/-- A new version comes into the same slot whether or not stylesheets from another path are removed. -/
lemma filter_renew (hne : ¬ p.same q) (hs : s.isFrom p) (ts : List (Sheet P)) :
    (renew p s ts).filter (fun u => !u.isFrom q) = renew p s (ts.filter fun u => !u.isFrom q) := by
  have hsq : ¬ s.isFrom q := fun h => hne (Sheet.same_of_isFrom hs h)
  induction ts with
  | nil => rfl
  | cons u ts ih =>
    by_cases hup : u.isFrom p
    · have huq : ¬ u.isFrom q := fun h => hne (Sheet.same_of_isFrom hup h)
      simp [renew, hup, huq, hsq]
    · by_cases huq : u.isFrom q
      · simp [renew, hup, huq, ih]
      · simp [renew, hup, huq, ih]

/-! ### Changes that add nothing -/

/-- What a change makes of stylesheets if it puts none on top. -/
def edit (d : Dialect P) (fs : FileSystem) (ts : List (Sheet P)) (c : Change) : List (Sheet P) :=
  match c.kind with
  | .removed => ts.filter fun t => !t.isFrom c.path
  | .modified =>
    match d.load fs c.path with
    | .ok s => renew c.path s ts
    | .error _ => ts

/-- Changes of different files do not depend on each other. -/
lemma edit_comm (hne : ¬ c.path.same c'.path) (ts : List (Sheet P)) :
    edit d fs (edit d fs ts c) c' = edit d fs (edit d fs ts c') c := by
  have hne' : ¬ c'.path.same c.path := fun h => hne (Path.same_comm.mp h)
  unfold edit
  cases c.kind with
  | removed =>
    cases c'.kind with
    | removed => exact List.filter_comm ..
    | modified =>
      cases hload : d.load fs c'.path with
      | error e => rfl
      | ok t => exact (filter_renew hne' (Dialect.isFrom_of_load hload) ts).symm
  | modified =>
    cases hload : d.load fs c.path with
    | error e => rfl
    | ok s =>
      have hs : s.isFrom c.path := Dialect.isFrom_of_load hload
      cases c'.kind with
      | removed => exact filter_renew hne hs ts
      | modified =>
        cases hload' : d.load fs c'.path with
        | error e => rfl
        | ok t => exact renew_comm hne hs (Dialect.isFrom_of_load hload') ts

/-- A change adds nothing to a resolver if its file cannot be loaded or is loaded already. -/
def Keeps (d : Dialect P) (fs : FileSystem) (r : Resolver P) (c : Change) : Prop :=
  c.kind = .modified → d.Fails fs c.path ∨ ∃ t ∈ r.sheets, t.isFrom c.path

lemma Keeps.sheets_applyChange {state : Resolver P × Nat} (h : Keeps d fs state.1 c) :
    (applyChange d fs state c).1.sheets = edit d fs state.1.sheets c := by
  rw [edit]
  cases hkind : c.kind with
  | removed =>
    rw [applyChange, hkind]
    rfl
  | modified =>
    cases hload : d.load fs c.path with
    | error e => rw [applyChange_of_fails hkind (Dialect.fails_iff.mpr ⟨e, hload⟩)]
    | ok s =>
      have hloads : ¬ d.Fails fs c.path := by
        rw [Dialect.fails_iff, hload]
        rintro ⟨e, ⟨⟩⟩
      rw [applyChange_of_load hkind hload, replace,
        replaceFirst_eq_renew ((h hkind).resolve_left hloads)]

/-- Changes of other files take no file away. -/
lemma Keeps.behind {state : Resolver P × Nat} (h : Keeps d fs state.1 c')
    (hne : ¬ c.path.same c'.path) : Keeps d fs (applyChange d fs state c).1 c' := by
  have hsheets : (applyChange d fs state c).1.sheetsFrom c'.path =
      state.1.sheetsFrom c'.path := by
    rw [sheetsFrom_applyChange, if_neg hne]
  intro hkind
  refine (h hkind).imp_right fun ⟨t, ht, hfrom⟩ => ?_
  have hmem : t ∈ state.1.sheetsFrom c'.path := List.mem_filter.mpr ⟨ht, hfrom⟩
  rw [← hsheets] at hmem
  exact ⟨t, List.mem_filter.mp hmem⟩

/-- Changes of different files that add nothing are edits, one after another. -/
lemma sheets_foldl_applyChange {cs : List Change} (state : Resolver P × Nat)
    (hdistinct : cs.Pairwise fun c c' => ¬ c.path.same c'.path) (hkeeps : ∀ c ∈ cs, Keeps d fs state.1 c) :
    (cs.foldl (applyChange d fs) state).1.sheets = cs.foldl (edit d fs) state.1.sheets := by
  induction cs generalizing state with
  | nil => rfl
  | cons c cs ih =>
    rw [List.pairwise_cons] at hdistinct
    rw [List.forall_mem_cons] at hkeeps
    have hlater : ∀ c' ∈ cs, Keeps d fs (applyChange d fs state c).1 c' :=
      fun c' hc' => (hkeeps.2 c' hc').behind (hdistinct.1 c' hc')
    rw [List.foldl_cons, List.foldl_cons, ih _ hdistinct.2 hlater, hkeeps.1.sheets_applyChange]

/-- Changes of different files, none of which adds a stylesheet, can be followed in any order: the resolver
holds the same stylesheets in the same order, and as many were loaded again. -/
theorem applyChanges_perm {r : Resolver P} {cs cs' : List Change} (hperm : cs.Perm cs')
    (hdistinct : cs.Pairwise fun c c' => ¬ c.path.same c'.path)
    (hkeeps : ∀ c ∈ cs, c.kind = .modified → d.Fails fs c.path ∨ ∃ t ∈ r.sheets, t.isFrom c.path) :
    applyChanges d fs r cs' = applyChanges d fs r cs := by
  have hsymm : Std.Symm fun c c' : Change => ¬ c.path.same c'.path :=
    ⟨fun c c' h h' => h (Path.same_comm.mp h')⟩
  have hcomm : ∀ c ∈ cs, ∀ c' ∈ cs, ∀ ts, edit d fs (edit d fs ts c) c' = edit d fs (edit d fs ts c') c := by
    intro c hc c' hc' ts
    by_cases h : c = c'
    · rw [h]
    · exact edit_comm (hdistinct.forall hc hc' h) ts
  have hdistinct' : cs'.Pairwise fun c c' => ¬ c.path.same c'.path :=
    (hperm.pairwise_iff fun h => hsymm.symm _ _ h).mp hdistinct
  have hkeeps' : ∀ c ∈ cs', Keeps d fs r c := fun c hc => hkeeps c (hperm.mem_iff.mpr hc)
  refine Prod.ext (congrArg Resolver.mk ?_) ?_
  · calc
      (applyChanges d fs r cs').1.sheets
      _ = cs'.foldl (edit d fs) r.sheets := sheets_foldl_applyChange (r, 0) hdistinct' hkeeps'
      _ = cs.foldl (edit d fs) r.sheets := (hperm.foldl_eq' hcomm _).symm
      _ = (applyChanges d fs r cs).1.sheets := (sheets_foldl_applyChange (r, 0) hdistinct hkeeps).symm
  · rw [applyChanges_snd, applyChanges_snd, hperm.countP_eq]

/-- A file that was loaded twice was modified, another one was removed, and a third one is missing. -/
def roadworks : List Change :=
  [roadsModified, ⟨⟨"rails.mss"⟩, .removed⟩, ⟨⟨"tunnels.mss"⟩, .modified⟩]

/-- In whatever order these changes are followed, the resolver ends up the same: the modified file takes the
place of the first of its two stylesheets, and the missing one changes nothing. -/
theorem applyChanges_perm_roadworks : ∃ s : Sheet Cql.Expr,
    Dialect.cql.load (.withRoads (widthText "1")) ⟨"roads.mss"⟩ = .ok s ∧
      let r : Resolver Cql.Expr := ⟨[s, { path := some ⟨"rails.mss"⟩ }, s]⟩
      roadworks.Perm roadworks.reverse ∧ (roadworks.Pairwise fun c c' => ¬ c.path.same c'.path) ∧
      (∀ c ∈ roadworks, c.kind = .modified →
        Dialect.cql.Fails (.withRoads (widthText "2")) c.path ∨ ∃ t ∈ r.sheets, t.isFrom c.path) ∧
      applyChanges Dialect.cql (.withRoads (widthText "2")) r roadworks.reverse =
        applyChanges Dialect.cql (.withRoads (widthText "2")) r roadworks := by
  obtain ⟨s, t, hs, -, -⟩ := exists_versions (p := ⟨"roads.mss"⟩) (q := roadsModified.path) rfl rfl
  have hperm : roadworks.Perm roadworks.reverse := (List.reverse_perm _).symm
  have hdistinct : roadworks.Pairwise fun c c' => ¬ c.path.same c'.path := by decide +kernel
  have hkeeps : ∀ c ∈ roadworks, c.kind = .modified →
      Dialect.cql.Fails (.withRoads (widthText "2")) c.path ∨
        ∃ t ∈ [s, { path := some ⟨"rails.mss"⟩ }, s], t.isFrom c.path := by
    simp only [roadworks, List.forall_mem_cons]
    refine ⟨fun _ => .inr ⟨s, List.mem_cons_self, Dialect.isFrom_of_load hs⟩, fun h => ?_, fun _ => ?_, ?_⟩
    · cases h
    · exact .inl (.missing rfl)
    · exact List.forall_mem_nil _
  exact ⟨s, hs, hperm, hdistinct, hkeeps, applyChanges_perm hperm hdistinct hkeeps⟩

end Resolver

end MapStyle
