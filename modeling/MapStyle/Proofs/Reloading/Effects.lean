import Mathlib.Data.List.Forall2
import Mathlib.Data.List.Induction
import MapStyle.Proofs.Reloading.Replacement

/-!
# Effects of changes

A single change does one of four things to the stylesheets of a resolver: it takes away those from its path,
leaves all as they are, puts a new version in the place of an old one, or puts a stylesheet on top. So a list
of changes never touches the stylesheets from other paths, and whatever stays keeps its place among the others.
-/

namespace MapStyle

variable {P : Type}

/-! ### Files that can be loaded -/

namespace Dialect

/-- Whether there is a file at a path that can be read and parsed. -/
def canLoad (d : Dialect P) (fs : FileSystem) (p : Path) : Bool :=
  (fs.readText? p).any fun text => (d.parse text).isOk

/-- Why there is no stylesheet at a path: the file is missing, its contents are not UTF-8, or its text is
not a stylesheet. -/
inductive Fails (d : Dialect P) (fs : FileSystem) (p : Path) : Prop where
  | missing (hread : fs.read? p = none)
  | notText {contents : ByteArray} (hread : fs.read? p = some contents)
      (htext : String.fromUTF8? contents = none)
  | notSheet {text : String} {e : Error} (htext : fs.readText? p = some text)
      (hparse : d.parse text = .error e)

variable {d : Dialect P} {fs : FileSystem} {p : Path}

lemma load_of_parse_error {text : String} {e : Error} (htext : fs.readText? p = some text)
    (hparse : d.parse text = .error e) : d.load fs p = .error e := by
  rw [load, htext]
  simp only [hparse]
  rfl

lemma canLoad_iff : d.canLoad fs p ↔ ∃ s, d.load fs p = .ok s := by
  cases htext : fs.readText? p with
  | none => simp [canLoad, load, htext]
  | some text =>
    cases hparse : d.parse text with
    | error e => simp [canLoad, htext, hparse, load_of_parse_error htext hparse, Except.isOk, Except.toBool]
    | ok parsed => simp [canLoad, htext, hparse, load_of_readText? htext hparse, Except.isOk, Except.toBool]

/-- A path fails just if loading from it gives an error. -/
lemma fails_iff : d.Fails fs p ↔ ∃ e, d.load fs p = .error e := by
  constructor
  · rintro (hread | ⟨hread, htext⟩ | ⟨htext, hparse⟩)
    · exact ⟨_, by rw [load, FileSystem.readText?, hread, Option.bind_none]⟩
    · exact ⟨_, by rw [load, FileSystem.readText?, hread, Option.bind_some, htext]⟩
    · exact ⟨_, load_of_parse_error htext hparse⟩
  · rintro ⟨e, hload⟩
    cases htext : fs.readText? p with
    | none =>
      rw [FileSystem.readText?] at htext
      cases hread : fs.read? p with
      | none => exact .missing hread
      | some contents =>
        rw [hread, Option.bind_some] at htext
        exact .notText hread htext
    | some text =>
      cases hparse : d.parse text with
      | error e => exact .notSheet htext hparse
      | ok parsed =>
        rw [load_of_readText? htext hparse] at hload
        cases hload

end Dialect

/-- Whether a change is that of a modified file that can be loaded. -/
def Change.reloads (d : Dialect P) (fs : FileSystem) (c : Change) : Bool :=
  c.kind = .modified && d.canLoad fs c.path

lemma Change.reloads_iff {d : Dialect P} {fs : FileSystem} {c : Change} :
    c.reloads d fs ↔ c.kind = .modified ∧ ∃ s, d.load fs c.path = .ok s := by
  rw [reloads, Bool.and_eq_true, decide_eq_true_iff, Dialect.canLoad_iff]

/-- Whether a stylesheet is from the path of one of the changes. -/
def Sheet.isTouched (cs : List Change) (s : Sheet P) : Bool :=
  cs.any fun c => s.isFrom c.path

/-- A stylesheet is the same as another one, or a version that one of the changes has put in its place. -/
def Sheet.Succeeds (d : Dialect P) (fs : FileSystem) (cs : List Change) (new old : Sheet P) : Prop :=
  new = old ∨ ∃ c ∈ cs, c.kind = .modified ∧ d.load fs c.path = .ok new ∧ old.isFrom c.path

namespace Sheet

variable {d : Dialect P} {fs : FileSystem} {cs : List Change} {s t u : Sheet P} {p : Path}

/-- A new version is from the same path as the old one. -/
lemma Succeeds.isFrom_iff (h : Succeeds d fs cs s t) : s.isFrom p ↔ t.isFrom p := by
  rcases h with rfl | ⟨c, -, -, hload, ht⟩
  · rfl
  · have hs : s.isFrom c.path := Dialect.isFrom_of_load hload
    constructor
    · intro hp
      rwa [← isFrom_congr (same_of_isFrom hs hp)]
    · intro hp
      rwa [← isFrom_congr (same_of_isFrom ht hp)]

lemma Succeeds.trans (hst : Succeeds d fs cs s t) (htu : Succeeds d fs cs t u) : Succeeds d fs cs s u := by
  rcases hst with rfl | ⟨c, hc, hkind, hload, ht⟩
  · exact htu
  · exact .inr ⟨c, hc, hkind, hload, htu.isFrom_iff.mp ht⟩

instance : Std.Refl (Succeeds d fs cs) := ⟨fun _ => .inl rfl⟩

instance : IsTrans (Sheet P) (Succeeds d fs cs) := ⟨fun _ _ _ => Succeeds.trans⟩

end Sheet

/-! ### Stylesheets in their order -/

section SublistForall₂

variable {α β : Type} {R : α → β → Prop} {as : List α} {bs bs' : List β}

/-- What is picked from two lists behind each other is picked from the first and then from the second. -/
lemma exists_append_of_sublistForall₂ (h : List.SublistForall₂ R as (bs ++ bs')) :
    ∃ as' as'', as = as' ++ as'' ∧ List.SublistForall₂ R as' bs ∧ List.SublistForall₂ R as'' bs' := by
  induction bs generalizing as with
  | nil => exact ⟨[], as, rfl, .nil, h⟩
  | cons b bs ih =>
    cases h with
    | nil => exact ⟨[], [], rfl, .nil, .nil⟩
    | cons hab h =>
      obtain ⟨as', as'', rfl, h', h''⟩ := ih h
      exact ⟨_ :: as', as'', rfl, .cons hab h', h''⟩
    | cons_right h =>
      obtain ⟨as', as'', rfl, h', h''⟩ := ih h
      exact ⟨as', as'', rfl, .cons_right h', h''⟩

lemma exists_mem_of_sublistForall₂ (h : List.SublistForall₂ R as bs) {a : α} (ha : a ∈ as) :
    ∃ b ∈ bs, R a b := by
  induction h with
  | nil => cases ha
  | cons hab h ih =>
    obtain rfl | ha := List.mem_cons.mp ha
    · exact ⟨_, List.mem_cons_self, hab⟩
    · obtain ⟨b, hb, hR⟩ := ih ha
      exact ⟨b, List.mem_cons_of_mem _ hb, hR⟩
  | cons_right h ih =>
    obtain ⟨b, hb, hR⟩ := ih ha
    exact ⟨b, List.mem_cons_of_mem _ hb, hR⟩

end SublistForall₂

namespace Resolver

/-! ### One change -/

/-- What one change makes of the stylesheets of a resolver. -/
inductive Effect (d : Dialect P) (fs : FileSystem) (c : Change) (ts : List (Sheet P)) :
    List (Sheet P) → Prop where
  /-- The stylesheets from a removed file are taken away. -/
  | removed (hkind : c.kind = .removed) : Effect d fs c ts (ts.filter fun t => !t.isFrom c.path)
  /-- A file that cannot be loaded changes nothing. -/
  | failed (hkind : c.kind = .modified) (hfails : d.Fails fs c.path) : Effect d fs c ts ts
  /-- A new version comes into the slot of the first stylesheet from its path. -/
  | replaced {front back : List (Sheet P)} {s t : Sheet P} (hkind : c.kind = .modified)
      (hload : d.load fs c.path = .ok s) (hts : ts = front ++ t :: back)
      (hfront : ∀ u ∈ front, ¬ u.isFrom c.path) (ht : t.isFrom c.path) :
      Effect d fs c ts (front ++ s :: back)
  /-- Only where none is from its path, a stylesheet comes on top. -/
  | added {s : Sheet P} (hkind : c.kind = .modified) (hload : d.load fs c.path = .ok s)
      (hnone : ∀ t ∈ ts, ¬ t.isFrom c.path) : Effect d fs c ts (ts ++ [s])

variable {d : Dialect P} {fs : FileSystem} {c : Change} {cs : List Change} {ts us : List (Sheet P)}

lemma applyChange_of_fails {state : Resolver P × Nat} (hkind : c.kind = .modified)
    (hfails : d.Fails fs c.path) : applyChange d fs state c = state := by
  obtain ⟨e, hload⟩ := Dialect.fails_iff.mp hfails
  rw [applyChange, hkind]
  simp only [hload]

/-- A change has one of the four effects. -/
lemma effect_applyChange (d : Dialect P) (fs : FileSystem) (state : Resolver P × Nat) (c : Change) :
    Effect d fs c state.1.sheets (applyChange d fs state c).1.sheets := by
  cases hkind : c.kind with
  | removed =>
    rw [applyChange, hkind]
    exact .removed hkind
  | modified =>
    cases hload : d.load fs c.path with
    | error e =>
      have hfails : d.Fails fs c.path := Dialect.fails_iff.mpr ⟨e, hload⟩
      rw [applyChange_of_fails hkind hfails]
      exact .failed hkind hfails
    | ok s =>
      rw [applyChange_of_load hkind hload]
      obtain ⟨front, t, back, hts, hfront, ht⟩ | hnone := exists_first_or_forall_not c.path state.1.sheets
      · rw [replace_of_first hts hfront ht]
        exact .replaced hkind hload hts hfront ht
      · rw [replace_of_forall_not hnone]
        exact .added hkind hload hnone

lemma applyChange_snd (d : Dialect P) (fs : FileSystem) (state : Resolver P × Nat) (c : Change) :
    (applyChange d fs state c).2 = state.2 + if c.reloads d fs then 1 else 0 := by
  by_cases h : c.reloads d fs
  · obtain ⟨hkind, s, hload⟩ := Change.reloads_iff.mp h
    rw [applyChange_of_load hkind hload, if_pos h]
  · rw [if_neg h, applyChange]
    cases hkind : c.kind with
    | removed => rfl
    | modified =>
      cases hload : d.load fs c.path with
      | error e => rfl
      | ok s => exact absurd (Change.reloads_iff.mpr ⟨hkind, s, hload⟩) h

namespace Effect

/-- Stylesheets from other paths are the same as before, in the same order. -/
lemma filter_eq (h : Effect d fs c ts us) {f : Sheet P → Bool} (hf : ∀ t, f t → ¬ t.isFrom c.path) :
    us.filter f = ts.filter f := by
  -- whatever a change takes away or brings in is from its own path, so the filter drops it
  have hnot {t : Sheet P} (ht : t.isFrom c.path) : ¬ f t := fun hft => hf t hft ht
  cases h with
  | removed hkind =>
    rw [List.filter_filter]
    refine List.filter_congr fun t _ => ?_
    by_cases ht : t.isFrom c.path
    · rw [Bool.eq_false_iff.mpr (hnot ht), Bool.false_and]
    · rw [Bool.eq_false_iff.mpr ht, Bool.not_false, Bool.and_true]
  | failed => rfl
  | replaced hkind hload hts hfront ht =>
    rw [hts, List.filter_append, List.filter_append, List.filter_cons_of_neg (hnot ht),
      List.filter_cons_of_neg (hnot (Dialect.isFrom_of_load hload))]
  | added hkind hload hnone =>
    rw [List.filter_append, List.filter_singleton, Bool.eq_false_iff.mpr (hnot (Dialect.isFrom_of_load hload))]
    exact List.append_nil _

/-- What stays keeps its place, and at most one stylesheet comes on top. -/
lemma succeeds (h : Effect d fs c ts us) (hc : c ∈ cs) :
    List.SublistForall₂ (Sheet.Succeeds d fs cs) us ts ∨
      ∃ s, us = ts ++ [s] ∧ c.reloads d fs ∧ s.isFrom c.path ∧ ∀ t ∈ ts, ¬ t.isFrom c.path := by
  cases h with
  | removed => exact .inl List.filter_sublist.sublistForall₂
  | failed => exact .inl (List.Sublist.refl ts).sublistForall₂
  | replaced hkind hload hts hfront ht =>
    subst hts
    refine .inl (List.sublistForall₂_iff.mpr ⟨_, ?_, List.Sublist.refl _⟩)
    refine List.rel_append (List.forall₂_refl _) (.cons ?_ (List.forall₂_refl _))
    exact .inr ⟨c, hc, hkind, hload, ht⟩
  | added hkind hload hnone =>
    exact .inr ⟨_, rfl, Change.reloads_iff.mpr ⟨hkind, _, hload⟩, Dialect.isFrom_of_load hload, hnone⟩

end Effect

/-! ### Lists of changes -/

lemma applyChanges_concat (d : Dialect P) (fs : FileSystem) (r : Resolver P) (cs : List Change) (c : Change) :
    applyChanges d fs r (cs ++ [c]) = applyChange d fs (applyChanges d fs r cs) c := by
  rw [applyChanges, List.foldl_append]
  rfl

lemma applyChanges_snd (d : Dialect P) (fs : FileSystem) (r : Resolver P) (cs : List Change) :
    (applyChanges d fs r cs).2 = cs.countP (·.reloads d fs) := by
  induction cs using List.reverseRecOn with
  | nil => rfl
  | append_singleton cs c ih =>
    rw [applyChanges_concat, applyChange_snd, ih, List.countP_append, List.countP_singleton]

lemma filter_applyChanges (d : Dialect P) (fs : FileSystem) (r : Resolver P) {f : Sheet P → Bool}
    (hf : ∀ c ∈ cs, ∀ t, f t → ¬ t.isFrom c.path) :
    (applyChanges d fs r cs).1.sheets.filter f = r.sheets.filter f := by
  induction cs using List.reverseRecOn with
  | nil => rfl
  | append_singleton cs c ih =>
    rw [List.forall_mem_append, List.forall_mem_singleton] at hf
    rw [applyChanges_concat, (effect_applyChange ..).filter_eq hf.2, ih hf.1]

/-- A change that fails can be left out. -/
lemma applyChanges_of_fails (r : Resolver P) (before after : List Change) (hkind : c.kind = .modified)
    (hfails : d.Fails fs c.path) :
    applyChanges d fs r (before ++ c :: after) = applyChanges d fs r (before ++ after) := by
  simp only [applyChanges, List.foldl_append, List.foldl_cons, applyChange_of_fails hkind hfails]

/-- One of the changes loads a stylesheet from the path of a given one while the resolver has none from
there. -/
def Adds (d : Dialect P) (fs : FileSystem) (r : Resolver P) (cs : List Change) (s : Sheet P) : Prop :=
  ∃ before c after, cs = before ++ c :: after ∧ c.reloads d fs ∧ s.isFrom c.path ∧
    ∀ t ∈ (applyChanges d fs r before).1.sheets, ¬ t.isFrom c.path

lemma Adds.append {r : Resolver P} {s : Sheet P} (h : Adds d fs r cs s) (cs' : List Change) :
    Adds d fs r (cs ++ cs') s := by
  obtain ⟨before, c, after, rfl, hchange⟩ := h
  exact ⟨before, c, after ++ cs', List.append_assoc .., hchange⟩

lemma Adds.of_succeeds {r : Resolver P} {ds : List Change} {s t : Sheet P} (h : Adds d fs r ds t)
    (hst : s.Succeeds d fs cs t) : Adds d fs r ds s := by
  obtain ⟨before, c, after, hds, hreloads, ht, hnone⟩ := h
  exact ⟨before, c, after, hds, hreloads, hst.isFrom_iff.mpr ht, hnone⟩

/-- The stylesheets behind some of the changes are those that were there before, or their new versions, in
their old order, and above them those that were added. -/
lemma exists_kept_applyChanges (r : Resolver P) {ds : List Change} (hds : ds ⊆ cs) :
    ∃ kept added, (applyChanges d fs r ds).1.sheets = kept ++ added ∧
      List.SublistForall₂ (Sheet.Succeeds d fs cs) kept r.sheets ∧ ∀ s ∈ added, Adds d fs r ds s := by
  induction ds using List.reverseRecOn with
  | nil =>
    exact ⟨r.sheets, [], (List.append_nil _).symm, (List.Sublist.refl _).sublistForall₂,
      List.forall_mem_nil _⟩
  | append_singleton ds c ih =>
    obtain ⟨hds, hc⟩ := List.append_subset.mp hds
    obtain ⟨kept, added, hsheets, hkept, hadded⟩ := ih hds
    rw [applyChanges_concat]
    obtain hsub | ⟨s, hus, hreloads, hs, hnone⟩ :=
      (effect_applyChange d fs (applyChanges d fs r ds) c).succeeds (hc (List.mem_singleton_self c))
    · rw [hsheets] at hsub
      obtain ⟨kept', added', hus, hkept', hadded'⟩ := exists_append_of_sublistForall₂ hsub
      refine ⟨kept', added', hus, IsTrans.trans _ _ _ hkept' hkept, fun s hs => ?_⟩
      -- a stylesheet that was added may have been renewed since, but its path is still the same
      obtain ⟨t, ht, hst⟩ := exists_mem_of_sublistForall₂ hadded' hs
      exact ((hadded t ht).of_succeeds hst).append [c]
    · refine ⟨kept, added ++ [s], by rw [hus, hsheets, List.append_assoc], hkept, ?_⟩
      rw [List.forall_mem_append, List.forall_mem_singleton]
      exact ⟨fun t ht => (hadded t ht).append [c], ds, c, [], rfl, hreloads, hs, hnone⟩

/-- A list of changes leaves the stylesheets from all other paths as they are. It counts the modified files
that can be loaded; those that cannot have no effect at all. Each change has one of four effects, and behind
all of them the stylesheets that are left, or their new versions, are in their old order, with nothing above
them but what was loaded from paths that had no stylesheet at that point. -/
theorem applyChanges_frame (d : Dialect P) (fs : FileSystem) (r : Resolver P) (cs : List Change) :
    (applyChanges d fs r cs).1.sheets.filter (fun s => !s.isTouched cs) =
        r.sheets.filter (fun s => !s.isTouched cs) ∧
      (applyChanges d fs r cs).2 = cs.countP (·.reloads d fs) ∧
      (∃ kept added, (applyChanges d fs r cs).1.sheets = kept ++ added ∧
        List.SublistForall₂ (Sheet.Succeeds d fs cs) kept r.sheets ∧ ∀ s ∈ added, Adds d fs r cs s) ∧
      ∀ before c after, cs = before ++ c :: after →
        Effect d fs c (applyChanges d fs r before).1.sheets (applyChanges d fs r (before ++ [c])).1.sheets ∧
        (c.kind = .modified → d.Fails fs c.path →
          applyChanges d fs r cs = applyChanges d fs r (before ++ after)) := by
  refine ⟨filter_applyChanges d fs r fun c hc t ht hfrom => ?_, applyChanges_snd d fs r cs,
    exists_kept_applyChanges r (List.Subset.refl cs), ?_⟩
  · rw [Bool.not_eq_true', Sheet.isTouched, List.any_eq_false] at ht
    exact ht c hc hfrom
  · rintro before c after rfl
    refine ⟨?_, applyChanges_of_fails r before after⟩
    rw [applyChanges_concat]
    exact effect_applyChange d fs _ c

end Resolver

end MapStyle
