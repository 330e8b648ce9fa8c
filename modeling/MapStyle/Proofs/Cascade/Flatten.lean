import Mathlib.Data.List.Basic
import Mathlib.Data.List.Forall2
import Mathlib.Data.List.Induction
import MapStyle.Proofs.Evaluation.Presence
import MapStyle.Proofs.Selector.Choice
import MapStyle.Proofs.Selector.Titles
import MapStyle.Proofs.Cascade.Passes

/-!
# Flattening by paths

Flattening visits a tree of rules with a stack. This module says what comes out without the stack:
each path from the root to a rule of the tree gives at most one flat rule, in document order, and
its selectors and properties are those of the path as a whole.
-/

namespace MapStyle.Rule

open Selector

variable {P : Type}

/-! ### Paths of a tree -/

mutual

/-- The ways from a rule down to the rules that it contains, without the rule itself. -/
def trails : Rule P → List (List (Rule P))
  | ⟨_, _, _, _, nested⟩ => [] :: trailsList nested

/-- The ways into the rules of a list. -/
def trailsList : List (Rule P) → List (List (Rule P))
  | [] => []
  | r :: rs => (trails r).map (r :: ·) ++ trailsList rs

end

/-- The paths from a rule to itself and to the rules that it contains, in document order. -/
def paths (r : Rule P) : List (List (Rule P)) :=
  r.trails.map (r :: ·)

lemma trailsList_eq (rs : List (Rule P)) : trailsList rs = rs.flatMap paths := by
  induction rs with
  | nil => rfl
  | cons r rs ih => rw [trailsList, ih, List.flatMap_cons, paths]

lemma trails_eq (r : Rule P) : r.trails = [] :: r.nested.flatMap paths := by
  obtain ⟨_, _, _, _, nested⟩ := r
  rw [trails, trailsList_eq]

lemma ne_nil_of_mem_paths {r : Rule P} {path : List (Rule P)} (h : path ∈ r.paths) : path ≠ [] := by
  obtain ⟨trail, _, rfl⟩ := List.mem_map.mp h
  exact List.cons_ne_nil r trail

/-- Whether the last rule of a path gives a flat rule of its own. -/
def endsGiving (path : List (Rule P)) : Bool :=
  path.getLast?.any isGiving

@[simp] lemma endsGiving_singleton (r : Rule P) : endsGiving [r] = r.isGiving := rfl

@[simp] lemma endsGiving_cons_cons (q r : Rule P) (rest : List (Rule P)) :
    endsGiving (q :: r :: rest) = endsGiving (r :: rest) := by
  rw [endsGiving, endsGiving, List.getLast?_cons_cons]

/-! ### From the stack to the paths -/

lemma pushNested_eq (path : Rule P) (nested : List (Rule P)) (pending : List (Rule P × Rule P)) :
    pushNested path nested pending =
      (nested.filterMap fun child => (path.descend child).map (child, ·)) ++ pending := by
  rw [pushNested, List.foldl_reverse]
  induction nested with
  | nil => rfl
  | cons child nested ih =>
    rw [List.foldr_cons, ih, List.filterMap_cons]
    cases path.descend child <;> rfl

/-- The flat rules that come out of one entry of the stack, path by path. -/
def flatBelow (entry : Rule P × Rule P) : List (Rule P) :=
  (entry.1.trails.filter fun trail => endsGiving (entry.1 :: trail)).filterMap fun trail =>
    trail.foldlM descend entry.2

/-- The paths into one nested rule, continued from the flat rule around it. -/
lemma filterMap_paths (node child path : Rule P) :
    ((child.paths.filter fun trail => endsGiving (node :: trail)).filterMap fun trail =>
        trail.foldlM descend path) =
      ((path.descend child).map (child, ·)).toList.flatMap flatBelow := by
  simp only [paths, List.filter_map, List.filterMap_map, Function.comp_def, List.foldlM_cons,
    endsGiving_cons_cons]
  cases path.descend child <;> simp [flatBelow]

lemma filterMap_flatMap_paths (node path : Rule P) (nested : List (Rule P)) :
    (((nested.flatMap paths).filter fun trail => endsGiving (node :: trail)).filterMap fun trail =>
        trail.foldlM descend path) =
      (nested.filterMap fun child => (path.descend child).map (child, ·)).flatMap flatBelow := by
  induction nested with
  | nil => rfl
  | cons child nested ih =>
    rw [List.flatMap_cons, List.filter_append, List.filterMap_append, filterMap_paths, ih,
      List.filterMap_cons]
    cases path.descend child <;> simp

lemma flatBelow_eq (node path : Rule P) :
    flatBelow (node, path) =
      (if node.isGiving then [path] else []) ++
        (node.nested.filterMap fun child => (path.descend child).map (child, ·)).flatMap
          flatBelow := by
  rw [← filterMap_flatMap_paths node, flatBelow, trails_eq, List.filter_cons, endsGiving_singleton]
  split <;> simp

/-- The stack is worked off entry by entry. -/
lemma flattenPending_eq (pending : List (Rule P × Rule P)) :
    flattenPending pending = pending.flatMap flatBelow := by
  induction pending using flattenPending.induct with
  | case1 => simp [flattenPending]
  | case2 node path pending ih =>
    -- what is pushed for a rule comes out before the rest of the stack, as its paths do
    rw [flattenPending, ih, pushNested_eq, List.flatMap_append, List.flatMap_cons, flatBelow_eq,
      List.append_assoc]

/-- The flat rule of a path, built step by step from the root. -/
def ofPath? (path : List (Rule P)) : Option (Rule P) :=
  path.foldlM descend (ofSelectors [])

lemma descend_bare (r : Rule P) : (ofSelectors []).descend r = some r.root := by
  simp [descend, mergeSelectors, root, ofSelectors]

/-- Flattening takes the paths of the rules that give a flat rule, in document order. -/
lemma flatten_eq (r : Rule P) : r.flatten = (r.paths.filter endsGiving).filterMap ofPath? := by
  have hroot (trail : List (Rule P)) : ofPath? (r :: trail) = trail.foldlM descend r.root := by
    rw [ofPath?, List.foldlM_cons, descend_bare]
    rfl
  rw [flatten, flattenPending_eq, List.flatMap_singleton, flatBelow, paths, List.filter_map,
    List.filterMap_map]
  exact List.filterMap_congr fun trail _ => (hroot trail).symm

/-! ### The flat rule of a path -/

/-- The selectors of the rules on a path; a rule without selectors leaves no trace. -/
def selectorLists (path : List (Rule P)) : List (List (Selector P)) :=
  (path.map (·.selectors)).filter (!·.isEmpty)

lemma mergeSelectors_nil (outer : List (Selector P)) : mergeSelectors outer [] = some outer := by
  cases outer <;> rfl

lemma mergeSelectors_mergedChoices {lists : List (List (Selector P))} (h : agreeing lists ≠ [])
    {own : List (Selector P)} (hown : own ≠ []) :
    mergeSelectors (mergedChoices lists) own =
      if agreeing (lists ++ [own]) = [] then none else some (mergedChoices (lists ++ [own])) := by
  by_cases hlists : lists = []
  · have hagree : agreeing [own] ≠ [] := by
      rwa [ne_eq, ← mergedChoices_eq_nil_iff (by simp), mergedChoices_singleton]
    simp [hlists, hagree, mergeSelectors]
  · have hmerged : mergedChoices lists ≠ [] := by
      rwa [ne_eq, mergedChoices_eq_nil_iff hlists]
    simp only [mergeSelectors, List.isEmpty_iff, if_neg hmerged, if_neg hown,
      ← mergedChoices_concat hlists, mergedChoices_eq_nil_iff (List.concat_ne_nil own lists)]

lemma selectorLists_concat (path : List (Rule P)) (q : Rule P) :
    selectorLists (path ++ [q]) =
      selectorLists path ++ if q.selectors = [] then [] else [q.selectors] := by
  rw [selectorLists, List.map_append, List.filter_append]
  by_cases h : q.selectors = [] <;> simp [selectorLists, h]

/-- The rule for the merged choices on a path, with the properties of the path. -/
def merged (path : List (Rule P)) : Rule P :=
  ofSelectors (mergedChoices (selectorLists path)) (RuleList.collapse path)

@[simp] lemma selectors_merged (path : List (Rule P)) :
    (merged path).selectors = mergedChoices (selectorLists path) := rfl

@[simp] lemma properties_merged (path : List (Rule P)) :
    (merged path).properties = RuleList.collapse path := rfl

@[simp] lemma nested_merged (path : List (Rule P)) : (merged path).nested = [] := rfl

lemma isTitled_merged (path : List (Rule P)) : (merged path).IsTitled :=
  isTitled_ofSelectors _ _ []

lemma descend_merged {path : List (Rule P)} (h : agreeing (selectorLists path) ≠ []) (q : Rule P) :
    (merged path).descend q =
      if agreeing (selectorLists (path ++ [q])) = [] then none else some (merged (path ++ [q])) := by
  rw [descend, merged, merged, selectorLists_concat, RuleList.collapse_concat]
  by_cases hq : q.selectors = []
  · rw [if_pos hq, List.append_nil, if_neg h, hq, ofSelectors, mergeSelectors_nil]
    rfl
  · rw [if_neg hq, selectors_ofSelectors, mergeSelectors_mergedChoices h hq]
    split <;> rfl

lemma agreeing_selectorLists_concat {path : List (Rule P)} (h : agreeing (selectorLists path) = [])
    (q : Rule P) : agreeing (selectorLists (path ++ [q])) = [] := by
  rw [selectorLists_concat]
  split
  · rwa [List.append_nil]
  · exact agreeing_concat_eq_nil h q.selectors

/-- A path gives a flat rule exactly if some choice of its selectors agrees. The flat rule has the
merged choices and the properties of the path. -/
lemma ofPath?_eq (path : List (Rule P)) :
    ofPath? path = if agreeing (selectorLists path) = [] then none else some (merged path) := by
  -- merging starts at the root, so the path grows at its other end
  induction path using List.reverseRecOn with
  | nil => rfl
  | append_singleton path q ih =>
    rw [ofPath?, List.foldlM_append, ← ofPath?, ih]
    by_cases h : agreeing (selectorLists path) = []
    · simp [h, agreeing_selectorLists_concat h q]
    · rw [if_neg h]
      simpa using descend_merged h q

lemma selectorLists_eq_map {path : List (Rule P)} (h : ∀ q ∈ path, q.selectors ≠ []) :
    selectorLists path = path.map (·.selectors) := by
  rw [selectorLists, List.filter_eq_self]
  intro own hown
  obtain ⟨q, hq, rfl⟩ := List.mem_map.mp hown
  simpa using h q hq

/-! ### What flattening gives -/

variable [Predicate P]

/-- The merged choices let a candidate pass exactly if some choice has no filter that does not. -/
lemma any_accepts_mergedChoices {lists : List (List (Selector P))} (h : lists ≠ []) (c : Candidate) :
    (mergedChoices lists).any (·.accepts c) ↔
      ∃ choice ∈ agreeing lists, ∀ s ∈ choice, s.accepts c := by
  have hmem (choice : List (Selector P)) (m : Selector P) :
      choice ∈ choices lists ∧ mergeAll choice = some m → choice.Pairwise Compatible :=
    fun ⟨hc, hm⟩ => (mergeAll_isSome_iff (ne_nil_of_mem_choices h hc)).mp (by simp [hm])
  simp only [List.any_eq_true, mergedChoices, List.mem_filterMap]
  constructor
  · rintro ⟨m, ⟨choice, hc, hm⟩, hacc⟩
    rw [accepts_mergeAll hm, List.all_eq_true] at hacc
    exact ⟨choice, mem_agreeing.mpr ⟨hc, hmem choice m ⟨hc, hm⟩⟩, hacc⟩
  · rintro ⟨choice, hagree, hacc⟩
    obtain ⟨hc, hpair⟩ := mem_agreeing.mp hagree
    obtain ⟨m, hm⟩ := Option.isSome_iff_exists.mp
      ((mergeAll_isSome_iff (ne_nil_of_mem_choices h hc)).mpr hpair)
    exact ⟨m, ⟨choice, hc, hm⟩, by rw [accepts_mergeAll hm, List.all_eq_true]; exact hacc⟩

/-- What the flat rule of a path is: it has one selector for each agreeing choice, the properties of
the path of which a nested rule's override those around it, and it is kept for a candidate exactly
if all filters of some agreeing choice are true. Its name and kind are those of its selectors. -/
structure IsFlatOf (path : List (Rule P)) (flat : Rule P) : Prop where
  selectors : flat.selectors.map some = (agreeing (path.map (·.selectors))).map mergeAll
  properties : flat.properties = RuleList.collapse path
  nested : flat.nested = []
  titled : flat.IsTitled
  kept : ∀ (rs : RuleList P) (c : Candidate), flat ∈ rs.matching c ↔
    flat ∈ rs ∧ ∃ choice ∈ agreeing (path.map (·.selectors)),
      ∀ s ∈ choice, ∀ f ∈ s.filter, f.evaluate c = .ok true

lemma isFlatOf_of_ofPath? {path : List (Rule P)} (hne : path ≠ []) (h : ∀ q ∈ path, q.selectors ≠ [])
    (hagree : agreeing (path.map (·.selectors)) ≠ []) :
    ∃ flat, ofPath? path = some flat ∧ IsFlatOf path flat := by
  have hlists : path.map (·.selectors) ≠ [] := by simpa using hne
  rw [ofPath?_eq, selectorLists_eq_map h, if_neg hagree]
  have hselectors : (merged path).selectors = mergedChoices (path.map (·.selectors)) := by
    rw [selectors_merged, selectorLists_eq_map h]
  refine ⟨_, rfl, hselectors ▸ map_some_mergedChoices hlists, rfl, rfl, isTitled_merged path,
    fun rs c => ?_⟩
  simp only [RuleList.matching, List.mem_filter, hselectors, any_accepts_mergedChoices hlists,
    accepts_iff]

/-- In a tree in which every rule has a selector, the flat rules are those of the paths whose last
rule gives one and on which some choice of selectors agrees, one each and in document order. -/
theorem flatten_forall₂_paths (r : Rule P) (h : ∀ path ∈ r.paths, ∀ q ∈ path, q.selectors ≠ []) :
    List.Forall₂ IsFlatOf
      ((r.paths.filter endsGiving).filter fun path => agreeing (path.map (·.selectors)) ≠ [])
      r.flatten := by
  rw [flatten_eq]
  have hpaths : ∀ path ∈ r.paths.filter endsGiving, path ≠ [] ∧ ∀ q ∈ path, q.selectors ≠ [] := by
    intro path hpath
    have hmem := List.mem_of_mem_filter hpath
    exact ⟨ne_nil_of_mem_paths hmem, h path hmem⟩
  generalize r.paths.filter endsGiving = paths at hpaths ⊢
  induction paths with
  | nil => exact .nil
  | cons path paths ih =>
    rw [List.forall_mem_cons] at hpaths
    obtain ⟨⟨hne, hselectors⟩, hpaths⟩ := hpaths
    by_cases hagree : agreeing (path.map (·.selectors)) = []
    · have hnone : ofPath? path = none := by
        rw [ofPath?_eq, selectorLists_eq_map hselectors, if_pos hagree]
      simpa [hagree, hnone] using ih hpaths
    · obtain ⟨flat, hflat, hof⟩ := isFlatOf_of_ofPath? hne hselectors hagree
      simpa [hagree, hflat] using List.Forall₂.cons hof (ih hpaths)

/-- Two selectors at the top and two nested rules: the first one narrows `#roads` down to bridges, and
the second one conflicts with both. -/
def crossings : Rule Presence :=
  ofSelectors [{ id := some "roads" }, { id := some "rails" }]
    (.ofList [("width", .literal (.integer 1))])
    [ofSelectors [{ id := some "roads", filter := some (.predicate ⟨"bridge"⟩) }]
        (.ofList [("width", .literal (.integer 2))]),
      ofSelectors [{ id := some "canals" }] (.ofList [("width", .literal (.integer 3))])]

/-- The flat rules of `crossings` are its own and that of the first rule in it. -/
theorem flatten_crossings :
    (∀ path ∈ crossings.paths, ∀ q ∈ path, q.selectors ≠ []) ∧ crossings.flatten.length = 2 := by
  have h : ∀ path ∈ crossings.paths, ∀ q ∈ path, q.selectors ≠ [] := by decide
  refine ⟨h, ?_⟩
  rw [← (flatten_forall₂_paths crossings h).length_eq]
  decide

end MapStyle.Rule
