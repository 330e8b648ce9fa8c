import Mathlib
import MapStyle.Proofs.Cascade.Flatten
import MapStyle.Proofs.Locality.Resolver

/-!
# The attributes of flattened rules

Flattening drops rules without properties, values that are overridden and rules whose selectors
conflict. It never makes an attribute up, and if no selectors conflict it loses none: a filter is
passed on to the rules inside until one of them gives a flat rule, and a rule with a value gives one
itself.
-/

namespace MapStyle

variable {P : Type}

/-! ### Choices and paths -/

namespace Selector

/-- Where no list is empty, any selector of them can be chosen. -/
lemma exists_mem_choices {lists : List (List (Selector P))} (h : ∀ own ∈ lists, own ≠ []) :
    (∃ choice, choice ∈ choices lists) ∧
      ∀ own ∈ lists, ∀ s ∈ own, ∃ choice ∈ choices lists, s ∈ choice := by
  induction lists with
  | nil => simp [choices]
  | cons first rest ih =>
    rw [List.forall_mem_cons] at h
    obtain ⟨⟨choice, hchoice⟩, hrest⟩ := ih h.2
    obtain ⟨t, ht⟩ := List.exists_mem_of_ne_nil first h.1
    have hcons {s : Selector P} {row : List (Selector P)} (hs : s ∈ first) (hrow : row ∈ choices rest) :
        s :: row ∈ choices (first :: rest) :=
      List.mem_flatMap.mpr ⟨s, hs, List.mem_map_of_mem hrow⟩
    refine ⟨⟨t :: choice, hcons ht hchoice⟩, List.forall_mem_cons.mpr ⟨fun s hs => ?_, ?_⟩⟩
    · exact ⟨s :: choice, hcons hs hchoice, List.mem_cons_self⟩
    · intro own hown s hs
      obtain ⟨row, hrow, hsrow⟩ := hrest own hown s hs
      exact ⟨t :: row, hcons ht hrow, List.mem_cons_of_mem t hsrow⟩

end Selector

namespace Rule

open Selector

/-- A path leads from each rule to one nested in it. -/
lemma mem_trails_iff {r : Rule P} {trail : List (Rule P)} :
    trail ∈ r.trails ↔ (r :: trail).IsChain fun q child => child ∈ q.nested := by
  induction trail generalizing r with
  | nil => simp [trails_eq]
  | cons child trail ih =>
    rw [List.isChain_cons_cons, ← ih, trails_eq, List.mem_cons, List.mem_flatMap]
    simp [paths]

lemma mem_paths_iff {r : Rule P} {path : List (Rule P)} :
    path ∈ r.paths ↔ path.head? = some r ∧ path.IsChain fun q child => child ∈ q.nested := by
  rw [paths, List.mem_map]
  constructor
  · rintro ⟨trail, htrail, rfl⟩
    exact ⟨rfl, mem_trails_iff.mp htrail⟩
  · rintro ⟨hhead, hchain⟩
    obtain ⟨trail, rfl⟩ := List.head?_eq_some_iff.mp hhead
    exact ⟨trail, mem_trails_iff.mpr hchain, rfl⟩

lemma cons_mem_paths {r child : Rule P} (hchild : child ∈ r.nested) {path : List (Rule P)}
    (hpath : path ∈ child.paths) : r :: path ∈ r.paths := by
  refine List.mem_map_of_mem ?_
  rw [trails_eq]
  exact List.mem_cons_of_mem _ (List.mem_flatMap.mpr ⟨child, hchild, hpath⟩)

/-- A path can be cut off behind any rule. -/
lemma append_mem_paths_iff {r q : Rule P} {front trail : List (Rule P)} :
    front ++ q :: trail ∈ r.paths ↔ front ++ [q] ∈ r.paths ∧ trail ∈ q.trails := by
  have hhead : (front ++ q :: trail).head? = (front ++ [q]).head? := by
    cases front <;> rfl
  rw [mem_paths_iff, mem_paths_iff, mem_trails_iff, List.isChain_split, hhead, and_assoc]

lemma mem_paths_of_concat {r q : Rule P} {front : List (Rule P)} (h : front ++ [q] ∈ r.paths)
    (hne : front ≠ []) : front ∈ r.paths := by
  obtain ⟨init, last, rfl⟩ := List.eq_nil_or_concat' front |>.resolve_left hne
  rw [List.append_assoc] at h
  exact (append_mem_paths_iff.mp h).1

/-- Every rule contains one that gives a flat rule, if it gives none itself. -/
lemma exists_endsGiving (r : Rule P) : ∃ trail ∈ r.trails, endsGiving (r :: trail) := by
  match r with
  | ⟨_, _, selectors, properties, []⟩ =>
    exact ⟨[], mem_trails_iff.mpr (.singleton _), by simp [isGiving]⟩
  | ⟨_, _, selectors, properties, child :: nested⟩ =>
    obtain ⟨trail, htrail, hends⟩ := exists_endsGiving child
    refine ⟨child :: trail, mem_trails_iff.mpr ?_, by rwa [endsGiving_cons_cons]⟩
    exact .cons_cons List.mem_cons_self (mem_trails_iff.mp htrail)

/-! ### Merging without conflicts -/

/-- Nowhere in the tree does a merged selector of the rules around a rule conflict with a selector of
that rule. -/
def MergesFreely (r : Rule P) : Prop :=
  ∀ path ∈ r.paths, ∀ around ∈ ofPath? path.dropLast, ∀ child ∈ path.getLast?,
    ∀ s ∈ around.selectors, ∀ t ∈ child.selectors, (s.merge t).isSome

instance (r : Rule P) : Decidable r.MergesFreely :=
  inferInstanceAs (Decidable (∀ path ∈ r.paths, ∀ around ∈ ofPath? path.dropLast,
    ∀ child ∈ path.getLast?, ∀ s ∈ around.selectors, ∀ t ∈ child.selectors, (s.merge t).isSome))

lemma MergesFreely.pairwise {r : Rule P} (h : r.MergesFreely) {path : List (Rule P)}
    (hpath : path ≠ [] → path ∈ r.paths) :
    ∀ choice ∈ choices (selectorLists path), choice.Pairwise Compatible := by
  -- a path is merged from the root on, so it is taken apart at its other end
  induction path using List.reverseRecOn with
  | nil => simp [selectorLists, choices]
  | append_singleton front q ih =>
    have hconcat : front ++ [q] ∈ r.paths := hpath (List.concat_ne_nil q front)
    have hfront := ih fun hne => mem_paths_of_concat hconcat hne
    rw [selectorLists_concat]
    split
    · rwa [List.append_nil]
    · intro choice hchoice
      rw [choices_concat, List.mem_flatMap] at hchoice
      obtain ⟨row, hrow, hs⟩ := hchoice
      obtain ⟨s, hsq, rfl⟩ := List.mem_map.mp hs
      by_cases hnil : row = []
      · rw [hnil]
        exact List.pairwise_singleton Compatible s
      · have hagree : agreeing (selectorLists front) ≠ [] :=
          List.ne_nil_of_mem (mem_agreeing.mpr ⟨hrow, hfront row hrow⟩)
        obtain ⟨m, hm⟩ := Option.isSome_iff_exists.mp
          ((mergeAll_isSome_iff hnil).mpr (hfront row hrow))
        rw [← mergeAll_isSome_iff (List.concat_ne_nil s row), mergeAll_concat hnil, hm]
        apply h _ hconcat (merged front)
        · rw [List.dropLast_concat, ofPath?_eq, if_neg hagree]
          rfl
        · rw [List.getLast?_concat]
          rfl
        · exact List.mem_filterMap.mpr ⟨row, hrow, hm⟩
        · exact hsq

end Rule

variable [Predicate P]

/-! ### The attributes of filters and selectors -/

namespace Filter

lemma fieldsList_append (fs gs : List (Filter P)) :
    fieldsList (fs ++ gs) = fieldsList fs ++ fieldsList gs := by
  induction fs with
  | nil => rfl
  | cons f fs ih => rw [List.cons_append, fieldsList, fieldsList, ih, List.append_assoc]

lemma fieldsList_conjuncts (f : Filter P) : fieldsList f.conjuncts = f.fields := by
  cases f <;> simp [conjuncts, fields, fieldsList]

lemma fields_and (f g : Filter P) : (f.and g).fields = f.fields ++ g.fields := by
  rw [Filter.and, fields, fieldsList_append, fieldsList_conjuncts, fieldsList_conjuncts]

end Filter

namespace Selector

lemma fields_merge {s t m : Selector P} (h : s.merge t = some m) : m.fields = s.fields ++ t.fields := by
  have hm := merges_of_merge h
  rw [fields, fields, fields, hm.filter]
  cases s.filter <;> cases t.filter <;> simp [mergeFilters, Filter.fields_and]

/-- A merged row names what its selectors name. -/
lemma fields_mergeAll {row : List (Selector P)} {m : Selector P} (h : mergeAll row = some m) :
    m.fields = row.flatMap fields := by
  refine mergeAll_induction (motive := fun row m => m.fields = row.flatMap fields) ?_ ?_ h
  · intro s
    simp
  · intro s t n ss m hn ih
    rw [ih, List.flatMap_cons, List.flatMap_cons, List.flatMap_cons, fields_merge hn,
      List.append_assoc]

end Selector

namespace Rule

open Selector

/-! ### Rules -/

/-- The attributes that a rule names itself. -/
def ownFields (r : Rule P) : List String :=
  r.selectors.flatMap Selector.fields ++ r.properties.fields

lemma fieldsList_eq (rs : List (Rule P)) : fieldsList rs = rs.flatMap fields := by
  induction rs with
  | nil => rfl
  | cons r rs ih => rw [fieldsList, ih, List.flatMap_cons]

lemma fields_eq (r : Rule P) : r.fields = r.ownFields ++ r.nested.flatMap fields := by
  obtain ⟨name, kind, selectors, properties, nested⟩ := r
  rw [fields, fieldsList_eq, ownFields]

/-- What a tree of rules names, some rule of it names, and a path leads there. -/
lemma exists_path_of_mem_fields {name : String} (r : Rule P) (h : name ∈ r.fields) :
    ∃ front q, front ++ [q] ∈ r.paths ∧ name ∈ q.ownFields := by
  rw [fields_eq, List.mem_append, List.mem_flatMap] at h
  rcases h with hown | ⟨child, hchild, hname⟩
  · exact ⟨[], r, mem_paths_iff.mpr ⟨rfl, .singleton r⟩, hown⟩
  · obtain ⟨front, q, hpath, hq⟩ := exists_path_of_mem_fields child hname
    exact ⟨r :: front, q, cons_mem_paths hchild hpath, hq⟩
termination_by r
decreasing_by
  have hlt := List.sizeOf_lt_of_mem hchild
  obtain ⟨_, _, nested⟩ := r
  simp only [mk.sizeOf_spec] at hlt ⊢
  omega

lemma mem_fields_of_mem_paths {name : String} {r q : Rule P} {path : List (Rule P)}
    (hpath : path ∈ r.paths) (hq : q ∈ path) (hname : name ∈ q.ownFields) : name ∈ r.fields := by
  obtain ⟨trail, htrail, rfl⟩ := List.mem_map.mp hpath
  clear hpath
  rw [mem_trails_iff] at htrail
  induction trail generalizing r with
  | nil =>
    rw [List.mem_singleton] at hq
    rw [fields_eq, ← hq]
    exact List.mem_append_left _ hname
  | cons child trail ih =>
    rw [List.isChain_cons_cons] at htrail
    rw [fields_eq, List.mem_append]
    rcases List.mem_cons.mp hq with rfl | hq
    · exact .inl hname
    · exact .inr (List.mem_flatMap.mpr ⟨child, htrail.1, ih htrail.2 hq⟩)

/-! ### From a path to its flat rule -/

/-- The flat rule of a path names what the merged selectors and the collapsed properties name. -/
lemma mem_fields_merged {path : List (Rule P)} {name : String} : name ∈ (merged path).fields ↔
    (∃ m ∈ mergedChoices (selectorLists path), name ∈ m.fields) ∨
      ∃ v ∈ (RuleList.collapse path).values, name ∈ v.fields := by
  rw [fields_eq, nested_merged, List.flatMap_nil, List.append_nil, ownFields, List.mem_append,
    List.mem_flatMap, properties_merged, Properties.fields, List.mem_flatMap, selectors_merged]

lemma mem_fields_of_ofPath? {path : List (Rule P)} {flat : Rule P} (h : ofPath? path = some flat)
    {name : String} (hname : name ∈ flat.fields) : ∃ q ∈ path, name ∈ q.ownFields := by
  rw [ofPath?_eq] at h
  split at h
  · cases h
  · cases h
    rcases mem_fields_merged.mp hname with ⟨m, hm, hname⟩ | ⟨v, hv, hname⟩
    · obtain ⟨choice, hchoice, hmerged⟩ := List.mem_filterMap.mp hm
      rw [fields_mergeAll hmerged] at hname
      obtain ⟨s, hs, hname⟩ := List.mem_flatMap.mp hname
      obtain ⟨own, hown, hs⟩ := exists_mem_of_mem_choices hchoice hs
      obtain ⟨q, hq, rfl⟩ := List.mem_map.mp (List.mem_of_mem_filter hown)
      exact ⟨q, hq, List.mem_append_left _ (List.mem_flatMap.mpr ⟨s, hs, hname⟩)⟩
    · obtain ⟨q, hq, hv⟩ := RuleList.exists_mem_values_of_mem_collapse hv
      exact ⟨q, hq, List.mem_append_right _ (List.mem_flatMap.mpr ⟨v, hv, hname⟩)⟩

/-- A path on which any choice of selectors agrees gives a flat rule, which names what the selectors
on the path name. -/
lemma exists_ofPath?_of_pairwise {path : List (Rule P)}
    (h : ∀ choice ∈ choices (selectorLists path), choice.Pairwise Compatible) :
    ∃ flat, ofPath? path = some flat ∧
      ∀ q ∈ path, ∀ name ∈ q.selectors.flatMap Selector.fields, name ∈ flat.fields := by
  have hlists : ∀ own ∈ selectorLists path, own ≠ [] := by
    intro own hown
    simpa using (List.mem_filter.mp hown).2
  obtain ⟨⟨choice, hchoice⟩, hany⟩ := exists_mem_choices hlists
  have hagree : agreeing (selectorLists path) ≠ [] :=
    List.ne_nil_of_mem (mem_agreeing.mpr ⟨hchoice, h choice hchoice⟩)
  refine ⟨_, by rw [ofPath?_eq, if_neg hagree], fun q hq name hname => ?_⟩
  obtain ⟨s, hs, hname⟩ := List.mem_flatMap.mp hname
  have hown : q.selectors ∈ selectorLists path :=
    List.mem_filter.mpr ⟨List.mem_map_of_mem hq, by simpa using List.ne_nil_of_mem hs⟩
  obtain ⟨row, hrow, hsrow⟩ := hany q.selectors hown s hs
  obtain ⟨m, hm⟩ := Option.isSome_iff_exists.mp
    ((mergeAll_isSome_iff (List.ne_nil_of_mem hsrow)).mpr (h row hrow))
  refine mem_fields_merged.mpr (.inl ⟨m, List.mem_filterMap.mpr ⟨row, hrow, hm⟩, ?_⟩)
  rw [fields_mergeAll hm]
  exact List.mem_flatMap.mpr ⟨s, hsrow, hname⟩

/-- The values of the last rule on a path are not overridden. -/
lemma mem_fields_of_ofPath?_concat {front : List (Rule P)} {q flat : Rule P}
    (h : ofPath? (front ++ [q]) = some flat) {name : String} (hname : name ∈ q.properties.fields) :
    name ∈ flat.fields := by
  rw [ofPath?_eq] at h
  split at h
  · cases h
  · cases h
    obtain ⟨v, hv, hname⟩ := List.mem_flatMap.mp hname
    obtain ⟨⟨k, v⟩, hkv, rfl⟩ := List.mem_map.mp hv
    have hget : (RuleList.collapse (front ++ [q])).get? k = some v := by
      rw [RuleList.collapse_concat, Properties.get?_cascade,
        (Properties.mem_entries_iff q.properties k v).mp hkv, Option.some_or]
    refine mem_fields_merged.mpr (.inr ⟨v, ?_, hname⟩)
    exact List.mem_map_of_mem ((Properties.mem_entries_iff _ k v).mpr hget)

lemma mem_fields_of_mem_flatten {r flat : Rule P} (hflat : flat ∈ r.flatten) {name : String}
    (hname : name ∈ flat.fields) : name ∈ r.fields := by
  rw [flatten_eq, List.mem_filterMap] at hflat
  obtain ⟨path, hpath, hflat⟩ := hflat
  obtain ⟨q, hq, hname⟩ := mem_fields_of_ofPath? hflat hname
  exact mem_fields_of_mem_paths (List.mem_of_mem_filter hpath) hq hname

lemma exists_mem_flatten_of_mem_fields {r : Rule P} (h : r.MergesFreely) {name : String}
    (hname : name ∈ r.fields) : ∃ flat ∈ r.flatten, name ∈ flat.fields := by
  have hflatten {path : List (Rule P)} {flat : Rule P} (hpath : path ∈ r.paths)
      (hends : endsGiving path) (hflat : ofPath? path = some flat) : flat ∈ r.flatten := by
    rw [flatten_eq]
    exact List.mem_filterMap.mpr ⟨path, List.mem_filter.mpr ⟨hpath, hends⟩, hflat⟩
  obtain ⟨front, q, hpath, hname⟩ := exists_path_of_mem_fields r hname
  rw [ownFields, List.mem_append] at hname
  rcases hname with hname | hname
  · -- what a selector names is passed on to the next rule inside that gives a flat rule
    obtain ⟨trail, htrail, hends⟩ := exists_endsGiving q
    have hlong : front ++ q :: trail ∈ r.paths := append_mem_paths_iff.mpr ⟨hpath, htrail⟩
    obtain ⟨flat, hflat, hfields⟩ := exists_ofPath?_of_pairwise (h.pairwise fun _ => hlong)
    refine ⟨flat, hflatten hlong ?_ hflat, hfields q (by simp) name hname⟩
    rwa [endsGiving, List.getLast?_append_of_ne_nil _ (List.cons_ne_nil q trail)]
  · -- a rule with a value gives a flat rule itself
    obtain ⟨flat, hflat, -⟩ := exists_ofPath?_of_pairwise (h.pairwise fun _ => hpath)
    refine ⟨flat, hflatten hpath ?_ hflat, mem_fields_of_ofPath?_concat hflat hname⟩
    have hproperties : q.properties.entries ≠ [] := by
      intro hnil
      simp [Properties.fields, Properties.values, hnil] at hname
    simp [endsGiving, isGiving, Properties.isEmpty, hproperties]

end Rule

namespace RuleList

/-- Flattened rules name no attribute that the rules do not name, and if no selectors conflict they
name the same. -/
theorem fields_flatten (rs : RuleList P) :
    (∀ name ∈ rs.flatten.fields, name ∈ rs.fields) ∧
      ((∀ r ∈ rs, r.MergesFreely) → ∀ name, name ∈ rs.flatten.fields ↔ name ∈ rs.fields) := by
  have hmem (rs : RuleList P) (name : String) : name ∈ rs.fields ↔ ∃ r ∈ rs, name ∈ r.fields := by
    rw [fields, Text.mem_sortedNames, List.mem_flatMap]
  simp only [hmem, flatten, List.mem_flatMap]
  have hsubset : ∀ name, (∃ flat, (∃ r ∈ rs, flat ∈ r.flatten) ∧ name ∈ flat.fields) →
      ∃ r ∈ rs, name ∈ r.fields := by
    rintro name ⟨flat, ⟨r, hr, hflat⟩, hname⟩
    exact ⟨r, hr, Rule.mem_fields_of_mem_flatten hflat hname⟩
  refine ⟨hsubset, fun hfree name => ⟨hsubset name, ?_⟩⟩
  rintro ⟨r, hr, hname⟩
  obtain ⟨flat, hflat, hname⟩ := Rule.exists_mem_flatten_of_mem_fields (hfree r hr) hname
  exact ⟨flat, ⟨r, hr, hflat⟩, hname⟩

/-- A rule that only filters, around two rules of which the inner one overrides the value of the outer
one. -/
def bridges : Rule Presence :=
  .ofSelectors [{ id := some "roads", filter := some (.predicate ⟨"bridge"⟩) }] {}
    [.ofSelectors [{ classes := ["main"] }, { wildcard := true }]
      (.ofList [("label", .reference "name")])
      [.ofSelectors [{ attachment := some "text" }] (.ofList [("label", .reference "ref")])]]

/-- No merge conflicts on the way down, and so no attribute gets lost. -/
theorem fields_flatten_bridges :
    bridges.MergesFreely ∧
      ∀ name, name ∈ fields (flatten [bridges]) ↔ name ∈ fields [bridges] := by
  have h : bridges.MergesFreely := by decide
  refine ⟨h, (fields_flatten [bridges]).2 ?_⟩
  rwa [List.forall_mem_singleton]

end RuleList

end MapStyle
