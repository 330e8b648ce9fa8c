import MapStyle.Proofs.Cascade.Properties
import MapStyle.Proofs.Cascade.Repetitions
import MapStyle.Sheet.Machine

/-!
# Gathering values

What declaring keys one after another makes of a property map, said without doing it: the keys come in
the order of their first declarations under either policy, and each key has the value that its own values
make up together. Under the one policy this is the last of them; under the other they all become the parts
of a composite. A block that is added to a map brings the values of a key along as one value, so what a key
has then depends on how its declarations are spread over blocks.
-/

namespace MapStyle

namespace Value

/-- Whether a value is a composite. -/
def isComposite : Value → Bool
  | composite _ => true
  | _ => false

mutual

/-- The values that a value is made of, from left to right: those of its parts if it is a composite,
and else the value itself. -/
def leaves : Value → List Value
  | composite parts => leavesList parts
  | literal l => [literal l]
  | list items => [list items]
  | reference name => [reference name]
  | call c => [call c]

/-- The values that the values of a list are made of. -/
def leavesList : List Value → List Value
  | [] => []
  | v :: vs => leaves v ++ leavesList vs

end

lemma leavesList_eq_flatMap (vs : List Value) : leavesList vs = vs.flatMap leaves := by
  induction vs with
  | nil => rfl
  | cons v vs ih => rw [leavesList, ih, List.flatMap_cons]

lemma leaves_of_not_isComposite {v : Value} (h : v.isComposite = false) : v.leaves = [v] := by
  cases v with
  | composite => cases h
  | _ => rfl

lemma flatMap_leaves {vs : List Value} (h : ∀ v ∈ vs, v.isComposite = false) :
    vs.flatMap leaves = vs := by
  induction vs with
  | nil => rfl
  | cons v vs ih =>
    obtain ⟨hv, hvs⟩ := List.forall_mem_cons.mp h
    rw [List.flatMap_cons, leaves_of_not_isComposite hv, ih hvs, List.singleton_append]

/-- The parts of a composite; any other value is the only part of itself. -/
def parts : Value → List Value
  | composite vs => vs
  | v => [v]

lemma parts_of_not_isComposite {v : Value} (h : v.isComposite = false) : v.parts = [v] := by
  cases v with
  | composite => cases h
  | _ => rfl

lemma flatMap_leaves_parts (v : Value) : v.parts.flatMap leaves = v.leaves := by
  cases v with
  | composite vs => rw [parts, leaves, leavesList_eq_flatMap]
  | _ => rfl

/-- The value of a key that has been given some values: none, the only one, or all of them as the
parts of one composite. -/
def flat? : List Value → Option Value
  | [] => none
  | [v] => some v
  | vs => some (.composite vs)

lemma flat?_of_length {vs : List Value} (h : 2 ≤ vs.length) : flat? vs = some (.composite vs) := by
  match vs, h with
  | _ :: _ :: _, _ => rfl

end Value

namespace Properties

open Value

/-! ### Declarations by key -/

/-- The values that some declarations give to a key, in order. -/
def declared (key : String) (decls : List (String × Value)) : List Value :=
  (decls.filter (·.1 == key)).map (·.2)

lemma declared_cons (key : String) (e : String × Value) (decls : List (String × Value)) :
    declared key (e :: decls) = (if e.1 = key then [e.2] else []) ++ declared key decls := by
  by_cases h : e.1 = key <;> simp [declared, h]

lemma declared_append (key : String) (decls decls' : List (String × Value)) :
    declared key (decls ++ decls') = declared key decls ++ declared key decls' := by
  simp [declared]

/-- A map declares what it has for a key, if it has the key. -/
lemma declared_entries (key : String) (p : Properties) :
    declared key p.entries = (p.get? key).toList := by
  obtain ⟨es, nodup⟩ := p
  change declared key es = (es.lookup key).toList
  induction es with
  | nil => rfl
  | cons e es ih =>
    obtain ⟨a, v⟩ := e
    rw [List.map_cons, List.nodup_cons] at nodup
    rw [declared_cons, ih nodup.2, lookup_cons]
    by_cases hkey : a = key
    · subst hkey
      rw [if_pos rfl, if_pos rfl, lookup_eq_none nodup.1]
      rfl
    · rw [if_neg hkey, if_neg (Ne.symm hkey), List.nil_append]

/-- The values that the declarations of some blocks give to a key, block by block. Blocks that do not
declare the key are left out. -/
def groups (key : String) (blocks : List (List (String × Value))) : List (List Value) :=
  (blocks.map (declared key)).filter (!·.isEmpty)

lemma groups_cons (key : String) (decls : List (String × Value))
    (blocks : List (List (String × Value))) : groups key (decls :: blocks) =
      (if declared key decls = [] then [] else [declared key decls]) ++ groups key blocks := by
  by_cases h : declared key decls = [] <;> simp [groups, h]

lemma nil_notMem_groups (key : String) (blocks : List (List (String × Value))) :
    [] ∉ groups key blocks := by
  simp [groups]

lemma flatten_groups (key : String) (blocks : List (List (String × Value))) :
    (groups key blocks).flatten = declared key blocks.flatten := by
  induction blocks with
  | nil => rfl
  | cons decls blocks ih =>
    rw [List.flatten_cons, declared_append, ← ih, groups, groups, List.map_cons, List.filter_cons]
    split
    · rw [List.flatten_cons]
    · next h => simp_all

lemma mem_of_mem_declared {key : String} {decls : List (String × Value)} {v : Value}
    (h : v ∈ declared key decls) : (key, v) ∈ decls := by
  obtain ⟨⟨k, w⟩, he, rfl⟩ := List.mem_map.mp h
  obtain ⟨he, hk⟩ := List.mem_filter.mp he
  rwa [← eq_of_beq hk]

lemma not_isComposite_of_mem_groups {key : String} {blocks : List (List (String × Value))}
    (h : ∀ decls ∈ blocks, ∀ e ∈ decls, e.2.isComposite = false) :
    ∀ us ∈ groups key blocks, ∀ v ∈ us, v.isComposite = false := by
  intro us hus v hv
  obtain ⟨decls, hdecls, rfl⟩ := List.mem_map.mp (List.mem_filter.mp hus).1
  exact h decls hdecls _ (mem_of_mem_declared hv)

end Properties

/-! ### What declarations make up -/

namespace DuplicateKeys

open Properties Value

/-- The properties of a block in which keys are declared in turn. -/
def declareAll (policy : DuplicateKeys) (decls : List (String × Value)) (p : Properties) : Properties :=
  decls.foldl (fun p e => policy.declare e.1 e.2 p) p

/-- The value that the values given to a key make up. Either the last one counts; or a single one stays as
it is, and several are the parts of a composite, behind the parts of the first one if that is a composite
itself. -/
def value? : DuplicateKeys → List Value → Option Value
  | overwrite, vs => vs.getLast?
  | accumulate, [] => none
  | accumulate, [v] => some v
  | accumulate, v :: vs => some (.composite (v.parts ++ vs))

/-- A property map that some declarations make up: the keys stand in the order of their first declarations,
and each key has the value that its values make up. -/
structure Gathers (policy : DuplicateKeys) (decls : List (String × Value)) (p : Properties) : Prop where
  keys : p.keys = (decls.map (·.1)).eraseDups
  get? (key : String) : p.get? key = policy.value? (declared key decls)

variable {policy : DuplicateKeys}

/-- The declarations say all about the map. -/
lemma Gathers.unique {decls : List (String × Value)} {p q : Properties} (hp : policy.Gathers decls p)
    (hq : policy.Gathers decls q) : p = q :=
  eq_of_keys_of_get? (hp.keys.trans hq.keys.symm) fun key => (hp.get? key).trans (hq.get? key).symm

/-! ### Keys -/

lemma keys_alter {key : String} {f : Option Value → Value} {es : List (String × Value)}
    {ks : List String} (h : es.map (·.1) = ks.eraseDups) :
    (alter key f es).map (·.1) = (ks ++ [key]).eraseDups := by
  rw [map_fst_alter, eraseDups_concat, h]
  split <;> simp

/-- Keys that are altered in turn stand behind those that are there, in the order of their first
appearance. -/
lemma keys_foldl_alter {op : Properties → String × Value → Properties}
    (hop : ∀ p e, ∃ f, (op p e).entries = alter e.1 f p.entries) (es : List (String × Value))
    {p : Properties} {ks : List String} (h : p.keys = ks.eraseDups) :
    (es.foldl op p).keys = (ks ++ es.map (·.1)).eraseDups := by
  induction es generalizing p ks with
  | nil => rw [List.map_nil, List.append_nil]; exact h
  | cons e es ih =>
    obtain ⟨f, hf⟩ := hop p e
    have hkeys : (op p e).keys = (ks ++ [e.1]).eraseDups := by
      rw [Properties.keys, hf]
      exact keys_alter h
    rw [List.foldl_cons, ih hkeys, List.map_cons, List.append_assoc, List.singleton_append]

lemma keys_declareAll (policy : DuplicateKeys) (decls : List (String × Value)) :
    (policy.declareAll decls {}).keys = (decls.map (·.1)).eraseDups := by
  have hnil : ({} : Properties).keys = ([] : List String).eraseDups := rfl
  refine keys_foldl_alter (fun p e => ?_) decls hnil
  cases policy with
  | overwrite => exact ⟨_, rfl⟩
  | accumulate => exact ⟨_, rfl⟩

/-! ### Values -/

lemma get?_append (p : Properties) (key : String) (value : Value) (k : String) :
    (p.append key value).get? k =
      if k = key then some (Properties.accumulate value (p.get? key)) else p.get? k :=
  lookup_alter ..

/-- What a key has and is given next can as well be put together first. -/
lemma value?_declare (policy : DuplicateKeys) (key : String) (v : Value) (p : Properties)
    (vs : List Value) : policy.value? (((policy.declare key v p).get? key).toList ++ vs) =
      policy.value? ((p.get? key).toList ++ v :: vs) := by
  cases policy with
  | overwrite =>
    rw [declare, get?_set, if_pos rfl]
    simp [value?, List.getLast?_cons]
  | accumulate =>
    rw [declare, get?_append, if_pos rfl]
    -- with nothing before it the value stays; otherwise it becomes one more part
    cases p.get? key with
    | none => rfl
    | some w => cases w <;> cases vs <;> simp [Properties.accumulate, value?, parts]

lemma get?_declare_of_ne (policy : DuplicateKeys) {key k : String} (hk : k ≠ key) (v : Value)
    (p : Properties) : (policy.declare key v p).get? k = p.get? k := by
  cases policy with
  | overwrite => rw [declare, get?_set, if_neg hk]
  | accumulate => rw [declare, get?_append, if_neg hk]

lemma get?_declareAll (policy : DuplicateKeys) (decls : List (String × Value)) (p : Properties)
    (key : String) : (policy.declareAll decls p).get? key =
      policy.value? ((p.get? key).toList ++ declared key decls) := by
  induction decls generalizing p with
  | nil => cases policy <;> cases hp : p.get? key <;> simp [declareAll, declared, value?, hp]
  | cons e decls ih =>
    obtain ⟨k, v⟩ := e
    change (policy.declareAll decls (policy.declare k v p)).get? key = _
    rw [ih, declared_cons]
    by_cases hkey : k = key
    · subst hkey
      rw [value?_declare, if_pos rfl, List.singleton_append]
    · rw [get?_declare_of_ne policy (Ne.symm hkey), if_neg hkey, List.nil_append]

/-- Declaring in turn gives just what the declarations make up. -/
theorem gathers_iff {decls : List (String × Value)} {p : Properties} :
    policy.Gathers decls p ↔ p = policy.declareAll decls {} := by
  have hall : policy.Gathers decls (policy.declareAll decls {}) :=
    ⟨keys_declareAll policy decls, get?_declareAll policy decls {}⟩
  constructor
  · intro h
    exact h.unique hall
  · rintro rfl
    exact hall

/-! ### Blocks -/

/-- Adding a block to the map declares what the block has for its keys. -/
lemma join_eq_declareAll (policy : DuplicateKeys) (map block : Properties) :
    policy.join map block = policy.declareAll block.entries map := by
  cases policy <;> rfl

/-- Adding blocks in turn declares what each of them has for its keys. -/
lemma foldl_join (policy : DuplicateKeys) (blocks : List Properties) (map : Properties) :
    blocks.foldl policy.join map = policy.declareAll (blocks.flatMap (·.entries)) map := by
  induction blocks generalizing map with
  | nil => rfl
  | cons block blocks ih =>
    rw [List.foldl_cons, ih, join_eq_declareAll, List.flatMap_cons, declareAll, declareAll, declareAll,
      List.foldl_append]

/-- The declarations of some blocks, of each key in each block one with the value that it gets there. -/
def settled (policy : DuplicateKeys) (blocks : List (List (String × Value))) : List (String × Value) :=
  blocks.flatMap fun decls => (policy.declareAll decls {}).entries

/-- The keys come as if all declarations stood in one block. -/
lemma eraseDups_keys_settled (policy : DuplicateKeys) (blocks : List (List (String × Value))) :
    ((policy.settled blocks).map (·.1)).eraseDups = (blocks.flatten.map (·.1)).eraseDups := by
  have hkeys : (policy.settled blocks).map (·.1) =
      (blocks.map fun decls => decls.map (·.1)).flatMap List.eraseDups := by
    rw [settled, List.map_flatMap, List.flatMap_map]
    exact congrArg (List.flatMap · blocks) (funext fun decls => keys_declareAll policy decls)
  rw [hkeys, eraseDups_flatMap_eraseDups, List.map_flatten]

/-- In each block that declares a key, its values there make up one value. -/
lemma declared_settled (policy : DuplicateKeys) (blocks : List (List (String × Value)))
    (key : String) :
    declared key (policy.settled blocks) = (groups key blocks).filterMap policy.value? := by
  have hnil : policy.value? [] = none := by cases policy <;> rfl
  induction blocks with
  | nil => rfl
  | cons decls blocks ih =>
    rw [settled, List.flatMap_cons, declared_append, declared_entries, get?_declareAll, ← settled, ih,
      groups_cons, List.filterMap_append]
    by_cases hdeclared : declared key decls = []
    · rw [if_pos hdeclared, hdeclared]
      exact congrArg (·.toList ++ _) hnil
    · rw [if_neg hdeclared]
      cases hvalue : policy.value? (declared key decls) <;> simp [get?, hvalue]

/-- The map has what its blocks settle. -/
lemma gathers_foldl_join (policy : DuplicateKeys) (blocks : List (List (String × Value))) :
    policy.Gathers (policy.settled blocks)
      ((blocks.map fun decls => policy.declareAll decls {}).foldl policy.join {}) := by
  rw [gathers_iff, foldl_join, List.flatMap_map, settled]

/-! ### Last values and all values -/

lemma getLast?_filterMap_value? (groups : List (List Value)) :
    (groups.filterMap overwrite.value?).getLast? = groups.flatten.getLast? := by
  induction groups using List.reverseRecOn with
  | nil => rfl
  | append_singleton groups vs ih =>
    rw [List.filterMap_append, List.getLast?_append, ih, List.flatten_append, List.getLast?_append,
      List.flatten_singleton]
    cases hvs : vs.getLast? <;> simp [value?, hvs]

lemma leaves_value? (vs : List Value) :
    (accumulate.value? vs).elim [] leaves = vs.flatMap leaves := by
  match vs with
  | [] => rfl
  | [v] => simp [value?]
  | v :: w :: vs =>
    rw [value?, Option.elim_some, leaves, leavesList_eq_flatMap, List.flatMap_append,
      flatMap_leaves_parts, ← List.flatMap_cons]
    nofun

lemma flatMap_leaves_filterMap_value? (groups : List (List Value)) :
    (groups.filterMap accumulate.value?).flatMap leaves = groups.flatten.flatMap leaves := by
  induction groups with
  | nil => rfl
  | cons vs groups ih =>
    rw [List.flatten_cons, List.flatMap_append, ← ih, ← leaves_value? vs, List.filterMap_cons]
    cases accumulate.value? vs with
    | none => rfl
    | some v => rw [List.flatMap_cons, Option.elim_some]

/-! ### The shape of gathered values -/

lemma value?_eq_flat? {vs : List Value} (h : ∀ v ∈ vs, v.isComposite = false) :
    accumulate.value? vs = flat? vs := by
  match vs with
  | [] => rfl
  | [_] => rfl
  | v :: w :: vs =>
    rw [value?, parts_of_not_isComposite (h v List.mem_cons_self), flat?_of_length (by simp)]
    · rfl
    · nofun

/-- Groups of values give one value each, which are all the values of the groups, exactly if each
group is a single value. -/
lemma filterMap_flat?_eq_flatten_iff {groups : List (List Value)} (hne : [] ∉ groups)
    (h : ∀ us ∈ groups, ∀ v ∈ us, v.isComposite = false) :
    groups.filterMap flat? = groups.flatten ↔ ∀ us ∈ groups, us.length = 1 := by
  constructor
  · intro heq us hus
    have hpos : us ≠ [] := fun hnil => hne (hnil ▸ hus)
    refine Classical.byContradiction fun hlength => ?_
    have hflat : flat? us = some (.composite us) := by
      have := List.length_pos_iff.mpr hpos
      exact flat?_of_length (by omega)
    -- the composite would be one of the values of the groups
    have hmem : Value.composite us ∈ groups.flatten :=
      heq ▸ List.mem_filterMap.mpr ⟨us, hus, hflat⟩
    obtain ⟨us', hus', hmem⟩ := List.mem_flatten.mp hmem
    cases h us' hus' _ hmem
  · intro hlength
    clear hne h
    induction groups with
    | nil => rfl
    | cons us groups ih =>
      obtain ⟨hus, hgroups⟩ := List.forall_mem_cons.mp hlength
      obtain ⟨v, rfl⟩ := List.length_eq_one_iff.mp hus
      rw [List.filterMap_cons_some (f := flat?) (b := v) rfl, List.flatten_cons, ih hgroups,
        List.singleton_append]

/-- The one value that some values make up has them as its parts. -/
lemma exists_flat?_eq_some {vs : List Value} (hne : vs ≠ [])
    (h : ∀ v ∈ vs, v.isComposite = false) : ∃ w, flat? vs = some w ∧ w.parts = vs := by
  match vs, hne with
  | [v], _ => exact ⟨v, rfl, parts_of_not_isComposite (h v List.mem_cons_self)⟩
  | v :: w :: vs, _ => exact ⟨.composite (v :: w :: vs), rfl, rfl⟩

/-- What the values of several groups make up, one value for each group, is one flat composite of all of
them exactly if each group but the first one is a single value. -/
lemma value?_filterMap_flat?_iff {groups : List (List Value)} (hne : [] ∉ groups)
    (h : ∀ us ∈ groups, ∀ v ∈ us, v.isComposite = false) :
    accumulate.value? (groups.filterMap flat?) = flat? groups.flatten ↔
      ∀ us ∈ groups.tail, us.length = 1 := by
  match groups with
  | [] => simp [value?, flat?]
  | [vs] =>
    have hvs : vs ≠ [] := fun hnil => hne (hnil ▸ List.mem_singleton.mpr rfl)
    obtain ⟨w, hw, -⟩ := exists_flat?_eq_some hvs (h vs List.mem_cons_self)
    simp [hw, value?]
  | us :: us' :: groups =>
    have hus : us ≠ [] := fun hnil => hne (hnil ▸ List.mem_cons_self)
    have hus' : us' ≠ [] := fun hnil => hne (hnil ▸ List.mem_cons_of_mem _ List.mem_cons_self)
    obtain ⟨w, hw, hparts⟩ := exists_flat?_eq_some hus (h us List.mem_cons_self)
    obtain ⟨w', hw', -⟩ :=
      exists_flat?_eq_some hus' (h us' (List.mem_cons_of_mem _ List.mem_cons_self))
    have hlength : 2 ≤ (us :: us' :: groups).flatten.length := by
      have := List.length_pos_iff.mpr hus
      have := List.length_pos_iff.mpr hus'
      simp only [List.flatten_cons, List.length_append]
      omega
    -- behind the first group, its parts are there already; each other group comes as one value
    have hvalue : accumulate.value? ((us :: us' :: groups).filterMap flat?) =
        some (.composite (us ++ (us' :: groups).filterMap flat?)) := by
      rw [List.filterMap_cons_some hw, List.filterMap_cons_some hw', value?, hparts]
      nofun
    rw [hvalue, flat?_of_length hlength, List.flatten_cons, List.tail_cons,
      ← filterMap_flat?_eq_flatten_iff (fun hmem => hne (List.mem_cons_of_mem _ hmem))
        (List.forall_mem_cons.mp h).2]
    simp

end DuplicateKeys

namespace Properties

open Value DuplicateKeys

/-- The values that a key has, from left to right. -/
def leavesAt (p : Properties) (key : String) : List Value :=
  (p.get? key).elim [] leaves

end Properties

end MapStyle
