import Mathlib.Tactic.Lemma
import MapStyle.Properties

/-!
# Property maps

What a property map has for a key when values have been set or another map has been put on top of it. The
keys in order and the value of each key are all that there is to a map.
-/

namespace MapStyle.Properties

/-! ### Reading a map back -/

lemma lookup_cons (k a : String) (v : Value) (es : List (String × Value)) :
    ((a, v) :: es).lookup k = if k = a then some v else es.lookup k := by
  by_cases h : k = a
  · simp [h]
  · simp [List.lookup_cons, h, beq_eq_false_iff_ne.mpr h]

lemma lookup_alter (key : String) (f : Option Value → Value) (es : List (String × Value))
    (k : String) :
    (alter key f es).lookup k = if k = key then some (f (es.lookup key)) else es.lookup k := by
  induction es with
  | nil => simp [alter, lookup_cons]
  | cons e es ih =>
    obtain ⟨a, v⟩ := e
    by_cases ha : a = key
    · subst ha
      simp only [alter, if_pos, lookup_cons]
      split <;> rfl
    · simp only [alter, if_neg ha, lookup_cons, ih, if_neg (Ne.symm ha)]
      split
      · next hk => rw [hk, if_neg ha]
      · rfl

lemma get?_set (p : Properties) (key : String) (value : Value) (k : String) :
    (p.set key value).get? k = if k = key then some value else p.get? k :=
  lookup_alter ..

lemma lookup_eq_none {es : List (String × Value)} {k : String} (h : k ∉ es.map (·.1)) :
    es.lookup k = none := by
  rw [List.lookup_eq_none_iff]
  intro e he
  rw [bne_iff_ne]
  exact fun hk => h (hk ▸ List.mem_map_of_mem (f := (·.1)) he)

lemma mem_entries_iff (p : Properties) (k : String) (v : Value) :
    (k, v) ∈ p.entries ↔ p.get? k = some v := by
  obtain ⟨es, nodup⟩ := p
  simp only [get?]
  induction es with
  | nil => simp
  | cons e es ih =>
    obtain ⟨a, w⟩ := e
    rw [List.map_cons, List.nodup_cons] at nodup
    rw [List.mem_cons, lookup_cons, ih nodup.2]
    split
    · next hk => simp [hk, lookup_eq_none nodup.1, eq_comm]
    · next hk => simp [hk]

/-- A later map has the last word on the keys that it has. -/
lemma get?_cascade (p q : Properties) (k : String) :
    (p.cascade q).get? k = (q.get? k).or (p.get? k) := by
  obtain ⟨es, nodup⟩ := q
  change (es.foldl (fun p e => p.set e.1 e.2) p).get? k = (es.lookup k).or (p.get? k)
  induction es generalizing p with
  | nil => rfl
  | cons e es ih =>
    obtain ⟨a, v⟩ := e
    rw [List.map_cons, List.nodup_cons] at nodup
    rw [List.foldl_cons, ih _ nodup.2, get?_set, lookup_cons]
    split
    · next hk => simp [hk, lookup_eq_none nodup.1]
    · rfl

lemma alter_of_notMem {key : String} {f : Option Value → Value} {es : List (String × Value)}
    (h : key ∉ es.map (·.1)) : alter key f es = es ++ [(key, f none)] := by
  induction es with
  | nil => rfl
  | cons e es ih =>
    simp only [List.map_cons, List.mem_cons, not_or] at h
    simp only [alter, if_neg (Ne.symm h.1), ih h.2, List.cons_append]

/-- Values that are set under new keys come at the end. -/
lemma entries_foldl_set (es : List (String × Value)) (p : Properties)
    (h : ((p.entries ++ es).map (·.1)).Nodup) :
    (es.foldl (fun p e => p.set e.1 e.2) p).entries = p.entries ++ es := by
  induction es generalizing p with
  | nil => simp
  | cons e es ih =>
    have hset : (p.set e.1 e.2).entries = p.entries ++ [e] := by
      rw [List.map_append, List.nodup_append] at h
      exact alter_of_notMem fun he => h.2.2 e.1 he e.1 (by simp) rfl
    rw [List.foldl_cons, ih _ (by simpa [hset] using h), hset]
    simp

@[simp] lemma empty_cascade (p : Properties) : ({} : Properties).cascade p = p :=
  Properties.ext (entries_foldl_set p.entries {} p.nodup)

/-- Two maps with the same keys in order and the same value for each key are the same. -/
lemma eq_of_keys_of_get? {p q : Properties} (hkeys : p.keys = q.keys)
    (hget : ∀ k, p.get? k = q.get? k) : p = q := by
  obtain ⟨es, nodup⟩ := p
  obtain ⟨es', nodup'⟩ := q
  refine Properties.ext ?_
  change es.map (·.1) = es'.map (·.1) at hkeys
  change ∀ k, es.lookup k = es'.lookup k at hget
  change es = es'
  induction es generalizing es' with
  | nil => exact (List.map_eq_nil_iff.mp hkeys.symm).symm
  | cons e es ih =>
    obtain ⟨a, v⟩ := e
    obtain _ | ⟨⟨a', v'⟩, es'⟩ := es'
    · cases hkeys
    obtain ⟨rfl, htail⟩ := List.cons.inj hkeys
    rw [List.map_cons, List.nodup_cons] at nodup nodup'
    obtain rfl : v = v' := by
      have h := hget a
      rwa [lookup_cons, lookup_cons, if_pos rfl, if_pos rfl, Option.some.injEq] at h
    refine congrArg _ (ih nodup.2 es' nodup'.2 htail fun k => ?_)
    by_cases hk : k = a
    · rw [hk, lookup_eq_none nodup.1, lookup_eq_none (htail ▸ nodup.1)]
    · have h := hget k
      rwa [lookup_cons, lookup_cons, if_neg hk, if_neg hk] at h

/-! ### Setting values in another order -/

lemma set_set (p : Properties) (key : String) (v w : Value) :
    (p.set key v).set key w = p.set key w := by
  refine Properties.ext ?_
  change alter key _ (alter key _ p.entries) = alter key _ p.entries
  induction p.entries with
  | nil => simp [alter]
  | cons e es ih =>
    obtain ⟨a, u⟩ := e
    by_cases ha : a = key
    · simp [alter, ha]
    · simp [alter, ha, ih]

/-- The value of a key that is there already can as well be set later. -/
lemma set_comm {p : Properties} {key : String} (hkey : key ∈ p.keys) {k : String} (hk : k ≠ key)
    (v w : Value) : (p.set key v).set k w = (p.set k w).set key v := by
  obtain ⟨es, nodup⟩ := p
  refine Properties.ext ?_
  change alter k _ (alter key _ es) = alter key _ (alter k _ es)
  change key ∈ es.map (·.1) at hkey
  clear nodup
  induction es with
  | nil => cases hkey
  | cons e es ih =>
    obtain ⟨a, u⟩ := e
    by_cases ha : a = key
    · subst ha
      simp [alter, Ne.symm hk]
    by_cases hak : a = k
    · subst hak
      simp [alter, ha]
    · rw [List.map_cons, List.mem_cons] at hkey
      simp [alter, ha, hak, ih (hkey.resolve_left (Ne.symm ha))]

lemma mem_keys_set (p : Properties) (key k : String) (v : Value) :
    k ∈ (p.set key v).keys ↔ k = key ∨ k ∈ p.keys := by
  rw [keys, set, map_fst_alter, keys]
  split
  · next h => simp only [iff_or_self]; rintro rfl; exact h
  · simp [or_comm]

lemma foldl_set_comm {es : List (String × Value)} {key : String} (hes : key ∉ es.map (·.1))
    {p : Properties} (hkey : key ∈ p.keys) (v : Value) :
    es.foldl (fun p e => p.set e.1 e.2) (p.set key v) =
      (es.foldl (fun p e => p.set e.1 e.2) p).set key v := by
  induction es generalizing p with
  | nil => rfl
  | cons e es ih =>
    rw [List.map_cons, List.mem_cons, not_or] at hes
    rw [List.foldl_cons, List.foldl_cons, set_comm hkey (Ne.symm hes.1),
      ih hes.2 ((mem_keys_set ..).mpr (.inr hkey))]

/-- A value that the upper one of two maps gets, their cascade gets. -/
lemma cascade_set (p q : Properties) (key : String) (v : Value) :
    p.cascade (q.set key v) = (p.cascade q).set key v := by
  obtain ⟨es, nodup⟩ := q
  change (alter key _ es).foldl (fun p e => p.set e.1 e.2) p =
    (es.foldl (fun p e => p.set e.1 e.2) p).set key v
  induction es generalizing p with
  | nil => rfl
  | cons e es ih =>
    obtain ⟨a, w⟩ := e
    rw [List.map_cons, List.nodup_cons] at nodup
    by_cases ha : a = key
    · subst ha
      rw [alter, if_pos rfl, List.foldl_cons, List.foldl_cons,
        ← foldl_set_comm nodup.1 ((mem_keys_set ..).mpr (.inl rfl)), set_set]
    · rw [alter, if_neg ha, List.foldl_cons, List.foldl_cons, ih _ nodup.2]

lemma cascade_assoc (p q r : Properties) :
    (p.cascade q).cascade r = p.cascade (q.cascade r) := by
  obtain ⟨es, nodup⟩ := r
  change es.foldl (fun p e => p.set e.1 e.2) (p.cascade q) =
    p.cascade (es.foldl (fun p e => p.set e.1 e.2) q)
  clear nodup
  induction es generalizing q with
  | nil => rfl
  | cons e es ih => rw [List.foldl_cons, List.foldl_cons, ← cascade_set, ih]

end MapStyle.Properties
