import MapStyle.Value

/-!
# Property maps

The declarations of a rule by key, in the order in which the keys first appeared. A later value
takes the place of an earlier one, so a key keeps its position; in an accumulating map repeated keys
collect their values.
-/

namespace MapStyle

/-- Values by key, in the order of the keys' first appearance. No key appears twice. -/
@[ext] structure Properties where
  entries : List (String × Value) := []
  nodup : (entries.map (·.1)).Nodup := by exact List.nodup_nil

namespace Properties

/-- Changes the value of a key in place, or adds the key at the end. The function sees the present
value, if there is one. -/
def alter (key : String) (f : Option Value → Value) : List (String × Value) → List (String × Value)
  | [] => [(key, f none)]
  | (k, v) :: rest => if k = key then (k, f (some v)) :: rest else (k, v) :: alter key f rest

theorem map_fst_alter (key : String) (f : Option Value → Value) (es : List (String × Value)) :
    (alter key f es).map (·.1) =
      if key ∈ es.map (·.1) then es.map (·.1) else es.map (·.1) ++ [key] := by
  induction es with
  | nil => simp [alter]
  | cons e es ih =>
    obtain ⟨k, v⟩ := e
    by_cases h : k = key
    · simp [alter, h]
    · simp only [alter, if_neg h, List.map_cons, ih, List.mem_cons, Ne.symm h, false_or]
      split <;> rfl

theorem nodup_alter (key : String) (f : Option Value → Value) {es : List (String × Value)}
    (h : (es.map (·.1)).Nodup) : ((alter key f es).map (·.1)).Nodup := by
  rw [map_fst_alter]
  split
  · exact h
  · next hkey =>
    rw [List.nodup_append]
    refine ⟨h, by simp, ?_⟩
    rintro a ha b hb rfl
    rw [List.mem_singleton] at hb
    exact hkey (hb ▸ ha)

/-- Gives a key a value, in place of an earlier one. -/
def set (p : Properties) (key : String) (value : Value) : Properties :=
  ⟨alter key (fun _ => value) p.entries, nodup_alter _ _ p.nodup⟩

/-- The value of a repeated property: a composite takes one more part, and any other value becomes
the first of two. -/
def accumulate (value : Value) : Option Value → Value
  | none => value
  | some (.composite parts) => .composite (parts ++ [value])
  | some first => .composite [first, value]

/-- Adds a value to those that a key has already. -/
def append (p : Properties) (key : String) (value : Value) : Properties :=
  ⟨alter key (accumulate value) p.entries, nodup_alter _ _ p.nodup⟩

/-- The value of a key. -/
def get? (p : Properties) (key : String) : Option Value :=
  p.entries.lookup key

/-- Whether a key has a value. -/
def contains (p : Properties) (key : String) : Bool :=
  (p.get? key).isSome

/-- The keys in order. -/
def keys (p : Properties) : List String :=
  p.entries.map (·.1)

/-- The values in order. -/
def values (p : Properties) : List Value :=
  p.entries.map (·.2)

/-- The number of keys. -/
def size (p : Properties) : Nat :=
  p.entries.length

/-- Whether there is no key. -/
def isEmpty (p : Properties) : Bool :=
  p.entries.isEmpty

/-- The map in which the given pairs are set in turn. -/
def ofList (pairs : List (String × Value)) : Properties :=
  pairs.foldl (fun p e => p.set e.1 e.2) {}

/-- The map with all values of another one set on top. -/
def cascade (p q : Properties) : Properties :=
  q.entries.foldl (fun p e => p.set e.1 e.2) p

/-- The map with all values of another one appended. -/
def appendAll (p q : Properties) : Properties :=
  q.entries.foldl (fun p e => p.append e.1 e.2) p

/-- The attributes that the values name, in reading order. -/
def fields (p : Properties) : List String :=
  p.values.flatMap Value.fields

/-- Maps are equal if they have the same keys with equal values, in whatever order. -/
def equal (p q : Properties) : Bool :=
  p.size == q.size && p.entries.all fun e =>
    match q.get? e.1 with
    | some v => e.2.equal v
    | none => false

end Properties

end MapStyle
