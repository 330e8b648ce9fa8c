import Mathlib
import MapStyle.Resolver
import MapStyle.Cql.Expr
import MapStyle.Cql.Reading
import MapStyle.Proofs.Cascade.Properties
import MapStyle.Proofs.Reading.Alignment

/-!
# Stylesheets one behind the other

A stylesheet that has been read to its end leaves the reader as it was at the start, but for what has
been finished. So reading two token lists in one go is reading them apart and putting the results
together, and for a resolver it makes no difference whether two stylesheets are joined.
-/

namespace MapStyle

variable {P : Type}

/-- A stylesheet that has been read behind others: what was finished before comes first. -/
def Parsed.within (s : Surroundings P) (p : Parsed P) : Parsed P :=
  ⟨{ rules := s.rules ++ p.sheet.rules, map := s.map p.sheet.map }, s.warnings ++ p.warnings⟩

/-- What two stylesheets say that are read one behind the other. -/
def Parsed.append (p q : Parsed P) : Parsed P :=
  ⟨{ rules := p.sheet.rules ++ q.sheet.rules, map := p.sheet.map.cascade q.sheet.map },
    p.warnings ++ q.warnings⟩

namespace Machine

variable {d : Dialect P} {m : Machine P}

/-! ### Reading in surroundings -/

/-- Surroundings that show in nothing but what is finished in the end. -/
structure Behind (d : Dialect P) (s : Surroundings P) : Prop where
  control : s.control = id
  last : s.last = id
  joins : s.Joins d.duplicateKeys

variable {s : Surroundings P}

lemma Behind.control_within (h : Behind d s) (m : Machine P) : (m.within s).control = m.control :=
  congrFun h.control _

lemma Behind.last_within (h : Behind d s) (m : Machine P) : (m.within s).last = m.last :=
  congrFun h.last _

lemma Behind.setControl (h : Behind d s) (m : Machine P) (control : List Mode) :
    { m.within s with control } = { m with control }.within s := by
  simp [within, h.control]

lemma Behind.setLast (h : Behind d s) (m : Machine P) (last : Location) :
    { m.within s with last } = { m with last }.within s := by
  simp [within, h.last]

lemma Behind.stepEnd (h : Behind d s) (m : Machine P) (mode : Mode) :
    (m.within s).stepEnd mode = m.stepEnd mode := by
  cases mode with
  | root => rfl
  | rule =>
    simp only [Machine.stepEnd, h.last_within, inRuleBody_within]
    rfl
  | filter => simp only [Machine.stepEnd, within_context]
  | declaration | call | reference | map => simp only [Machine.stepEnd, h.last_within]

lemma Behind.finish (h : Behind d s) (m : Machine P) (ts : List Token) :
    (m.within s).finish ts = (m.finish ts).map (Parsed.within s) := by
  cases ts with
  | cons t ts => rfl
  | nil =>
    simp only [Machine.finish, within_fragments, within_context, h.last_within,
      apply_ite (Except.map (Parsed.within s))]
    rfl

lemma Behind.openMap (h : Behind d s) (m : Machine P) (ts : List Token) :
    (m.within s).openMap ts = (m.openMap ts).map (Prod.map (within s) id) := by
  simp only [Machine.openMap, h.last_within]
  split
  · rfl
  · simp only [apply_ite (Except.map (Prod.map (within s) id))]
    simp [Except.map, within, h.last]

lemma Behind.next (h : Behind d s) (o : Outcome P) (mode : Mode) (below : List Mode) (t : Token)
    (ts : List Token) : (o.map (within s)).next mode below t ts =
      ((o.next mode below t ts).1.within s, (o.next mode below t ts).2) := by
  cases o <;> simp only [Outcome.map, Outcome.next, h.setControl]

/-- Reading behind what was finished before does the same as reading alone. -/
theorem read_within (h : Behind d s) (m : Machine P) (ts : List Token) :
    read d (m.within s) ts = (read d m ts).map (Parsed.within s) := by
  -- each step within what was finished is the step alone, with that put in front again
  induction m, ts using read_induction (d := d) with
  | done m ts hcontrol =>
    rw [read_of_control_nil hcontrol, read_of_control_nil ((h.control_within m).trans hcontrol),
      h.finish]
  | ends m mode below hcontrol hopened ih =>
    rw [read_nil hcontrol hopened, read_nil ((h.control_within m).trans hcontrol) hopened, h.stepEnd,
      h.setControl]
    cases hend : m.stepEnd mode with
    | error e => rfl
    | ok _ => exact ih hend
  | steps m mode below t ts hcontrol hopened ih =>
    rw [read_cons hcontrol hopened, read_cons ((h.control_within m).trans hcontrol) hopened,
      h.setLast, step_within s _ t h.joins]
    cases hstep : step d mode { m with last := t.location } t with
    | error e => rfl
    | ok o =>
      change read d ((o.map (within s)).next mode below t ts).1 _ = _
      rw [h.next]
      exact ih o hstep
  | opens m below ts hcontrol hunopened ih =>
    rw [read_of_unopened hcontrol hunopened,
      read_of_unopened ((h.control_within m).trans hcontrol) hunopened, h.openMap]
    cases hmap : m.openMap ts with
    | error e => rfl
    | ok p => exact ih p.1 p.2 hmap

/-! ### Reading what comes behind -/

lemma next_append (o : Outcome P) (mode : Mode) (below : List Mode) (t : Token) (ts us : List Token) :
    o.next mode below t (ts ++ us) =
      ((o.next mode below t ts).1, (o.next mode below t ts).2 ++ us) := by
  cases o <;> rfl

lemma openMap_append {ts rest : List Token} {n : Machine P} (h : m.openMap ts = .ok (n, rest))
    (us : List Token) : m.openMap (ts ++ us) = .ok (n, rest ++ us) := by
  unfold openMap at h ⊢
  cases ts with
  | nil => cases h
  | cons t ts =>
    rw [List.cons_append, List.tail_cons, List.dropWhile_append]
    rw [List.tail_cons] at h
    split at h
    · cases h
    · next brace vs hbrace =>
      rw [hbrace] at *
      split at h
      · next hdelimiter => cases h; simp [hdelimiter]
      · cases h

/-- The top level does not end before the tokens do. -/
lemma control_next_stepRoot {t : Token} {o : Outcome P} (hstep : stepRoot d m t = .ok o)
    (below : List Mode) (ts : List Token) : (o.next .root below t ts).1.control ≠ [] := by
  unfold stepRoot at hstep
  split at hstep
  · cases hstep
    exact List.cons_ne_nil _ _
  split at hstep
  · cases hclose : m.closeBlock d.duplicateKeys t with
    | error e => rw [hclose] at hstep; cases hstep
    | ok n =>
      rw [hclose] at hstep
      cases hstep
      exact List.cons_ne_nil _ _
  split at hstep
  · cases hstep
    exact List.cons_ne_nil _ _
  split at hstep
  · cases hstep
    exact List.cons_ne_nil _ _
  · cases hstep

lemma control_next_ne_nil {mode : Mode} {below : List Mode} {t : Token} {ts : List Token}
    {o : Outcome P} (h : Aligned (mode :: below) m.context m.fragments (t :: ts))
    (hstep : step d mode m t = .ok o) : (o.next mode below t ts).1.control ≠ [] := by
  cases below with
  | cons mode' below => cases o <;> exact List.cons_ne_nil _ _
  | nil =>
    obtain rfl := h.eq_root
    exact control_next_stepRoot hstep [] ts

/-- The state of a reader behind a stylesheet that it has read. -/
def behind (p : Parsed P) (last : Location) : Machine P :=
  { rules := p.sheet.rules, map := p.sheet.map, warnings := p.warnings, last }

/-- The top level may end with the tokens. -/
lemma read_nil_of_root (hcontrol : m.control = [.root]) : read d m [] = m.finish [] := by
  rw [read_nil hcontrol nofun, stepEnd, Except.bind, read_of_control_nil rfl]
  rfl

/-- A reading comes to a good end at the top level only. -/
lemma eq_behind_of_read_nil {p : Parsed P} {mode : Mode} {below : List Mode}
    (hmode : m.control = mode :: below) (hopened : mode = .map → m.inMapBody)
    (h : Aligned m.control m.context m.fragments []) (hread : read d m [] = .ok p) :
    m = behind p m.last := by
  rw [hmode] at h
  cases mode with
  | root =>
    obtain ⟨control, context, fragments, rules, map, warnings, last⟩ := m
    cases hmode
    cases h with
    | nest h =>
      cases h
      rw [read_nil_of_root rfl] at hread
      cases hread
      rfl
  | filter =>  -- behind a filter, the selectors still lack their block
    obtain ⟨below, rfl⟩ : ∃ below', below = .rule :: below' := by
      generalize m.context = context, m.fragments = fragments at h
      cases h with
      | nest h => cases h
      | filter h => exact ⟨_, rfl⟩
    rw [read_nil hmode hopened] at hread
    cases hend : m.stepEnd .filter with
    | error e => rw [hend] at hread; cases hread
    | ok _ =>
      rw [hend] at hread
      have hrule : ({ m with control := .rule :: below } : Machine P).control = .rule :: below := rfl
      change read d { m with control := .rule :: below } [] = _ at hread
      rw [read_nil hrule nofun] at hread
      cases hread
  | rule => rw [read_nil hmode hopened] at hread; cases hread
  | declaration => rw [read_nil hmode hopened] at hread; cases hread
  | call => rw [read_nil hmode hopened] at hread; cases hread
  | reference => rw [read_nil hmode hopened] at hread; cases hread
  | map => rw [read_nil hmode hopened] at hread; cases hread

/-- Behind a stylesheet, reading goes on from a state that shows nothing of it but what it says. -/
theorem read_append {ts : List Token} {p : Parsed P}
    (h : Aligned m.control m.context m.fragments ts) (hcontrol : m.control ≠ [])
    (hread : read d m ts = .ok p) :
    ∃ last, ∀ us, read d m (ts ++ us) = read d (behind p last) us := by
  induction m, ts using read_induction (d := d) with
  | done m ts hnil => exact absurd hnil hcontrol
  | ends m mode below hmode hopened ih =>
    -- at the end of the first stylesheet the reader is behind it already
    refine ⟨m.last, fun us => ?_⟩
    rw [List.nil_append, ← eq_behind_of_read_nil hmode hopened h hread]
  | steps m mode below t ts hmode hopened ih =>
    rw [hmode] at h
    rw [read_cons hmode hopened] at hread
    have hstep := aligned_step (d := d) (m := { m with last := t.location }) h hopened
    cases hresult : step d mode { m with last := t.location } t with
    | error e => rw [hresult] at hread; cases hread
    | ok o =>
      rw [hresult] at hstep hread
      obtain ⟨last, hlast⟩ := ih o hresult hstep
        (control_next_ne_nil (m := { m with last := t.location }) h hresult) hread
      -- the step does not look at the tokens that are left
      refine ⟨last, fun us => ?_⟩
      rw [List.cons_append, read_cons hmode hopened, hresult, ← hlast us]
      change read d (o.next mode below t (ts ++ us)).1 (o.next mode below t (ts ++ us)).2 = _
      rw [next_append]
  | opens m below ts hmode hunopened ih =>
    rw [read_of_unopened hmode hunopened] at hread
    have hopen := aligned_openMap h hmode hunopened
    cases hmap : m.openMap ts with
    | error e => rw [hmap] at hread; cases hread
    | ok q =>
      obtain ⟨n, rest⟩ := q
      rw [hmap] at hopen hread
      have hn := (openMap_eq_ok hmap below).2.1.trans hmode
      obtain ⟨last, hlast⟩ := ih n rest hmap (hn ▸ hopen) (by simp [hn]) hread
      -- the brace of the block is among the tokens of the first stylesheet
      refine ⟨last, fun us => ?_⟩
      rw [read_of_unopened hmode hunopened, openMap_append hmap, ← hlast us]
      rfl

/-- The place of the last token shows in nothing that is read from the top level on. -/
lemma read_behind_last (p : Parsed P) (last last' : Location) (ts : List Token) :
    read d (behind p last) ts = read d (behind p last') ts := by
  have hcontrol : ∀ last, (behind p last).control = [.root] := fun _ => rfl
  cases ts with
  | nil =>
    rw [read_nil_of_root (hcontrol _), read_nil_of_root (hcontrol _)]
    rfl
  | cons t ts =>
    rw [read_cons (hcontrol _) nofun, read_cons (hcontrol _) nofun]
    rfl

end Machine

/-! ### Two stylesheets as one -/

/-- Reading a token list behind one that is a stylesheet is reading it alone and putting the results
together. -/
lemma Dialect.parseTokens_append_eq (d : Dialect P) (hpolicy : d.duplicateKeys = .overwrite)
    {ts us : List Token} {p : Parsed P} (hp : d.parseTokens ts = .ok p) :
    d.parseTokens (ts ++ us) = (d.parseTokens us).map p.append := by
  let s : Surroundings P := {
    rules := p.sheet.rules
    map := p.sheet.map.cascade
    warnings := p.warnings }
  have hs : Machine.Behind d s := by
    refine ⟨rfl, rfl, fun map block => ?_⟩
    rw [hpolicy]
    exact (Properties.cascade_assoc ..).symm
  rw [Machine.parseTokens_eq_read] at hp
  obtain ⟨last, hlast⟩ := Machine.read_append (.nest .top) (List.cons_ne_nil _ _) hp
  have hstart : Machine.behind p {} = ({} : Machine P).within s := by
    simp only [Machine.behind, Machine.within, s, List.append_nil]
    rfl
  rw [Machine.parseTokens_eq_read, hlast, Machine.read_behind_last p last {}, hstart,
    Machine.read_within hs, Machine.parseTokens_eq_read]
  rfl

/-- For a resolver it makes no difference whether two stylesheets are one. -/
lemma Resolver.sheets_append {r s : Resolver P} {p q : Parsed P} {before after : List (Sheet P)}
    (hr : r.sheets = before ++ p.sheet :: q.sheet :: after)
    (hs : s.sheets = before ++ (p.append q).sheet :: after) :
    r.map = s.map ∧ ∀ layer, r.layerRules layer = s.layerRules layer := by
  constructor
  · simp only [map, hr, hs, List.foldl_append, List.foldl_cons, Properties.cascade_assoc]
    rfl
  · intro layer
    simp only [layerRules, hr, hs, List.flatMap_append, List.flatMap_cons, Parsed.append,
      RuleList.selectById, RuleList.flatten, List.filter_append, List.append_assoc]

/-- Behind a token list that is a stylesheet, another one reads as it does alone. If it is a stylesheet
too, both together are one: with the rules and the warnings of the first and then those of the second,
with the map of the second on top of that of the first, and of the same effect as the two of them in a
resolver. If it has a fault, that is the fault of both together. -/
theorem Dialect.parseTokens_append [Predicate P] (d : Dialect P)
    (hpolicy : d.duplicateKeys = .overwrite) {ts us : List Token} {p : Parsed P}
    (hp : d.parseTokens ts = .ok p) :
    (∀ q, d.parseTokens us = .ok q → d.parseTokens (ts ++ us) = .ok (p.append q) ∧
      ∀ (before after : List (Sheet P)) (r s : Resolver P),
        r.sheets = before ++ p.sheet :: q.sheet :: after →
        s.sheets = before ++ (p.append q).sheet :: after →
        r.map = s.map ∧ ∀ layer, r.layerRules layer = s.layerRules layer ∧
          r.fields layer = s.fields layer ∧ ∀ c, r.resolve layer c = s.resolve layer c) ∧
    ∀ e, d.parseTokens us = .error e → d.parseTokens (ts ++ us) = .error e := by
  rw [d.parseTokens_append_eq hpolicy hp]
  constructor
  · intro q hq
    refine ⟨by rw [hq]; rfl, fun before after r s hr hs => ?_⟩
    obtain ⟨hmap, hrules⟩ := Resolver.sheets_append hr hs
    refine ⟨hmap, fun layer => ⟨hrules layer, ?_, fun c => ?_⟩⟩
    · rw [Resolver.fields, Resolver.fields, hrules]
    · rw [Resolver.resolve, Resolver.resolve, hrules]
  · intro e he
    rw [he]
    rfl

namespace Dialect

/-- Stylesheets with filters in the query language. -/
def cql : Dialect Cql.Expr := { engine := Cql.Expr.parse }

/-- The tokens of `*{width:wide}`. -/
def wideTokens : List Token :=
  [⟨.operator, "*", "*", ⟨1, 1⟩⟩, ⟨.delimiter, "\x7b", "\x7b", ⟨1, 2⟩⟩,
    ⟨.identifier, "width", "width", ⟨1, 3⟩⟩, ⟨.delimiter, ":", ":", ⟨1, 8⟩⟩,
    ⟨.identifier, "wide", "wide", ⟨1, 9⟩⟩, ⟨.delimiter, "\x7d", "\x7d", ⟨1, 13⟩⟩]

/-- The rule of `*{width:wide}`. -/
def wide : Rule Cql.Expr :=
  .ofSelectors [{ wildcard := true }] (.ofList [("width", .literal (.string "wide"))])

/-- The tokens of `map{zoom:near}`. -/
def nearTokens : List Token :=
  [⟨.identifier, "map", "map", ⟨1, 1⟩⟩, ⟨.delimiter, "\x7b", "\x7b", ⟨1, 4⟩⟩,
    ⟨.identifier, "zoom", "zoom", ⟨1, 5⟩⟩, ⟨.delimiter, ":", ":", ⟨1, 9⟩⟩,
    ⟨.identifier, "near", "near", ⟨1, 10⟩⟩, ⟨.delimiter, "\x7d", "\x7d", ⟨1, 14⟩⟩]

/-- The properties of `map{zoom:near}`. -/
def near : Properties := .ofList [("zoom", .literal (.string "near"))]

/-- The two stylesheets in a row are the rule of the one and the map of the other. -/
theorem parseTokens_wide_near :
    cql.parseTokens wideTokens = .ok ⟨{ rules := [wide] }, []⟩ ∧
      cql.parseTokens (wideTokens ++ nearTokens) = .ok ⟨{ rules := [wide], map := near }, []⟩ := by
  have hwide : cql.parseTokens wideTokens = .ok ⟨{ rules := [wide] }, []⟩ := by cbv
  have hnear : cql.parseTokens nearTokens = .ok ⟨{ map := near }, []⟩ := by cbv
  exact ⟨hwide, ((cql.parseTokens_append rfl hwide).1 _ hnear).1⟩

end Dialect

end MapStyle
