import MapStyle.Proofs.Reading.Selectors

/-!
# Reading sheets

A body is read as the grammar has it wherever it stands, by induction on the tokens that are left and
on the derivation. So a token list is a stylesheet, with rules no deeper than allowed, exactly if it is
accepted, and it then says what the grammar makes of it.
-/

namespace MapStyle

open Grammar

variable {P : Type}

/-! ### Depth -/

/-- A rule fits at a depth if it may stand there and the rules in it fit one step further down. -/
lemma Rule.depth_ofSelectors_lt {ss : List (Selector P)} {p : Properties} {nested : List (Rule P)}
    {n k : Nat} :
    n + (ofSelectors ss p nested).depth < k ↔ n < k ∧ ∀ r ∈ nested, n + 1 + r.depth < k := by
  rw [ofSelectors, depth]
  induction nested with
  | nil => simp [depthList]
  | cons r rs ih =>
    rw [depthList, List.forall_mem_cons, and_left_comm, ← ih]
    omega

namespace Machine

variable {d : Dialect P} {p : Parsed P} {m : Machine P} {r : Rule P} {ws ws' : List Warning}
  {t : Token} {ts : List Token}

/-! ### Bodies of rules -/

/-- Reading goes on in the body of a rule that has been opened in a state. -/
def AcceptsBody (d : Dialect P) (p : Parsed P) (m : Machine P) (r : Rule P) (ws : List Warning)
    (ts : List Token) : Prop :=
  Accepts d p (.rule :: m.control) (.ruleBody :: m.context) (.rule r :: m.fragments) m.rules m.map ws ts

/-- Reading goes on behind a rule that was opened in a state: it is one of the rules of the sheet, or
nested in the rule around it. -/
def AcceptsClosed (d : Dialect P) (p : Parsed P) (m : Machine P) (r : Rule P) (ws : List Warning)
    (ts : List Token) : Prop :=
  match m.fragments with
  | [] => Accepts d p m.control m.context [] (m.rules ++ [r]) m.map ws ts
  | .rule parent :: outer => Accepts d p m.control m.context
    (.rule { parent with nested := parent.nested ++ [r] } :: outer) m.rules m.map ws ts
  | .map _ :: _ => False

/-- The state in the body of a rule that has been opened in a state. -/
def inside (m : Machine P) (r : Rule P) (ws : List Warning) : Machine P :=
  { m with
    control := .rule :: m.control
    context := .ruleBody :: m.context
    fragments := .rule r :: m.fragments
    warnings := ws }

/-- How many rules are open. -/
def level (m : Machine P) : Nat :=
  m.fragments.countP Fragment.isRule

lemma level_inside : (m.inside r ws).level = m.level + 1 :=
  List.countP_cons_of_pos rfl

lemma acceptsBody_cons :
    AcceptsBody d p m r ws (t :: ts) ↔ Leads d p .rule m.control t ts
      (stepBody ⟨.rule :: m.control, .ruleBody :: m.context, .rule r :: m.fragments, m.rules, m.map, ws,
        t.location⟩ t) :=
  accepts_cons (by nofun)

lemma acceptsBody_brace (hroot : m.fragments = [] → m.control = [.root]) (ht : t.isDelimiter "\x7d") :
    AcceptsBody d p m r ws (t :: ts) ↔ AcceptsClosed d p m r ws ts := by
  obtain ⟨raw, location, rfl⟩ := Token.eq_of_isDelimiter ht
  rw [acceptsBody_cons]
  obtain ⟨control, context, fragments, rules, map, warnings, last⟩ := m
  cases fragments with
  | nil =>
    obtain rfl : control = [.root] := hroot rfl
    simp [stepBody, accepts_cons, step, stepRoot, closeBlock, AcceptsClosed, Token.isDelimiter]
  | cons block outer =>
    cases block <;> simp [stepBody, closeNested, AcceptsClosed, Token.isDelimiter]

lemma acceptsBody_declaration (ht : t.kind = .identifier) :
    AcceptsBody d p m r ws (t :: ts) ↔ ∃ key v ws' rest,
      Grammar.Declaration d.functions (t :: ts) key v ws' rest ∧ AcceptsBody d p m
        { r with properties := d.duplicateKeys.declare key v r.properties } (ws ++ ws') rest := by
  have hopen : AcceptsBody d p m r ws (t :: ts) ↔ Accepts d p
      (.declaration :: (m.inside r ws).control) (.declaration {} :: (m.inside r ws).context)
      (m.inside r ws).fragments (m.inside r ws).rules (m.inside r ws).map ws (t :: ts) := by
    rw [acceptsBody_cons]
    simp [stepBody, pushFrame, inside, Token.isDelimiter, ht]
  rw [hopen, accepts_declaration ht]
  rfl

lemma acceptsBody_of_declaration {key : String} {v : Value} {rest : List Token}
    (hdecl : Grammar.Declaration d.functions ts key v ws' rest)
    (h : AcceptsBody d p m { r with properties := d.duplicateKeys.declare key v r.properties }
      (ws ++ ws') rest) : AcceptsBody d p m r ws ts := by
  cases ts with
  | nil => cases hdecl
  | cons t ts => exact (acceptsBody_declaration hdecl.kind_eq).mpr ⟨key, v, ws', rest, hdecl, h⟩

lemma acceptsBody_rule (ht : t.startsSelector) (hkey : t.kind ≠ .identifier) :
    AcceptsBody d p m r ws (t :: ts) ↔ ∃ ss rest, Selectors d.engine (t :: ts) ss rest ∧
      m.level + 1 < d.maxDepth ∧ AcceptsBody d p (m.inside r ws) (.ofSelectors ss) ws rest := by
  have hopen : AcceptsBody d p m r ws (t :: ts) ↔ Accepts d p (.rule :: (m.inside r ws).control)
      (.selectors [] {} :: (m.inside r ws).context) (m.inside r ws).fragments (m.inside r ws).rules
      (m.inside r ws).map (m.inside r ws).warnings (t :: ts) := by
    have hsemicolon : ¬ t.isDelimiter ";" := fun h =>
      Token.not_startsSelector h (by decide) (by decide) ht
    have hbrace : ¬ t.isDelimiter "\x7d" := fun h =>
      Token.not_startsSelector h (by decide) (by decide) ht
    rw [acceptsBody_cons]
    obtain ⟨kind, raw, text, location⟩ := t
    cases kind with
    | whitespace => cases ht
    | identifier => exact absurd rfl hkey
    | _ => simp [stepBody, pushFrame, inside, ht, hsemicolon, hbrace]
  rw [hopen, accepts_selectors, ← level, level_inside]
  rfl

lemma acceptsBody_blank (ht : t.isWhitespace ∨ t.isDelimiter ";") :
    AcceptsBody d p m r ws (t :: ts) ↔ AcceptsBody d p m r ws ts := by
  rw [acceptsBody_cons]
  obtain ht | ht := ht
  · obtain ⟨raw, text, location, rfl⟩ := Token.eq_of_isWhitespace ht
    simp [stepBody, AcceptsBody]
  · obtain ⟨raw, location, rfl⟩ := Token.eq_of_isDelimiter ht
    simp [stepBody, AcceptsBody, Token.isDelimiter]

lemma not_acceptsBody_nil : ¬ AcceptsBody d p m r ws [] := by
  intro h
  rw [AcceptsBody, accepts_nil (by nofun)] at h
  cases h.1

/-- In a body, everything but a blank, a closing brace and a key starts a rule. -/
lemma startsSelector_of_acceptsBody (hblank : ¬ (t.isWhitespace ∨ t.isDelimiter ";"))
    (hbrace : ¬ t.isDelimiter "\x7d") (hkey : t.kind ≠ .identifier)
    (h : AcceptsBody d p m r ws (t :: ts)) : t.startsSelector := by
  rw [not_or] at hblank
  rw [acceptsBody_cons] at h
  refine Classical.byContradiction fun hstart => ?_
  obtain ⟨kind, raw, text, location⟩ := t
  cases kind with
  | whitespace => exact hblank.1 rfl
  | identifier => exact hkey rfl
  | _ => simp [stepBody, hblank.2, hbrace, hstart] at h

/-- A rule with what has been read of its body: declarations and nested rules. -/
def extend (policy : DuplicateKeys) (r : Rule P) (decls : List (String × Value)) (rs : List (Rule P)) :
    Rule P :=
  { r with properties := policy.declareAll decls r.properties, nested := r.nested ++ rs }

lemma extend_nil (policy : DuplicateKeys) (r : Rule P) : extend policy r [] [] = r := by
  cases r
  rw [extend, List.append_nil]
  rfl

lemma extend_nested (policy : DuplicateKeys) (r q : Rule P) (decls : List (String × Value))
    (rs : List (Rule P)) : extend policy { r with nested := r.nested ++ [q] } decls rs =
      extend policy r decls (q :: rs) := by
  simp [extend]

/-- Behind a nested rule, the body around it goes on. -/
lemma acceptsClosed_inside {q : Rule P} : AcceptsClosed d p (m.inside r ws) q ws' ts ↔
    AcceptsBody d p m { r with nested := r.nested ++ [q] } ws' ts := Iff.rfl

/-- The body of a rule is read as the grammar has it, if the rules in it are not too deep. -/
theorem acceptsBody_iff (hroot : m.fragments = [] → m.control = [.root]) :
    AcceptsBody d p m r ws ts ↔ ∃ decls rs ws' rest, Body d ts decls rs ws' rest ∧
      (∀ q ∈ rs, m.level + 1 + q.depth < d.maxDepth) ∧
      AcceptsClosed d p m (extend d.duplicateKeys r decls rs) (ws ++ ws') rest := by
  constructor
  · intro h
    -- what is left behind a declaration or a nested rule is shorter, but not one token shorter
    induction hn : ts.length using Nat.strongRecOn generalizing ts m r ws with
    | ind n ih =>
      subst hn
      cases ts with
      | nil => exact absurd h not_acceptsBody_nil
      | cons t ts =>
        by_cases hblank : t.isWhitespace ∨ t.isDelimiter ";"
        · rw [acceptsBody_blank hblank] at h
          obtain ⟨decls, rs, ws', rest, hbody, h⟩ := ih _ (Nat.lt_succ_self _) hroot h rfl
          exact ⟨decls, rs, ws', rest, .blank hblank hbody, h⟩
        by_cases hbrace : t.isDelimiter "\x7d"
        · rw [acceptsBody_brace hroot hbrace] at h
          exact ⟨[], [], [], ts, .done hbrace, nofun, by rwa [extend_nil, List.append_nil]⟩
        by_cases hkey : t.kind = .identifier
        · rw [acceptsBody_declaration hkey] at h
          obtain ⟨key, v, ws', us, hdecl, h⟩ := h
          obtain ⟨decls, rs, ws'', rest, hbody, hdepth, h⟩ := ih _ hdecl.length_lt hroot h rfl
          rw [List.append_assoc] at h
          exact ⟨_, rs, _, rest, .declaration hdecl hbody, hdepth, h⟩
        · have hstart := startsSelector_of_acceptsBody hblank hbrace hkey h
          rw [acceptsBody_rule hstart hkey] at h
          obtain ⟨ss, us, hss, hlevel, h⟩ := h
          obtain ⟨inner, nested, ws', vs, hinner, hdepth, h⟩ := ih _ hss.length_lt (by nofun) h rfl
          rw [level_inside] at hdepth
          -- behind the nested rule the same body goes on
          rw [acceptsClosed_inside] at h
          obtain ⟨decls, rs, ws'', rest, hbody, hdepth', h⟩ :=
            ih _ (Nat.lt_trans hinner.length_lt hss.length_lt) hroot h rfl
          rw [extend_nested, List.append_assoc] at h
          refine ⟨decls, _, _, rest, .rule hstart hkey hss hinner (isRule_iff.mpr rfl) hbody, ?_, h⟩
          exact List.forall_mem_cons.mpr ⟨Rule.depth_ofSelectors_lt.mpr ⟨hlevel, hdepth⟩, hdepth'⟩
  · rintro ⟨decls, rs, ws', rest, hbody, hdepth, h⟩
    induction hbody generalizing m r ws with
    | done hbrace =>
      rw [extend_nil, List.append_nil] at h
      exact (acceptsBody_brace hroot hbrace).mpr h
    | blank hblank _ ih => exact (acceptsBody_blank hblank).mpr (ih hroot hdepth h)
    | declaration hdecl _ ih =>
      rw [← List.append_assoc] at h
      exact acceptsBody_of_declaration hdecl (ih hroot hdepth h)
    | rule hstart hkey hss _ hrule _ ih ih' =>
      obtain rfl := isRule_iff.mp hrule
      obtain ⟨hinner, hdepth⟩ := List.forall_mem_cons.mp hdepth
      obtain ⟨hlevel, hnested⟩ := Rule.depth_ofSelectors_lt.mp hinner
      refine (acceptsBody_rule hstart hkey).mpr ⟨_, _, hss, hlevel, ?_⟩
      refine ih (by nofun) (by rwa [level_inside]) ?_
      rw [acceptsClosed_inside]
      refine ih' hroot hdepth ?_
      rwa [extend_nested, List.append_assoc]

/-! ### Bodies of `Map` blocks -/

variable {rules : List (Rule P)} {map q : Properties}

/-- Reading goes on at the top level. -/
def AcceptsTop (d : Dialect P) (p : Parsed P) (rules : List (Rule P)) (map : Properties)
    (ws : List Warning) (ts : List Token) : Prop :=
  Accepts d p [.root] [] [] rules map ws ts

/-- Reading goes on in the body of a `Map` block. -/
def AcceptsMap (d : Dialect P) (p : Parsed P) (rules : List (Rule P)) (map q : Properties)
    (ws : List Warning) (ts : List Token) : Prop :=
  Accepts d p [.map, .root] [.mapBody] [.map q] rules map ws ts

lemma not_acceptsMap_nil : ¬ AcceptsMap d p rules map q ws [] := by
  intro h
  rw [AcceptsMap, accepts_nil (fun _ => rfl)] at h
  cases h.1

lemma acceptsMap_blank (ht : t.isWhitespace ∨ t.isDelimiter ";") :
    AcceptsMap d p rules map q ws (t :: ts) ↔ AcceptsMap d p rules map q ws ts := by
  rw [AcceptsMap, accepts_cons (fun _ => rfl)]
  simp [step, stepMap, ht, AcceptsMap]

lemma acceptsMap_brace (ht : t.isDelimiter "\x7d") :
    AcceptsMap d p rules map q ws (t :: ts) ↔
      AcceptsTop d p rules (d.duplicateKeys.join map q) ws ts := by
  obtain ⟨raw, location, rfl⟩ := Token.eq_of_isDelimiter ht
  rw [AcceptsMap, accepts_cons (fun _ => rfl)]
  simp [step, stepMap, accepts_cons, stepRoot, closeBlock, Token.isWhitespace, Token.isDelimiter,
    AcceptsTop]

lemma acceptsMap_cons (hblank : ¬ (t.isWhitespace ∨ t.isDelimiter ";"))
    (hbrace : ¬ t.isDelimiter "\x7d") :
    AcceptsMap d p rules map q ws (t :: ts) ↔ t.kind = .identifier ∧ ∃ key v ws' rest,
      Grammar.Declaration d.functions (t :: ts) key v ws' rest ∧
        AcceptsMap d p rules map (d.duplicateKeys.declare key v q) (ws ++ ws') rest := by
  have hopen : AcceptsMap d p rules map q ws (t :: ts) ↔ t.kind = .identifier ∧ Accepts d p
      [.declaration, .map, .root] [.declaration {}, .mapBody] [.map q] rules map ws (t :: ts) := by
    rw [not_or] at hblank
    rw [AcceptsMap, accepts_cons (fun _ => rfl)]
    simp [step, stepMap, hblank, hbrace, pushFrame]
  rw [hopen]
  refine and_congr_right fun hkey => ?_
  exact accepts_declaration (m := ⟨[.map, .root], [.mapBody], [.map q], rules, map, ws, {}⟩) hkey

lemma acceptsMap_of_declaration {key : String} {v : Value} {rest : List Token}
    (hdecl : Grammar.Declaration d.functions ts key v ws' rest)
    (h : AcceptsMap d p rules map (d.duplicateKeys.declare key v q) (ws ++ ws') rest) :
    AcceptsMap d p rules map q ws ts := by
  cases ts with
  | nil => cases hdecl
  | cons t ts =>
    have hkey := hdecl.kind_eq
    refine (acceptsMap_cons ?_ ?_).mpr ⟨hkey, key, v, ws', rest, hdecl, h⟩
    · simp [Token.isWhitespace, Token.isDelimiter, hkey]
    · simp [Token.isDelimiter, hkey]

/-- The body of a `Map` block is read as the grammar has it. There are no rules in it. -/
lemma acceptsMap_iff :
    AcceptsMap d p rules map q ws ts ↔ ∃ decls ws' rest, Body d ts decls [] ws' rest ∧
      AcceptsTop d p rules (d.duplicateKeys.join map (d.duplicateKeys.declareAll decls q)) (ws ++ ws')
        rest := by
  constructor
  · intro h
    induction hn : ts.length using Nat.strongRecOn generalizing ts q ws with
    | ind n ih =>
      subst hn
      cases ts with
      | nil => exact absurd h not_acceptsMap_nil
      | cons t ts =>
        by_cases hblank : t.isWhitespace ∨ t.isDelimiter ";"
        · rw [acceptsMap_blank hblank] at h
          obtain ⟨decls, ws', rest, hbody, h⟩ := ih _ (Nat.lt_succ_self _) h rfl
          exact ⟨decls, ws', rest, .blank hblank hbody, h⟩
        by_cases hbrace : t.isDelimiter "\x7d"
        · rw [acceptsMap_brace hbrace] at h
          exact ⟨[], [], ts, .done hbrace, by rwa [List.append_nil]⟩
        · rw [acceptsMap_cons hblank hbrace] at h
          obtain ⟨_, key, v, ws', us, hdecl, h⟩ := h
          obtain ⟨decls, ws'', rest, hbody, h⟩ := ih _ hdecl.length_lt h rfl
          rw [List.append_assoc] at h
          exact ⟨_, _, rest, .declaration hdecl hbody, h⟩
  · rintro ⟨decls, ws', rest, hbody, h⟩
    -- the rules of the body are an index of the derivation, so they have to be a variable
    generalize hrs : ([] : List (Rule P)) = rs at hbody
    induction hbody generalizing q ws with
    | done hbrace =>
      rw [List.append_nil] at h
      exact (acceptsMap_brace hbrace).mpr h
    | blank hblank _ ih => exact (acceptsMap_blank hblank).mpr (ih h hrs)
    | declaration hdecl _ ih =>
      rw [← List.append_assoc] at h
      exact acceptsMap_of_declaration hdecl (ih h hrs)
    | rule => cases hrs

/-- A `Map` block is opened by the brace behind its keyword. -/
lemma accepts_map :
    Accepts d p [.map, .root] [] [] rules map ws (t :: ts) ↔ ∃ u us, Blanks ts (u :: us) ∧
      u.isDelimiter "\x7b" ∧ AcceptsMap d p rules map {} ws us := by
  have hopen : Accepts d p [.map, .root] [] [] rules map ws (t :: ts) ↔ ∃ u us,
      ts.dropWhile Token.isWhitespace = u :: us ∧ u.isDelimiter "\x7b" ∧
        AcceptsMap d p rules map {} ws us := by
    rw [Accepts, read_of_unopened rfl (by simp [inMapBody]), openMap, List.tail_cons]
    cases ts.dropWhile Token.isWhitespace with
    | nil => simp [Except.bind]
    | cons u us =>
      by_cases hbrace : u.isDelimiter "\x7b"
      · simp [hbrace, Except.bind, AcceptsMap, ← accepts_iff_read, and_assoc]
      · simp [hbrace, Except.bind]
  rw [hopen]
  constructor
  · rintro ⟨u, us, hdrop, hbrace, h⟩
    exact ⟨u, us, hdrop ▸ blanks_dropWhile ts, hbrace, h⟩
  · rintro ⟨u, us, hblanks, hbrace, h⟩
    exact ⟨u, us, hblanks.dropWhile_eq (Token.not_isWhitespace hbrace), hbrace, h⟩

/-! ### The top level -/

lemma acceptsTop_nil : AcceptsTop d p rules map ws [] ↔ p = ⟨{ rules, map }, ws⟩ := by
  rw [AcceptsTop, accepts_nil (by nofun), Accepts, read_of_control_nil rfl]
  simp [stepEnd, finish, eq_comm]

lemma acceptsTop_blank (ht : t.isWhitespace) :
    AcceptsTop d p rules map ws (t :: ts) ↔ AcceptsTop d p rules map ws ts := by
  obtain ⟨raw, text, location, rfl⟩ := Token.eq_of_isWhitespace ht
  simp [AcceptsTop, accepts_cons, step, stepRoot]

lemma acceptsTop_map (ht : t.isKeyword "map") :
    AcceptsTop d p rules map ws (t :: ts) ↔ ∃ u us decls ws' rest, Blanks ts (u :: us) ∧
      u.isDelimiter "\x7b" ∧ Body d us decls [] ws' rest ∧ AcceptsTop d p rules
        (d.duplicateKeys.join map (d.duplicateKeys.declareAll decls {})) (ws ++ ws') rest := by
  have hopen : AcceptsTop d p rules map ws (t :: ts) ↔
      Accepts d p [.map, .root] [] [] rules map ws (t :: ts) := by
    obtain ⟨kind, raw, text, location⟩ := t
    obtain ⟨rfl, hword⟩ : kind = .identifier ∧ Text.sameWord text "map" := by
      simpa [Token.isKeyword] using ht
    simp [AcceptsTop, accepts_cons, step, stepRoot, Token.isDelimiter, ht]
  rw [hopen, accepts_map]
  simp only [acceptsMap_iff]
  constructor
  · rintro ⟨u, us, hblanks, hbrace, decls, ws', rest, h⟩
    exact ⟨u, us, decls, ws', rest, hblanks, hbrace, h⟩
  · rintro ⟨u, us, decls, ws', rest, hblanks, hbrace, h⟩
    exact ⟨u, us, hblanks, hbrace, decls, ws', rest, h⟩

lemma acceptsTop_rule (hstart : t.startsSelector) (hkeyword : ¬ t.isKeyword "map") :
    AcceptsTop d p rules map ws (t :: ts) ↔ ∃ ss us decls nested ws' rest,
      Selectors d.engine (t :: ts) ss us ∧ Body d us decls nested ws' rest ∧
      (Rule.ofSelectors ss (d.duplicateKeys.declareAll decls {}) nested).depth < d.maxDepth ∧
      AcceptsTop d p (rules ++ [.ofSelectors ss (d.duplicateKeys.declareAll decls {}) nested]) map
        (ws ++ ws') rest := by
  -- the rule is opened at its first token, which is read again as a part of its selector
  have hopen : AcceptsTop d p rules map ws (t :: ts) ↔
      Accepts d p [.rule, .root] [.selectors [] {}] [] rules map ws (t :: ts) := by
    have hbrace : ¬ t.isDelimiter "\x7d" := fun h =>
      Token.not_startsSelector h (by decide) (by decide) hstart
    obtain ⟨kind, raw, text, location⟩ := t
    cases kind with
    | whitespace => cases hstart
    | _ => simp [AcceptsTop, accepts_cons, step, stepRoot, pushFrame, hstart, hkeyword, hbrace]
  let m : Machine P := ⟨[.root], [], [], rules, map, ws, {}⟩
  have hbody (ss : List (Selector P)) (us : List Token) : AcceptsOpened d p m ss us ↔ _ :=
    acceptsBody_iff (m := m) (r := .ofSelectors ss) fun _ => rfl
  rw [hopen]
  constructor
  · intro h
    obtain ⟨ss, us, hss, hlevel, h⟩ := (accepts_selectors (m := m)).mp h
    obtain ⟨decls, nested, ws', rest, hinner, hdepth, h⟩ := (hbody ss us).mp h
    refine ⟨ss, us, decls, nested, ws', rest, hss, hinner, ?_, h⟩
    -- the depth is that of the rule's level and of its nested rules
    rw [← Nat.zero_add (Rule.depth _)]
    exact Rule.depth_ofSelectors_lt.mpr ⟨hlevel, hdepth⟩
  · rintro ⟨ss, us, decls, nested, ws', rest, hss, hinner, hdepth, h⟩
    rw [← Nat.zero_add (Rule.depth _), Rule.depth_ofSelectors_lt] at hdepth
    exact (accepts_selectors (m := m)).mpr ⟨ss, us, hss, hdepth.1,
      (hbody ss us).mpr ⟨decls, nested, ws', rest, hinner, hdepth.2, h⟩⟩

/-- At the top level, everything but a blank starts a `Map` block or a rule. -/
lemma startsSelector_of_acceptsTop (hblank : ¬ t.isWhitespace)
    (h : AcceptsTop d p rules map ws (t :: ts)) : t.startsSelector := by
  refine Classical.byContradiction fun hstart => ?_
  obtain ⟨kind, raw, text, location⟩ := t
  cases kind with
  | whitespace => exact hblank rfl
  | identifier | colorLiteral => exact hstart rfl
  | _ =>
    simp [AcceptsTop, accepts_cons, step, stepRoot, closeBlock, hstart] at h

/-- A stylesheet is read as the grammar has it, if its rules are not too deep. -/
theorem acceptsTop_iff :
    AcceptsTop d p rules map ws ts ↔ ∃ rs blocks ws', Stylesheet d ts rs blocks ws' ∧
      (∀ r ∈ rs, r.depth < d.maxDepth) ∧
      p = ⟨{ rules := rules ++ rs, map := blocks.foldl d.duplicateKeys.join map }, ws ++ ws'⟩ := by
  constructor
  · intro h
    -- what is left behind a block or a rule is shorter, but not one token shorter
    induction hn : ts.length using Nat.strongRecOn generalizing ts rules map ws with
    | ind n ih =>
      subst hn
      cases ts with
      | nil =>
        obtain rfl := acceptsTop_nil.mp h
        exact ⟨[], [], [], .done, nofun, by simp⟩
      | cons t ts =>
        by_cases hblank : t.isWhitespace
        · rw [acceptsTop_blank hblank] at h
          obtain ⟨rs, blocks, ws', hsheet, h⟩ := ih _ (Nat.lt_succ_self _) h rfl
          exact ⟨rs, blocks, ws', .blank hblank hsheet, h⟩
        by_cases hkeyword : t.isKeyword "map"
        · rw [acceptsTop_map hkeyword] at h
          obtain ⟨u, us, decls, ws', vs, hblanks, hbrace, hbody, h⟩ := h
          have hlt : vs.length < (t :: ts).length := by
            have hblanks := hblanks.length_le
            have hbody := hbody.length_lt
            simp only [List.length_cons] at *
            omega
          -- the block comes before those that the rest of the sheet has
          obtain ⟨rs, blocks, ws'', hsheet, hdepth, rfl⟩ := ih _ hlt h rfl
          have hblock := DuplicateKeys.gathers_iff.mpr (Eq.refl (d.duplicateKeys.declareAll decls {}))
          exact ⟨rs, _, _, .map hkeyword hblanks hbrace hbody hblock hsheet, hdepth, by simp⟩
        -- what is no keyword starts a rule, which comes before the rules of the rest
        · have hstart := startsSelector_of_acceptsTop hblank h
          rw [acceptsTop_rule hstart hkeyword] at h
          obtain ⟨ss, us, decls, nested, ws', vs, hss, hbody, hdepth, h⟩ := h
          obtain ⟨rs, blocks, ws'', hsheet, hdepth', rfl⟩ :=
            ih _ (Nat.lt_trans hbody.length_lt hss.length_lt) h rfl
          refine ⟨_, blocks, _, .rule hstart hkeyword hss hbody (isRule_iff.mpr rfl) hsheet, ?_, ?_⟩
          · exact List.forall_mem_cons.mpr ⟨hdepth, hdepth'⟩
          · simp
  · rintro ⟨rs, blocks, ws', hsheet, hdepth, rfl⟩
    induction hsheet generalizing rules map ws with
    | done => exact acceptsTop_nil.mpr (by simp)
    | blank hblank _ ih => exact (acceptsTop_blank hblank).mpr (ih hdepth)
    | map hkeyword hblanks hbrace hbody hblock _ ih =>
      obtain rfl := DuplicateKeys.gathers_iff.mp hblock
      refine (acceptsTop_map hkeyword).mpr ⟨_, _, _, _, _, hblanks, hbrace, hbody, ?_⟩
      rw [← List.append_assoc]
      exact ih hdepth
    | rule hstart hkeyword hss hbody hrule _ ih =>
      obtain rfl := isRule_iff.mp hrule
      obtain ⟨hfirst, hdepth⟩ := List.forall_mem_cons.mp hdepth
      refine (acceptsTop_rule hstart hkeyword).mpr ⟨_, _, _, _, _, _, hss, hbody, hfirst, ?_⟩
      rw [List.append_cons, ← List.append_assoc]
      exact ih hdepth

end Machine

/-- A reader accepts the token lists that the grammar calls stylesheets, with rules no deeper than
allowed, and says of them what the grammar says. The properties of the map are what its blocks make up,
each block with the one value that a key has in it. -/
theorem Dialect.parseTokens_eq_ok_iff (d : Dialect P) (ts : List Token) (p : Parsed P) :
    d.parseTokens ts = .ok p ↔ ∃ rs blocks map ws, Stylesheet d ts rs blocks ws ∧
      (∀ r ∈ rs, r.depth < d.maxDepth) ∧ d.duplicateKeys.Gathers (blocks.flatMap (·.entries)) map ∧
      p = ⟨{ rules := rs, map }, ws⟩ := by
  have hmap (blocks : List Properties) (map : Properties) :
      d.duplicateKeys.Gathers (blocks.flatMap (·.entries)) map ↔
        map = blocks.foldl d.duplicateKeys.join {} := by
    rw [DuplicateKeys.gathers_iff, DuplicateKeys.foldl_join]
  have hread : d.parseTokens ts = .ok p ↔ Machine.AcceptsTop d p [] {} [] ts := by
    rw [Machine.parseTokens_eq_read]
    rfl
  rw [hread, Machine.acceptsTop_iff]
  constructor
  · rintro ⟨rs, blocks, ws, hsheet, hdepth, rfl⟩
    exact ⟨rs, blocks, _, ws, hsheet, hdepth, (hmap _ _).mpr rfl, rfl⟩
  · rintro ⟨rs, blocks, map, ws, hsheet, hdepth, hgathers, rfl⟩
    obtain rfl := (hmap _ _).mp hgathers
    exact ⟨rs, blocks, ws, hsheet, hdepth, rfl⟩

end MapStyle
