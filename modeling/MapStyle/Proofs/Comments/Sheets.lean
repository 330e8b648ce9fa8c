import MapStyle.Cql.Reading
import MapStyle.Proofs.Comments.Tokens
import MapStyle.Proofs.Reading.Sheets

/-!
# Comments in stylesheets

The grammar of stylesheets asks what tokens say. Only the text of a filter is made of what was written,
and white space counts as one blank there. So a comment at a fitting place changes neither the rules
nor the warnings, but for the places of these. In front of a number a comment does not fit: it becomes
part of the number's text.
-/

namespace MapStyle

open Token

variable {P : Type}

namespace Token

section

variable {t t' : Token}

lemma Alike.isWord (h : Alike t t') (hword : t.IsWord) : t'.IsWord := by
  rwa [IsWord, h.kind]

lemma Alike.numberLiteral_eq (h : Alike t t') : t'.numberLiteral = t.numberLiteral := by
  rw [numberLiteral, numberLiteral, h.text]

lemma Alike.numberWarnings_eq (h : Alike t t') :
    t'.numberWarnings.map (·.text) = t.numberWarnings.map (·.text) := by
  rw [numberWarnings, numberWarnings, h.text]
  split <;> rfl

end

end Token

namespace Grammar

section

variable {t t' : Token} {ts ts' rest : List Token} {ws : List Warning} {functions : Registry}
  {v : Value}

/-! ### Values -/

lemma Blanks.respelled (h : Blanks ts rest) (hts : Respelled false ts ts') :
    ∃ rest', Blanks ts' rest' ∧ Respelled false rest rest' := by
  induction h generalizing ts' with
  | none => exact ⟨ts', .none, hts⟩
  | more h _ ih =>
    cases hts with
    | cons ht _ hts =>
      obtain ⟨rest', hblanks, hrest⟩ := ih hts.outside
      exact ⟨rest', .more (ht.isWhitespace_eq ▸ h) hblanks, hrest⟩

/-- The token behind blanks is found behind other blanks, too. -/
lemma Blanks.respelled_cons (h : Blanks ts (t :: rest)) (hts : Respelled false ts ts') :
    ∃ t' rest', Blanks ts' (t' :: rest') ∧ Alike t t' ∧ Respelled false rest rest' := by
  obtain ⟨us, hblanks, hus⟩ := h.respelled hts
  cases hus with
  | cons ht _ hrest => exact ⟨_, _, hblanks, ht, hrest.outside⟩

lemma Reference.respelled {name : String} (h : Reference ts name rest)
    (hts : Respelled false ts ts') :
    ∃ rest', Reference ts' name rest' ∧ Respelled false rest rest' := by
  cases h with
  | intro hopen hbefore hword hbehind hclose =>
    cases hts with
    | cons ht _ hts =>
      obtain ⟨word', us', hbefore', hword', hus⟩ := hbefore.respelled_cons hts.outside
      obtain ⟨u', rest', hbehind', hu, hrest⟩ := hbehind.respelled_cons hus
      have hreference := Reference.intro (ht.isDelimiter_eq ▸ hopen) hbefore' (hword'.isWord hword)
        hbehind' (hu.isDelimiter_eq ▸ hclose)
      exact ⟨rest', hword'.text ▸ hreference, hrest⟩

lemma Atom.respelled {a : Argument} (h : Atom ts a ws rest) (hts : Respelled false ts ts') :
    ∃ ws' rest', Atom ts' a ws' rest' ∧ ws'.map (·.text) = ws.map (·.text) ∧
      Respelled false rest rest' := by
  cases h with
  | word h =>
    cases hts with
    | cons ht _ hts => exact ⟨[], _, ht.text ▸ .word (ht.isWord h), rfl, hts.outside⟩
  | color h =>
    cases hts with
    | cons ht _ hts => exact ⟨[], _, ht.text ▸ .color (ht.kind.trans h), rfl, hts.outside⟩
  | number h =>
    cases hts with
    | cons ht _ hts =>
      exact ⟨_, _, ht.numberLiteral_eq ▸ .number (ht.kind.trans h), ht.numberWarnings_eq, hts.outside⟩
  | reference h =>
    obtain ⟨rest', hreference, hrest⟩ := h.respelled hts
    exact ⟨[], rest', .reference hreference, rfl, hrest⟩

lemma Arguments.respelled {as : List Argument} (h : Arguments ts as ws rest)
    (hts : Respelled false ts ts') : ∃ ws' rest', Arguments ts' as ws' rest' ∧
      ws'.map (·.text) = ws.map (·.text) ∧ Respelled false rest rest' := by
  induction h generalizing ts' with
  | last hbefore ha hbehind hclose =>
    obtain ⟨us', hbefore', hus⟩ := hbefore.respelled hts
    obtain ⟨ws', vs', ha', hws, hvs⟩ := ha.respelled hus
    obtain ⟨t', rest', hbehind', ht, hrest⟩ := hbehind.respelled_cons hvs
    exact ⟨ws', rest', .last hbefore' ha' hbehind' (ht.isDelimiter_eq ▸ hclose), hws, hrest⟩
  | more hbefore ha hbehind hcomma _ ih =>
    obtain ⟨us', hbefore', hus⟩ := hbefore.respelled hts
    obtain ⟨ws', vs', ha', hws, hvs⟩ := ha.respelled hus
    obtain ⟨t', rest', hbehind', ht, hrest⟩ := hbehind.respelled_cons hvs
    obtain ⟨ws'', rest'', hmore, hws', hrest⟩ := ih hrest
    refine ⟨ws' ++ ws'', rest'', .more hbefore' ha' hbehind' (ht.isDelimiter_eq ▸ hcomma) hmore, ?_,
      hrest⟩
    rw [List.map_append, List.map_append, hws, hws']

lemma Call.respelled (h : Call functions ts v ws rest) (hts : Respelled false ts ts') :
    ∃ ws' rest', Call functions ts' v ws' rest' ∧ ws'.map (·.text) = ws.map (·.text) ∧
      Respelled false rest rest' := by
  cases h with
  | empty hname hblanks hclose hv =>
    cases hts with
    | cons ht _ hts =>
      obtain ⟨u', rest', hblanks', hu, hrest⟩ := hblanks.respelled_cons hts.outside
      exact ⟨[], rest', .empty (ht.kind.trans hname) hblanks' (hu.isDelimiter_eq ▸ hclose)
        (ht.text ▸ hv), rfl, hrest⟩
  | applied hname hargs hv =>
    cases hts with
    | cons ht _ hts =>
      obtain ⟨ws', rest', hargs', hws, hrest⟩ := hargs.respelled hts.outside
      exact ⟨ws', rest', .applied (ht.kind.trans hname) hargs' (ht.text ▸ hv), hws, hrest⟩

lemma Item.respelled (h : Item functions ts v ws rest) (hts : Respelled false ts ts') :
    ∃ ws' rest', Item functions ts' v ws' rest' ∧ ws'.map (·.text) = ws.map (·.text) ∧
      Respelled false rest rest' := by
  cases h with
  | atom h =>
    obtain ⟨ws', rest', h', hrest⟩ := h.respelled hts
    exact ⟨ws', rest', .atom h', hrest⟩
  | call h =>
    obtain ⟨ws', rest', h', hrest⟩ := h.respelled hts
    exact ⟨ws', rest', .call h', hrest⟩

lemma Items.respelled {vs : List Value} (h : Items functions ts vs ws rest)
    (hts : Respelled false ts ts') : ∃ ws' rest', Items functions ts' vs ws' rest' ∧
      ws'.map (·.text) = ws.map (·.text) ∧ Respelled false rest rest' := by
  induction h generalizing ts' with
  | done => exact ⟨[], ts', .done, rfl, hts⟩
  | blank h _ ih =>
    cases hts with
    | cons ht _ hts =>
      obtain ⟨ws', rest', hmore, hrest⟩ := ih hts.outside
      exact ⟨ws', rest', .blank (ht.isWhitespace_eq ▸ h) hmore, hrest⟩
  | comma h _ ih =>
    cases hts with
    | cons ht _ hts =>
      obtain ⟨ws', rest', hmore, hrest⟩ := ih hts.outside
      exact ⟨ws', rest', .comma (ht.isDelimiter_eq ▸ h) hmore, hrest⟩
  | item h _ ih =>
    obtain ⟨ws', us', h', hws, hus⟩ := h.respelled hts
    obtain ⟨ws'', rest', hmore, hws', hrest⟩ := ih hus
    refine ⟨ws' ++ ws'', rest', .item h' hmore, ?_, hrest⟩
    rw [List.map_append, List.map_append, hws, hws']

lemma End.respelled (h : End ts rest) (hts : Respelled false ts ts') :
    ∃ rest', End ts' rest' ∧ Respelled false rest rest' := by
  cases hts with
  | nil => cases h
  | cons ht hraw hts =>
    cases h with
    | semicolon h => exact ⟨_, .semicolon (ht.isDelimiter_eq ▸ h), hts.outside⟩
    | brace h => exact ⟨_, .brace (ht.isDelimiter_eq ▸ h), .cons ht hraw hts⟩

lemma Declaration.respelled {key : String} (h : Declaration functions ts key v ws rest)
    (hts : Respelled false ts ts') : ∃ ws' rest', Declaration functions ts' key v ws' rest' ∧
      ws'.map (·.text) = ws.map (·.text) ∧ Respelled false rest rest' := by
  cases h with
  | intro hkey hbefore hcolon hbehind hfirst hothers hend hv =>
    cases hts with
    | cons ht _ hts =>
      obtain ⟨colon', us', hbefore', hcolon', hus⟩ := hbefore.respelled_cons hts.outside
      obtain ⟨us'', hbehind', hus⟩ := hbehind.respelled hus
      obtain ⟨ws', vs', hfirst', hws, hvs⟩ := hfirst.respelled hus
      obtain ⟨ws'', vs'', hothers', hws', hvs⟩ := hothers.respelled hvs
      obtain ⟨rest', hend', hrest⟩ := hend.respelled hvs
      have hdeclaration := Declaration.intro (ht.kind.trans hkey) hbefore'
        (hcolon'.isDelimiter_eq ▸ hcolon) hbehind' hfirst' hothers' hend' hv
      refine ⟨ws' ++ ws'', rest', ht.text ▸ hdeclaration, ?_, hrest⟩
      rw [List.map_append, List.map_append, hws, hws']

/-! ### Selectors -/

variable {engine : PredicateEngine P}

lemma bounds_eq (h : Alike t t') : bounds t' = bounds t := by
  have hsame : t'.isDelimiter = t.isDelimiter := funext fun _ => h.isDelimiter_eq
  rw [bounds, bounds, hsame]

lemma inside_of_not_bounds (h : ¬ bounds t) : inside true t := by
  have hclose : ¬ t.isDelimiter "]" := fun hclose =>
    h (List.any_eq_true.mpr ⟨"]", by simp, hclose⟩)
  rw [inside, if_neg hclose, ite_self]

/-- What a token adds to the text of a filter. -/
def filterPiece (t : Token) : String :=
  if t.isWhitespace then " " else t.raw

/-- Between the brackets of a filter the same was written, up to white space. -/
lemma respelled_inner {inner : List Token} (hinner : ∀ x ∈ inner, ¬ bounds x)
    (hts : Respelled true (inner ++ t :: rest) ts') :
    ∃ inner' t' rest', ts' = inner' ++ t' :: rest' ∧ (∀ x ∈ inner', ¬ bounds x) ∧
      inner'.map filterPiece = inner.map filterPiece ∧ Alike t t' ∧ Respelled false rest rest' := by
  induction inner generalizing ts' with
  | nil =>
    cases hts with
    | cons ht _ hts => exact ⟨[], _, _, rfl, nofun, rfl, ht, hts.outside⟩
  | cons x inner ih =>
    obtain ⟨hx, hinner⟩ := List.forall_mem_cons.mp hinner
    cases hts with
    | @cons _ _ x' _ us' hxx' hraw hts =>
      rw [inside_of_not_bounds hx] at hts
      obtain ⟨inner', t', rest', rfl, hinner', hpieces, ht, hrest⟩ := ih hinner hts
      have hpiece : filterPiece x' = filterPiece x := by
        rw [filterPiece, filterPiece, hxx'.isWhitespace_eq]
        split
        · rfl
        · next hblank => exact (hraw rfl).resolve_left hblank
      refine ⟨x' :: inner', t', rest', rfl, List.forall_mem_cons.mpr ⟨bounds_eq hxx' ▸ hx, hinner'⟩, ?_,
        ht, hrest⟩
      rw [List.map_cons, List.map_cons, hpiece, hpieces]

lemma Group.respelled {q : P} (h : Group engine ts q rest) (hts : Respelled false ts ts') :
    ∃ rest', Group engine ts' q rest' ∧ Respelled false rest rest' := by
  cases h with
  | intro hopen hinner hclose htext hq =>
    cases hts with
    | cons ht _ hts =>
      rw [inside, if_pos hopen] at hts
      obtain ⟨inner', u', rest', rfl, hinner', hpieces, hu, hrest⟩ := respelled_inner hinner hts
      have hsame : filterText inner' = filterText _ := congrArg (Text.trim ∘ String.join) hpieces
      exact ⟨rest', .intro (ht.isDelimiter_eq ▸ hopen) hinner' (hu.isDelimiter_eq ▸ hclose)
        (hsame ▸ htext) (hsame ▸ hq), hrest⟩

lemma FilterFollows.respelled (h : FilterFollows ts) (hts : Respelled false ts ts') :
    FilterFollows ts' := by
  obtain ⟨u, us, hblanks, hopen⟩ := h
  obtain ⟨u', us', hblanks', hu, -⟩ := hblanks.respelled_cons hts
  exact ⟨u', us', hblanks', hu.isDelimiter_eq ▸ hopen⟩

lemma Simple.respelled {x : SelectorPart P} (h : Simple ts x rest) (hts : Respelled false ts ts') :
    ∃ rest', Simple ts' x rest' ∧ Respelled false rest rest' := by
  cases h with
  | id h =>
    cases hts with
    | cons ht _ hts => exact ⟨_, ht.text ▸ .id (ht.kind.trans h), hts.outside⟩
  | name h =>
    cases hts with
    | cons ht _ hts => exact ⟨_, ht.text ▸ .name (ht.kind.trans h), hts.outside⟩
  | wildcard h =>
    cases hts with
    | cons ht _ hts => exact ⟨_, .wildcard (ht.isOperator_eq ▸ h), hts.outside⟩
  | className h hname =>
    cases hts with
    | cons ht _ hts =>
      cases hts with
      | cons hu _ hts =>
        exact ⟨_, hu.text ▸ .className (ht.isOperator_eq ▸ h) (hu.kind.trans hname), hts.outside⟩
  | attachment h h' hname =>
    cases hts with
    | cons ht _ hts =>
      cases hts with
      | cons hu _ hts =>
        cases hts with
        | cons hv _ hts =>
          exact ⟨_, hv.text ▸ .attachment (ht.isDelimiter_eq ▸ h) (hu.isDelimiter_eq ▸ h')
            (hv.kind.trans hname), hts.outside⟩

lemma Parts.respelled {filtered filtered' : Bool} {ps : List (SelectorPart P)}
    (h : Parts engine filtered ts ps filtered' rest) (hts : Respelled false ts ts') :
    ∃ rest', Parts engine filtered ts' ps filtered' rest' ∧ Respelled false rest rest' := by
  induction h generalizing ts' with
  | done => exact ⟨ts', .done, hts⟩
  | blank h _ ih =>
    cases hts with
    | cons ht _ hts =>
      obtain ⟨rest', hps, hrest⟩ := ih hts.outside
      exact ⟨rest', .blank (ht.isWhitespace_eq ▸ h) hps, hrest⟩
  | simple h _ ih =>
    obtain ⟨us', h', hus⟩ := h.respelled hts
    obtain ⟨rest', hps, hrest⟩ := ih hus
    exact ⟨rest', .simple h' hps, hrest⟩
  | narrowing h _ ih =>
    obtain ⟨us', h', hus⟩ := h.respelled hts
    obtain ⟨rest', hps, hrest⟩ := ih hus
    exact ⟨rest', .narrowing h' hps, hrest⟩
  | widening hcomma hblanks h _ ih =>
    cases hts with
    | cons ht _ hts =>
      obtain ⟨us', hblanks', hus⟩ := hblanks.respelled hts.outside
      obtain ⟨vs', h', hvs⟩ := h.respelled hus
      obtain ⟨rest', hps, hrest⟩ := ih hvs
      exact ⟨rest', .widening (ht.isDelimiter_eq ▸ hcomma) hblanks' h' hps, hrest⟩

lemma Selectors.respelled {ss : List (Selector P)} (h : Selectors engine ts ss rest)
    (hts : Respelled false ts ts') :
    ∃ rest', Selectors engine ts' ss rest' ∧ Respelled false rest rest' := by
  induction h generalizing ts' with
  | last hps hne hdistinct hbrace =>
    obtain ⟨us', hps', hus⟩ := hps.respelled hts
    cases hus with
    | cons ht _ hrest =>
      exact ⟨_, .last hps' hne hdistinct (ht.isDelimiter_eq ▸ hbrace), hrest.outside⟩
  | more hps hne hdistinct hcomma hnext _ ih =>
    obtain ⟨us', hps', hus⟩ := hps.respelled hts
    cases hus with
    | cons ht _ hus =>
      obtain ⟨rest', hmore, hrest⟩ := ih hus.outside
      -- that no filter follows the comma has to be carried over the other way
      have hnext' := fun hfiltered hfollows =>
        hnext hfiltered (FilterFollows.respelled hfollows hus.outside.symm)
      exact ⟨rest', .more hps' hne hdistinct (ht.isDelimiter_eq ▸ hcomma) hnext' hmore, hrest⟩

/-! ### Blocks -/

variable {d : Dialect P} {decls : List (String × Value)} {rs : List (Rule P)}

lemma Body.respelled (h : Body d ts decls rs ws rest) (hts : Respelled false ts ts') :
    ∃ ws' rest', Body d ts' decls rs ws' rest' ∧ ws'.map (·.text) = ws.map (·.text) ∧
      Respelled false rest rest' := by
  induction h generalizing ts' with
  | done h =>
    cases hts with
    | cons ht _ hts => exact ⟨[], _, .done (ht.isDelimiter_eq ▸ h), rfl, hts.outside⟩
  | blank h _ ih =>
    cases hts with
    | cons ht _ hts =>
      obtain ⟨ws', rest', hmore, hrest⟩ := ih hts.outside
      exact ⟨ws', rest', .blank (by rwa [ht.isWhitespace_eq, ht.isDelimiter_eq]) hmore, hrest⟩
  | declaration h _ ih =>
    obtain ⟨ws', us', h', hws, hus⟩ := h.respelled hts
    obtain ⟨ws'', rest', hmore, hws', hrest⟩ := ih hus
    refine ⟨ws' ++ ws'', rest', .declaration h' hmore, ?_, hrest⟩
    rw [List.map_append, List.map_append, hws, hws']
  | rule hstart hkey hselectors _ hrule _ ih ih' =>
    obtain ⟨us', hselectors', hus⟩ := hselectors.respelled hts
    obtain ⟨ws', vs', hbody, hws, hvs⟩ := ih hus
    obtain ⟨ws'', rest', hmore, hws', hrest⟩ := ih' hvs
    cases hts with
    | cons ht _ hts =>
      refine ⟨ws' ++ ws'', rest', .rule (ht.startsSelector_eq ▸ hstart) (ht.kind ▸ hkey) hselectors'
        hbody hrule hmore, ?_, hrest⟩
      rw [List.map_append, List.map_append, hws, hws']

lemma Stylesheet.respelled {blocks : List Properties} (h : Stylesheet d ts rs blocks ws)
    (hts : Respelled false ts ts') :
    ∃ ws', Stylesheet d ts' rs blocks ws' ∧ ws'.map (·.text) = ws.map (·.text) := by
  induction h generalizing ts' with
  | done =>
    cases hts
    exact ⟨[], .done, rfl⟩
  | blank h _ ih =>
    cases hts with
    | cons ht _ hts =>
      obtain ⟨ws', hmore, hws⟩ := ih hts.outside
      exact ⟨ws', .blank (ht.isWhitespace_eq ▸ h) hmore, hws⟩
  | map hkeyword hblanks hbrace h hblock _ ih =>
    cases hts with
    | cons ht _ hts =>
      obtain ⟨u', us', hblanks', hu, hus⟩ := hblanks.respelled_cons hts.outside
      obtain ⟨ws', vs', h', hws, hvs⟩ := h.respelled hus
      obtain ⟨ws'', hmore, hws'⟩ := ih hvs
      refine ⟨ws' ++ ws'', .map (ht.isKeyword_eq ▸ hkeyword) hblanks' (hu.isDelimiter_eq ▸ hbrace) h'
        hblock hmore, ?_⟩
      rw [List.map_append, List.map_append, hws, hws']
  | rule hstart hkeyword hselectors h hrule _ ih =>
    obtain ⟨us', hselectors', hus⟩ := hselectors.respelled hts
    obtain ⟨ws', vs', h', hws, hvs⟩ := h.respelled hus
    obtain ⟨ws'', hmore, hws'⟩ := ih hvs
    cases hts with
    | cons ht _ hts =>
      refine ⟨ws' ++ ws'', .rule (ht.startsSelector_eq ▸ hstart) (ht.isKeyword_eq ▸ hkeyword)
        hselectors' h' hrule hmore, ?_⟩
      rw [List.map_append, List.map_append, hws, hws']

end

end Grammar

namespace Dialect

variable {d : Dialect P} {p : Parsed P}

lemma parseTokens_respelled {ts ts' : List Token} (h : d.parseTokens ts = .ok p)
    (hts : Respelled false ts ts') : ∃ p', d.parseTokens ts' = .ok p' ∧ p'.sheet = p.sheet ∧
      p'.warnings.map (·.text) = p.warnings.map (·.text) := by
  obtain ⟨rs, blocks, map, ws, hsheet, hdepth, hmap, rfl⟩ := (d.parseTokens_eq_ok_iff ts p).mp h
  obtain ⟨ws', hsheet', hws⟩ := hsheet.respelled hts
  have hp := (d.parseTokens_eq_ok_iff ts' _).mpr ⟨rs, blocks, map, ws', hsheet', hdepth, hmap, rfl⟩
  exact ⟨_, hp, rfl, hws⟩

/-- A comment in a fitting gap of a stylesheet changes neither the sheet nor the warnings, but for the
places where these were found. -/
theorem parse_comment {pre post s : String} {before after : List (Lexeme × List Char)}
    (hgap : Gap d.maxDepth pre.toList post.toList before after) (hs : ¬ ['*', '/'] <:+: s.toList)
    (h : d.parse (pre ++ post) = .ok p) :
    ∃ p', d.parse (pre ++ "/*" ++ s ++ "*/" ++ post) = .ok p' ∧ p'.sheet = p.sheet ∧
      p'.warnings.map (·.text) = p.warnings.map (·.text) := by
  have hplain : String.ofList (pre.toList ++ post.toList) = pre ++ post := by simp
  have hcommented : String.ofList (pre.toList ++ (Lexeme.ofComment s.toList ++ post.toList)) =
      pre ++ "/*" ++ s ++ "*/" ++ post := by
    refine String.toList_inj.mp ?_
    simp [Lexeme.ofComment]
  rw [parse] at h
  cases hts : Token.ofText d.maxDepth (pre ++ post) with
  | error e =>
    rw [hts] at h
    cases h
  | ok ts =>
    rw [hts] at h
    obtain ⟨ts', hts', hrespelled⟩ := Token.ofText_insert hgap hs (hplain ▸ hts)
    obtain ⟨p', hp', hsame⟩ := parseTokens_respelled h hrespelled
    rw [hcommented] at hts'
    exact ⟨p', by rw [parse, hts']; exact hp', hsame⟩

/-- A sheet that is read and passes a test. -/
lemma exists_parse_of_any {text : String} {f : Parsed P → Bool} (h : (d.parse text).toOption.any f) :
    ∃ p, d.parse text = .ok p ∧ f p := by
  cases hp : d.parse text with
  | error e =>
    rw [hp] at h
    cases h
  | ok p =>
    rw [hp] at h
    exact ⟨p, rfl, h⟩

/-- The start of a stylesheet, up to a colour. -/
def roadFront : String := "#road[lanes > 1] \x7b width: 2em; color:"

/-- The rest of that stylesheet. -/
def roadBack : String := "red; \x7d"

/-- A comment in front of the colour makes no difference, although a warning stands before it. -/
theorem parse_comment_road : ∃ p p' : Parsed Cql.Expr,
    Dialect.parse { engine := Cql.Expr.parse } (roadFront ++ roadBack) = .ok p ∧
      Dialect.parse { engine := Cql.Expr.parse } (roadFront ++ "/*" ++ " as lit " ++ "*/" ++ roadBack) =
        .ok p' ∧
      p'.sheet = p.sheet ∧ p'.warnings.map (·.text) = p.warnings.map (·.text) := by
  obtain ⟨p, hp, -⟩ : ∃ p : Parsed Cql.Expr,
      Dialect.parse { engine := Cql.Expr.parse } (roadFront ++ roadBack) = .ok p ∧
        decide (p.warnings.length = 1) :=
    exists_parse_of_any (by decide +kernel)
  have hgap : Gap 64 roadFront.toList roadBack.toList (Lexeme.ofText roadFront.toList)
      (Lexeme.ofText roadBack.toList) := by decide +kernel
  obtain ⟨p', hp', hsame⟩ := parse_comment hgap (s := " as lit ") (by decide +kernel) hp
  exact ⟨p, p', hp, hp', hsame⟩

/-- The start of a stylesheet, up to a number. -/
def widthFront : String := "#road \x7b width: "

/-- The rest of that stylesheet. -/
def widthBack : String := "2; \x7d"

/-- The literals that the rules of a sheet give to a key. -/
def literalsOf (key : String) (s : Sheet P) : List (Option Literal) :=
  s.rules.map fun r => (r.properties.get? key).bind Value.asLiteral?

/-- In front of a number, a comment becomes part of the number's text, which is no number then. -/
theorem exists_parse_comment_ne : ∃ p p' : Parsed Cql.Expr,
    Lexeme.ofText (widthFront ++ widthBack).toList =
        Lexeme.ofText widthFront.toList ++ Lexeme.ofText widthBack.toList ∧
      Dialect.parse { engine := Cql.Expr.parse } (widthFront ++ widthBack) = .ok p ∧
      Dialect.parse { engine := Cql.Expr.parse } (widthFront ++ "/*" ++ "px" ++ "*/" ++ widthBack) =
        .ok p' ∧
      p'.sheet ≠ p.sheet ∧ p'.warnings.length ≠ p.warnings.length := by
  obtain ⟨p, hp, hplain⟩ : ∃ p : Parsed Cql.Expr,
      Dialect.parse { engine := Cql.Expr.parse } (widthFront ++ widthBack) = .ok p ∧
        decide (literalsOf "width" p.sheet = [some (.integer 2)] ∧ p.warnings.length = 0) :=
    exists_parse_of_any (by decide +kernel)
  obtain ⟨p', hp', hcommented⟩ : ∃ p' : Parsed Cql.Expr,
      Dialect.parse { engine := Cql.Expr.parse } (widthFront ++ "/*" ++ "px" ++ "*/" ++ widthBack) =
          .ok p' ∧
        decide (literalsOf "width" p'.sheet = [some (.string "/*px*/2")] ∧ p'.warnings.length = 1) :=
    exists_parse_of_any (by decide +kernel)
  obtain ⟨hliterals, hwarnings⟩ := of_decide_eq_true hplain
  obtain ⟨hliterals', hwarnings'⟩ := of_decide_eq_true hcommented
  refine ⟨p, p', by decide +kernel, hp, hp', fun hsheet => ?_, by omega⟩
  rw [hsheet, hliterals] at hliterals'
  exact absurd hliterals' (by decide)

end Dialect

end MapStyle
