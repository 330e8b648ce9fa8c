import MapStyle.Proofs.Balance.Sheets
import MapStyle.Proofs.Nesting.Braces

/-!
# Rules within the depth of brackets

A reader never has more blocks open than braces are open in the tokens that it has read: a block is
opened with a brace, and any closing brace that is read closes a block. So where the brackets of a text
are not nested too deep, rules are not either.
-/

namespace MapStyle

variable {P : Type}

/-- Whether an error says that rules are nested too deep. -/
def Error.isTooDeep : Error → Bool
  | malformed (.rulesTooDeep _) _ _ => true
  | _ => false

namespace Machine

/-- An operation that succeeds with a certain result, or fails, but not because rules are nested too
deep. -/
def Admits {α : Type} (Q : α → Prop) : Except Error α → Prop
  | .error e => e.isTooDeep = false
  | .ok a => Q a

namespace Admits

variable {α β : Type} {Q : α → Prop} {R : β → Prop} {x y : Except Error α}

lemma map (h : Admits Q x) {f : α → β} (hf : ∀ a, Q a → R (f a)) : Admits R (x.map f) := by
  cases x with
  | error e => exact h
  | ok a => exact hf a h

lemma of_ite {c : Prop} [Decidable c] (hx : c → Admits Q x) (hy : ¬ c → Admits Q y) :
    Admits Q (if c then x else y) := by
  split
  · next h => exact hx h
  · next h => exact hy h

end Admits

variable {d : Dialect P} {m : Machine P} {t : Token} {n : Nat}

/-! ### Operations -/

/-- An operation that opens and closes no block, or fails, but not because rules are nested too deep. -/
def KeepsBlocks (m : Machine P) : Except Error (Machine P) → Prop :=
  Admits fun k => k.fragments.length = m.fragments.length

/-- A check that may find another fault. -/
lemma admits_check {α : Type} {c : Prop} [Decidable c] {e : Error} {a : α} (he : e.isTooDeep = false) :
    Admits (fun _ => True) (if c then .error e else .ok a) :=
  .of_ite (fun _ => he) fun _ => trivial

lemma keepsBlocks_updateSelector {f : Selector P → Except Error (Selector P)}
    (hf : ∀ s, Admits (fun _ => True) (f s)) : KeepsBlocks m (m.updateSelector t f) := by
  refine .map (Q := fun _ => True) ?_ fun _ _ => rfl
  induction m.context with
  | nil => rfl
  | cons frame below ih =>
    cases frame with
    | selectors earlier current => exact (hf current).map fun _ _ => trivial
    | _ => exact ih.map fun _ _ => trivial

lemma keepsBlocks_updateDeclaration {f : Declaration → Except Error Declaration}
    (hf : ∀ decl, Admits (fun _ => True) (f decl)) : KeepsBlocks m (m.updateDeclaration t f) := by
  unfold updateDeclaration
  split
  · exact (hf _).map fun _ _ => rfl
  · rfl

lemma admits_requireColon (decl : Declaration) : Admits (fun _ => True) (requireColon t decl) :=
  .of_ite (fun _ => trivial) fun _ => by rfl

lemma keepsBlocks_pushValue {v : Value} : KeepsBlocks m (m.pushValue t v) :=
  keepsBlocks_updateDeclaration fun decl => (admits_requireColon decl).map fun _ _ => trivial

lemma keepsBlocks_readWord : KeepsBlocks m (m.readWord t) :=
  keepsBlocks_updateDeclaration fun decl => .of_ite (fun _ => trivial) fun _ =>
    (admits_requireColon decl).map fun _ _ => trivial

lemma keepsBlocks_updateCall {f : OpenCall → Except Error OpenCall}
    (hf : ∀ c, Admits (fun _ => True) (f c)) : KeepsBlocks m (m.updateCall t f) := by
  unfold updateCall
  split
  · exact (hf _).map fun _ _ => rfl
  · rfl

lemma admits_requireArgument (c : OpenCall) : Admits (fun _ => True) (requireArgument t c) :=
  .of_ite (fun _ => trivial) fun _ => by rfl

lemma keepsBlocks_pushArgument {a : Argument} : KeepsBlocks m (m.pushArgument t a) :=
  keepsBlocks_updateCall fun c => (admits_requireArgument c).map fun _ _ => trivial

lemma keepsBlocks_closeCall {functions : Registry} : KeepsBlocks m (m.closeCall functions t) := by
  unfold closeCall
  split
  · refine .of_ite (fun _ => by rfl) fun _ => ?_
    split
    · rfl
    · exact keepsBlocks_pushValue
  · rfl

lemma keepsBlocks_closeReference : KeepsBlocks m (m.closeReference t) := by
  unfold closeReference
  split
  · dsimp only
    split
    · rfl
    · exact keepsBlocks_pushArgument
    · exact keepsBlocks_pushValue
  · rfl

lemma keepsBlocks_closeFilter {engine : PredicateEngine P} : KeepsBlocks m (m.closeFilter engine) := by
  unfold closeFilter
  split
  · refine .of_ite (fun _ => by rfl) fun _ => ?_
    split
    · rfl
    · split <;> exact keepsBlocks_updateSelector fun _ => trivial
  · rfl

lemma keepsBlocks_extendFilter : KeepsBlocks m (m.extendFilter t) := by
  unfold extendFilter
  split <;> rfl

lemma isTooDeep_of_combine {key : String} {vs : List Value} {fault : Fault}
    (h : combine key vs = .error fault) : (Error.atToken fault t).isTooDeep = false := by
  unfold combine at h
  split at h
  · cases h; rfl
  · cases h
  · split at h
    · cases h
    · split at h <;> cases h
      rfl

/-- A declaration changes the block that it is committed to, but opens and closes none. -/
lemma keepsBlocks_commit {policy : DuplicateKeys} : KeepsBlocks m (m.commit policy t) := by
  unfold commit
  split
  · next decl below _ =>
    cases decl.key with
    | none => rfl
    | some key =>
      refine .of_ite (fun _ => by rfl) fun _ => ?_
      split
      · next hcombine => exact isTooDeep_of_combine hcombine
      · rfl
      · next hfragments => simp [Admits, hfragments]
  · rfl

lemma admits_closeBlock {policy : DuplicateKeys} :
    Admits (fun k => k.fragments.length = m.fragments.length - 1) (m.closeBlock policy t) := by
  unfold closeBlock
  split
  · next hfragments => simp [Admits, hfragments]
  · next hfragments => simp [Admits, hfragments]
  · rfl

lemma admits_closeNested :
    Admits (fun k => k.fragments.length = m.fragments.length - 1) (m.closeNested t) := by
  unfold closeNested
  split
  · next hfragments =>
    split
    · simp [Admits, hfragments]
    · rfl
  · rfl

/-- Where fewer blocks are open than allowed, one more can be opened. -/
lemma admits_openRule {limit : Nat} (h : m.fragments.length < limit) :
    Admits (fun k => k.fragments.length = m.fragments.length + 1) (m.openRule limit t) := by
  unfold openRule
  split
  · refine .of_ite (fun _ => by rfl) fun _ => .of_ite (fun hlimit => ?_) fun _ => rfl
    exact absurd (Nat.le_trans hlimit List.countP_le_length) (Nat.not_le.mpr h)
  · rfl

end Machine

/-! ### Steps -/

/-- Behind a step no more blocks are open than braces, given how many braces are open before the token
and that a token counts once it has been read. -/
def Outcome.Within (n : Nat) (t : Token) : Outcome P → Prop
  | .stay m | .close m => m.fragments.length ≤ t.bracesBehind n
  | .enter _ m | .leave m => m.fragments.length ≤ n

namespace Token

variable {t : Token}

lemma le_bracesBehind (h : ¬ t.isDelimiter "\x7d") (n : Nat) : n ≤ t.bracesBehind n := by
  rw [bracesBehind, if_neg h]
  split <;> omega

lemma bracesBehind_opener (h : t.isDelimiter "\x7b") (n : Nat) : t.bracesBehind n = n + 1 :=
  if_pos h

lemma bracesBehind_closer (h : t.isDelimiter "\x7d") (n : Nat) : t.bracesBehind n = n - 1 := by
  rw [bracesBehind, if_neg (not_isDelimiter h (by decide)), if_pos h]

lemma bracesBehind_of_kind (h : t.kind ≠ .delimiter) (n : Nat) : t.bracesBehind n = n := by
  simp [bracesBehind, isDelimiter, h]

lemma Fits.dropWhile_isWhitespace {limit n : Nat} {ts : List Token} (h : Fits limit n ts) :
    Fits limit n (ts.dropWhile isWhitespace) := by
  induction ts with
  | nil => exact h
  | cons t ts ih =>
    by_cases hblank : t.isWhitespace
    · have hkind : t.kind = .whitespace := eq_of_beq hblank
      have hbehind : t.bracesBehind n = n := bracesBehind_of_kind (by simp [hkind]) n
      rw [List.dropWhile_cons_of_pos hblank]
      exact ih (hbehind ▸ h.2)
    · rwa [List.dropWhile_cons_of_neg hblank]

lemma not_isDelimiter_of_kind (h : t.kind ≠ .delimiter) (text : String) : ¬ t.isDelimiter text := by
  simp [isDelimiter, h]

lemma not_isDelimiter_of_text {text : String} (h : t.text ≠ text) : ¬ t.isDelimiter text := by
  simp [isDelimiter, h]

end Token

namespace Machine

variable {d : Dialect P} {m : Machine P} {t : Token} {n : Nat}

lemma length_fragments_nextSelector (k : Machine P) :
    k.nextSelector.fragments.length = k.fragments.length := by
  unfold nextSelector
  split <;> rfl

section

variable (h : m.fragments.length ≤ n)
include h

/-- A token other than a closing brace may be read without any change to the open blocks. -/
lemma within_stay {k : Machine P} (hk : k.fragments.length = m.fragments.length)
    (ht : ¬ t.isDelimiter "\x7d") : k.fragments.length ≤ t.bracesBehind n :=
  Nat.le_trans (Nat.le_of_eq hk) (Nat.le_trans h (Token.le_bracesBehind ht n))

lemma KeepsBlocks.within_stay {x : Except Error (Machine P)} (hx : KeepsBlocks m x)
    (ht : ¬ t.isDelimiter "\x7d") : Admits (Outcome.Within n t) (x.map .stay) :=
  .map hx fun _ hk => Machine.within_stay h hk ht

lemma KeepsBlocks.within_close {x : Except Error (Machine P)} (hx : KeepsBlocks m x)
    (ht : ¬ t.isDelimiter "\x7d") : Admits (Outcome.Within n t) (x.map .close) :=
  .map hx fun _ hk => Machine.within_stay h hk ht

lemma KeepsBlocks.within_enter {x : Except Error (Machine P)} {mode : Mode} (hx : KeepsBlocks m x) :
    Admits (Outcome.Within n t) (x.map (.enter mode)) :=
  .map hx fun _ hk => Nat.le_trans (Nat.le_of_eq hk) h

lemma KeepsBlocks.within_leave {x : Except Error (Machine P)} (hx : KeepsBlocks m x) :
    Admits (Outcome.Within n t) (x.map .leave) :=
  .map hx fun _ hk => Nat.le_trans (Nat.le_of_eq hk) h

/-- A closing brace that is read ends a block. -/
lemma within_closer {k : Machine P} (hk : k.fragments.length = m.fragments.length - 1)
    (ht : t.isDelimiter "\x7d") : k.fragments.length ≤ t.bracesBehind n := by
  rw [Token.bracesBehind_closer ht, hk]
  exact Nat.sub_le_sub_right h 1

lemma within_stepRoot : Admits (Outcome.Within n t) (stepRoot d m t) := by
  unfold stepRoot
  split
  · next hkind =>
    exact within_stay h rfl (Token.not_isDelimiter_of_kind (by simp [hkind]) _)
  · exact .of_ite (fun hbrace => .map admits_closeBlock fun _ hk => within_closer h hk hbrace) fun _ =>
      .of_ite (fun _ => h) fun _ => .of_ite (fun _ => h) fun _ => by rfl

lemma within_stepSelectorPart (hopen : t.isDelimiter "\x7b" → n < d.maxDepth) :
    Admits (Outcome.Within n t) (stepSelectorPart d m t) := by
  unfold stepSelectorPart
  split
  · next hkind => exact within_stay h rfl (Token.not_isDelimiter_of_kind (by simp [hkind]) _)
  · next hkind =>
    exact KeepsBlocks.within_stay h (keepsBlocks_updateSelector fun _ => admits_check rfl)
      (Token.not_isDelimiter_of_kind (by simp [hkind]) _)
  · next hkind =>
    exact KeepsBlocks.within_stay h (keepsBlocks_updateSelector fun _ => admits_check rfl)
      (Token.not_isDelimiter_of_kind (by simp [hkind]) _)
  · next hkind =>
    have ht := Token.not_isDelimiter_of_kind (t := t) (by simp [hkind]) "\x7d"
    exact .of_ite (fun _ => within_stay h rfl ht) fun _ => .of_ite (fun _ =>
      KeepsBlocks.within_stay h (keepsBlocks_updateSelector fun _ => trivial) ht) fun _ => by rfl
  · next hkind =>
    have ht {text : String} (htext : t.text = text) (hne : text ≠ "\x7d") : ¬ t.isDelimiter "\x7d" :=
      Token.not_isDelimiter_of_text (htext ▸ hne)
    refine .of_ite (fun htext => within_stay h rfl (ht htext (by decide))) fun _ =>
      .of_ite (fun htext => ?_) fun _ => .of_ite (fun _ => h) fun _ =>
      .of_ite (fun htext => ?_) fun _ => by rfl
    · refine .map (keepsBlocks_updateSelector fun _ => admits_check rfl) fun k hk => ?_
      exact within_stay h ((length_fragments_nextSelector k).trans hk) (ht htext (by decide))
    · have hbrace : t.isDelimiter "\x7b" := by simp [Token.isDelimiter, hkind, htext]
      refine .map (admits_openRule (Nat.lt_of_le_of_lt h (hopen hbrace))) fun k hk => ?_
      change k.fragments.length ≤ _
      rw [Token.bracesBehind_opener hbrace, hk]
      exact Nat.succ_le_succ h
  · rfl

lemma within_stepSelector (hopen : t.isDelimiter "\x7b" → n < d.maxDepth) :
    Admits (Outcome.Within n t) (stepSelector d m t) := by
  unfold stepSelector
  split
  · refine .of_ite (fun hkind => ?_) fun _ => by rfl
    exact KeepsBlocks.within_stay (m := m) h (keepsBlocks_updateSelector fun _ => trivial)
      (Token.not_isDelimiter_of_kind (by simp [hkind]) _)
  · exact .of_ite (fun hcolon => within_stay h rfl (Token.not_isDelimiter hcolon (by decide)))
      fun _ => by rfl
  · refine .of_ite (fun hkind => ?_) fun _ => by rfl
    exact KeepsBlocks.within_stay (m := m) h
      (keepsBlocks_updateSelector fun _ => admits_check rfl)
      (Token.not_isDelimiter_of_kind (by simp [hkind]) _)
  · exact within_stepSelectorPart h hopen

lemma within_stepBody : Admits (Outcome.Within n t) (stepBody m t) := by
  unfold stepBody
  split
  · next hkind => exact within_stay h rfl (Token.not_isDelimiter_of_kind (by simp [hkind]) _)
  · refine .of_ite (fun hsemicolon => within_stay h rfl (Token.not_isDelimiter hsemicolon (by decide)))
      fun _ => .of_ite (fun hbrace => .of_ite (fun _ => h) fun _ => ?_) fun _ =>
      .of_ite (fun _ => h) fun _ => .of_ite (fun _ => h) fun _ => by rfl
    exact .map admits_closeNested fun _ hk => within_closer h hk hbrace

lemma within_stepDeclaration : Admits (Outcome.Within n t) (stepDeclaration d m t) := by
  have ht {text : String} (htext : t.text = text) (hne : text ≠ "\x7d") : ¬ t.isDelimiter "\x7d" :=
    Token.not_isDelimiter_of_text (htext ▸ hne)
  unfold stepDeclaration
  split
  · next hkind => exact within_stay h rfl (Token.not_isDelimiter_of_kind (by simp [hkind]) _)
  · next hkind =>
    exact keepsBlocks_readWord.within_stay h (Token.not_isDelimiter_of_kind (by simp [hkind]) _)
  · next hkind =>
    rw [readNumber_eq]
    exact KeepsBlocks.within_stay (m := m) h keepsBlocks_pushValue
      (Token.not_isDelimiter_of_kind (by simp [hkind]) _)
  · next hkind =>
    exact keepsBlocks_pushValue.within_stay h (Token.not_isDelimiter_of_kind (by simp [hkind]) _)
  · next hkind =>
    exact keepsBlocks_pushValue.within_stay h (Token.not_isDelimiter_of_kind (by simp [hkind]) _)
  · exact (keepsBlocks_updateDeclaration admits_requireColon).within_enter h
  · refine .of_ite (fun htext => ?_) fun _ => .of_ite (fun htext => ?_) fun _ => .of_ite (fun _ => ?_)
      fun _ => .of_ite (fun htext => ?_) fun _ => .of_ite (fun _ => ?_) fun _ => by rfl
    · exact KeepsBlocks.within_stay h (keepsBlocks_updateDeclaration fun _ => admits_check rfl)
        (ht htext (by decide))
    · exact KeepsBlocks.within_stay h (keepsBlocks_updateDeclaration fun _ => admits_check rfl)
        (ht htext (by decide))
    · exact (keepsBlocks_updateDeclaration admits_requireColon).within_enter h
    · exact keepsBlocks_commit.within_close h (ht htext (by decide))
    · exact keepsBlocks_commit.within_leave h
  · rfl

lemma within_stepFilter : Admits (Outcome.Within n t) (stepFilter d m t) := by
  unfold stepFilter
  split
  · refine .of_ite (fun hclose => ?_) fun _ => .of_ite (fun _ => by rfl) fun hbounds => ?_
    · exact keepsBlocks_closeFilter.within_stay h (Token.not_isDelimiter hclose (by decide))
    · exact keepsBlocks_extendFilter.within_stay h fun hbrace => hbounds (by simp [hbrace])
  · refine .of_ite (fun hblank => ?_) fun _ => .of_ite (fun hopen => ?_) fun _ =>
      .of_ite (fun hcomma => .of_ite (fun _ => by rfl) fun _ => ?_) fun _ => .of_ite (fun _ => ?_)
      fun _ => h
    · exact within_stay h rfl fun hbrace => Token.not_isWhitespace hbrace hblank
    · exact within_stay h rfl (Token.not_isDelimiter hopen (by decide))
    · exact within_stay h rfl (Token.not_isDelimiter hcomma (by decide))
    · exact Nat.le_trans (Nat.le_of_eq (length_fragments_nextSelector m.dropFrame)) h

lemma within_stepArguments : Admits (Outcome.Within n t) (stepArguments d m t) := by
  have ht {text : String} (htext : t.text = text) (hne : text ≠ "\x7d") : ¬ t.isDelimiter "\x7d" :=
    Token.not_isDelimiter_of_text (htext ▸ hne)
  unfold stepArguments
  split
  · rfl
  · next hkind => exact within_stay h rfl (Token.not_isDelimiter_of_kind (by simp [hkind]) _)
  · next hkind =>
    exact keepsBlocks_pushArgument.within_stay h (Token.not_isDelimiter_of_kind (by simp [hkind]) _)
  · next hkind =>
    exact keepsBlocks_pushArgument.within_stay h (Token.not_isDelimiter_of_kind (by simp [hkind]) _)
  · next hkind =>
    exact keepsBlocks_pushArgument.within_stay h (Token.not_isDelimiter_of_kind (by simp [hkind]) _)
  · next hkind =>
    rw [readNumber_eq]
    exact KeepsBlocks.within_stay (m := m) h keepsBlocks_pushArgument
      (Token.not_isDelimiter_of_kind (by simp [hkind]) _)
  · refine .of_ite (fun htext => ?_) fun _ => .of_ite (fun _ => ?_) fun _ => .of_ite (fun htext => ?_)
      fun _ => by rfl
    · exact KeepsBlocks.within_stay h (keepsBlocks_updateCall fun _ => admits_check rfl)
        (ht htext (by decide))
    · exact (keepsBlocks_updateCall admits_requireArgument).within_enter h
    · exact keepsBlocks_closeCall.within_close h (ht htext (by decide))
  · rfl

lemma within_stepCall : Admits (Outcome.Within n t) (stepCall d m t) := by
  unfold stepCall
  split
  · exact within_stepArguments h
  · exact .of_ite (fun hkind => within_stay h rfl (Token.not_isDelimiter_of_kind (by simp [hkind]) _))
      fun _ => by rfl

lemma within_stepReference : Admits (Outcome.Within n t) (stepReference m t) := by
  unfold stepReference
  split
  · refine .of_ite (fun hblank => ?_) fun _ => .of_ite (fun hkind => .of_ite (fun _ => by rfl) fun _ => ?_)
      fun _ => .of_ite (fun hclose => ?_) fun _ => by rfl
    · exact within_stay h rfl fun hbrace => Token.not_isWhitespace hbrace hblank
    · refine within_stay h rfl (Token.not_isDelimiter_of_kind (fun hdelimiter => ?_) _)
      simp [hdelimiter] at hkind
    · exact keepsBlocks_closeReference.within_close h (Token.not_isDelimiter hclose (by decide))
  · exact .of_ite (fun hopen => within_stay h rfl (Token.not_isDelimiter hopen (by decide)))
      fun _ => by rfl

lemma within_stepMap : Admits (Outcome.Within n t) (stepMap m t) := by
  unfold stepMap
  refine .of_ite (fun hskip => ?_) fun _ => .of_ite (fun _ => h) fun _ => .of_ite (fun _ => h)
    fun _ => by rfl
  refine within_stay h rfl fun hbrace => ?_
  obtain hblank | hsemicolon := Bool.or_eq_true_iff.mp hskip
  · exact Token.not_isWhitespace hbrace hblank
  · exact Token.not_isDelimiter hsemicolon (by decide) hbrace

/-- A step opens a block only with a brace, and reads a closing brace only to end one. Where few enough
braces are open, it does not find rules nested too deep. -/
theorem within_step (hopen : t.isDelimiter "\x7b" → n < d.maxDepth) (mode : Mode) :
    Admits (Outcome.Within n t) (step d mode m t) := by
  cases mode with
  | root => exact within_stepRoot h
  | rule => exact .of_ite (fun _ => within_stepBody h) fun _ => within_stepSelector h hopen
  | declaration => exact within_stepDeclaration h
  | filter => exact within_stepFilter h
  | call => exact within_stepCall h
  | reference => exact within_stepReference h
  | map => exact within_stepMap h

end

/-! ### Whole readings -/

/-- Where few enough blocks are open, a step does not depend on how many are allowed. -/
lemma step_setLimit {limit : Nat} (hopen : t.isDelimiter "\x7b" → m.fragments.length < d.maxDepth)
    (hle : d.maxDepth ≤ limit) (mode : Mode) :
    step { d with maxDepth := limit } mode m t = step d mode m t := by
  have hopenRule (hbrace : t.isDelimiter "\x7b") : m.openRule limit t = m.openRule d.maxDepth t := by
    have hcount : m.fragments.countP Fragment.isRule < d.maxDepth :=
      Nat.lt_of_le_of_lt List.countP_le_length (hopen hbrace)
    unfold openRule
    split
    · dsimp only
      rw [if_neg (Nat.not_le.mpr (Nat.lt_of_lt_of_le hcount hle)), if_neg (Nat.not_le.mpr hcount)]
    · rfl
  have hpart : stepSelectorPart { d with maxDepth := limit } m t = stepSelectorPart d m t := by
    unfold stepSelectorPart
    split
    case h_5 hkind =>
      by_cases hbrace : t.text = "\x7b"
      · simp only [hopenRule (by simp [Token.isDelimiter, hkind, hbrace])]
      · simp only [if_neg hbrace]
    all_goals rfl
  cases mode with
  | rule =>
    simp only [step, stepRule, stepSelector]
    split
    · rfl
    · split <;> first | rfl | exact hpart
  | _ => rfl

lemma admits_finish (ts : List Token) : Admits (fun _ => True) (m.finish ts) := by
  cases ts with
  | nil => exact .of_ite (fun _ => trivial) fun _ => by rfl
  | cons t ts => rfl

lemma admits_stepEnd (mode : Mode) : Admits (fun _ => True) (m.stepEnd mode) := by
  cases mode with
  | root => trivial
  | rule =>
    change Error.isTooDeep (.atEnd (if _ then _ else _) _) = false
    split <;> rfl
  | filter =>
    unfold stepEnd
    dsimp only
    split <;> trivial
  | _ => rfl

/-- A `Map` block is the only one that is open, and its keyword and brace fit like other tokens. -/
lemma admits_openMap {limit : Nat} {below : List Mode} {ts : List Token}
    (halign : Aligned m.control m.context m.fragments ts) (hcontrol : m.control = .map :: below)
    (hunopened : ¬ m.inMapBody) (hfits : Token.Fits limit n ts) :
    Admits (fun (k, rest) => k.fragments.length ≤ n + 1 ∧ Token.Fits limit (n + 1) rest)
      (m.openMap ts) := by
  obtain ⟨control, context, fragments, rules, map, warnings, last⟩ := m
  subst hcontrol
  cases halign with
  | nest h => cases h
  | map => exact absurd rfl hunopened
  | @mapKeyword t ts hkeyword =>
    have hkind : t.kind = .identifier := eq_of_beq (Bool.and_eq_true_iff.mp hkeyword).1
    have hword : t.bracesBehind n = n := Token.bracesBehind_of_kind (by simp [hkind]) n
    have hblanks := (hword ▸ hfits.2).dropWhile_isWhitespace
    unfold openMap
    split
    · rfl
    · next u rest heq =>
      rw [List.tail_cons] at heq
      rw [heq] at hblanks
      refine .of_ite (fun hbrace => ⟨Nat.le_add_left 1 n, ?_⟩) fun _ => by rfl
      rw [← Token.bracesBehind_opener hbrace n]
      exact hblanks.2

/-- Where the tokens fit into the depth that is allowed, no more rules are nested than allowed, and a
reading is the same if more are. -/
theorem read_setLimit {limit : Nat} (hle : d.maxDepth ≤ limit) (m : Machine P) (ts : List Token)
    (halign : Aligned m.control m.context m.fragments ts) (h : m.fragments.length ≤ n)
    (hfits : Token.Fits d.maxDepth n ts) :
    read { d with maxDepth := limit } m ts = read d m ts ∧ Admits (fun _ => True) (read d m ts) := by
  -- both limits take the same steps, since no brace opens deeper than the lower one allows
  induction m, ts using read_induction (d := d) generalizing n with
  | done m ts hcontrol =>
    rw [read_of_control_nil hcontrol, read_of_control_nil hcontrol]
    exact ⟨rfl, admits_finish ts⟩
  | ends m mode below hcontrol hopened ih =>
    have hend := admits_stepEnd (m := m) mode
    have halign' := aligned_stepEnd (hcontrol ▸ halign)
    rw [read_nil hcontrol hopened, read_nil hcontrol hopened]
    cases hstep : m.stepEnd mode with
    | error e => rw [hstep] at hend; exact ⟨rfl, hend⟩
    | ok _ => rw [hstep] at halign'; exact ih hstep halign' h hfits
  | steps m mode below t ts hcontrol hopened ih =>
    have hstep := within_step (d := d) (m := { m with last := t.location }) h hfits.1 mode
    have halign' := aligned_step (d := d) (m := { m with last := t.location }) (hcontrol ▸ halign)
      hopened
    have hsame := step_setLimit (m := { m with last := t.location }) (t := t)
      (fun hbrace => Nat.lt_of_le_of_lt h (hfits.1 hbrace)) hle mode
    rw [read_cons hcontrol hopened, read_cons hcontrol hopened, hsame]
    cases ho : step d mode { m with last := t.location } t with
    | error e => rw [ho] at hstep; exact ⟨rfl, hstep⟩
    | ok o =>
      rw [ho] at hstep halign'
      cases o with
      | stay k | close k => exact ih _ ho halign' hstep hfits.2
      | enter child k | leave k => exact ih _ ho halign' hstep hfits
  | opens m below ts hcontrol hunopened ih =>
    have hopen := admits_openMap halign hcontrol hunopened hfits
    have halign' := aligned_openMap halign hcontrol hunopened
    rw [read_of_unopened hcontrol hunopened, read_of_unopened hcontrol hunopened]
    cases hmap : m.openMap ts with
    | error e => rw [hmap] at hopen; exact ⟨rfl, hopen⟩
    | ok x =>
      obtain ⟨k, rest⟩ := x
      rw [hmap] at hopen halign'
      have hk : k.control = .map :: below := ((openMap_eq_ok hmap below).2.1).trans hcontrol
      exact ih k rest hmap (hk ▸ halign') hopen.1 hopen.2

end Machine

namespace Dialect

/-- If the brackets of a text are not nested deeper than a dialect allows, then a dialect that allows
them to be nested deeper reads the same stylesheet with the same warnings from it, or finds the same
error in it. Rules nested too deep are never that error. -/
theorem parse_setLimit (d : Dialect P) {text : String} {ts : List Token}
    (h : Token.ofText d.maxDepth text = .ok ts) {limit : Nat} (hle : d.maxDepth ≤ limit) :
    { d with maxDepth := limit }.parse text = d.parse text ∧
      ∀ e, d.parse text = .error e → e.isTooDeep = false := by
  have hlimit : Token.ofText limit text = .ok ts := Token.ofLexemes_mono hle h
  obtain ⟨hread, hadmits⟩ := Machine.read_setLimit (d := d) hle {} ts (.nest .top) (Nat.le_refl 0)
    (Token.fits_of_ofText h)
  unfold parse
  rw [h, hlimit]
  change parseTokens _ ts = d.parseTokens ts ∧ ∀ e, d.parseTokens ts = .error e → _
  rw [Machine.parseTokens_eq_read, Machine.parseTokens_eq_read]
  exact ⟨hread, fun e he => by rw [he] at hadmits; exact hadmits⟩

/-- A stylesheet with a rule in a rule. -/
def tunnelText : String := "#way \x7b .tunnel \x7b width: 1 \x7d \x7d"

/-- It fits into two levels, so a larger limit makes no difference. -/
theorem parse_setLimit_tunnelText : (∃ ts, Token.ofText 2 tunnelText = .ok ts) ∧ 2 ≤ 64 ∧
    Dialect.parse { engine := Cql.Expr.parse, maxDepth := 64 } tunnelText =
      Dialect.parse { engine := Cql.Expr.parse, maxDepth := 2 } tunnelText ∧
    ∀ e, Dialect.parse { engine := Cql.Expr.parse, maxDepth := 2 } tunnelText = .error e →
      e.isTooDeep = false := by
  have htokens : (Token.ofText 2 tunnelText).isOk := by decide +kernel
  obtain ⟨ts, hts⟩ := exists_eq_ok_of_isOk htokens
  exact ⟨⟨ts, hts⟩, by decide,
    parse_setLimit { engine := Cql.Expr.parse, maxDepth := 2 } hts (by decide)⟩

end Dialect

end MapStyle
