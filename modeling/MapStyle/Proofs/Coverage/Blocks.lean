import Mathlib.Tactic.Lemma
import MapStyle.Lexeme.Basic

/-!
# Blocks

A block is a bracket that is opened, its contents, and the first thing behind it that closes the bracket
and does not stand in a block inside. What closes another bracket than the innermost one that is open
closes nothing and belongs to the contents. This holds of lexemes and of tokens alike, so it is stated
for anything that opens and closes brackets.
-/

namespace MapStyle

section

variable {α : Type} (opens closes : α → Option Bracket)

/-- What may stand inside a bracket, with every block in it closed. -/
inductive Contents : Bracket → List α → Prop
  | nil {b : Bracket} : Contents b []
  | plain {b : Bracket} {x : α} {xs : List α} (hopens : opens x = none) (hcloses : closes x ≠ some b)
      (h : Contents b xs) : Contents b (x :: xs)
  | block {b c : Bracket} {x y : α} {inner xs : List α} (hopens : opens x = some c)
      (hinner : Contents c inner) (hcloses : closes y = some c) (h : Contents b xs) :
      Contents b (x :: (inner ++ y :: xs))

/-- What stands behind an opened bracket closes it. -/
def ClosesBlock (b : Bracket) (xs : List α) : Prop :=
  ∃ inner y rest, xs = inner ++ y :: rest ∧ Contents opens closes b inner ∧ closes y = some b

/-- Behind something, what comes next closes the innermost block that is open. -/
def EndsBlock (us : List α) (y : α) : Prop :=
  ∃ outer x inner b, us = outer ++ x :: inner ∧ opens x = some b ∧ Contents opens closes b inner ∧
    closes y = some b

/-- What stands behind some opened brackets, of which the innermost comes first, closes them all. -/
def ClosesAll : List Bracket → List α → Prop
  | [], _ => True
  | _ :: _, [] => False
  | b :: opened, x :: xs =>
    if closes x = some b then ClosesAll opened xs else ClosesAll ((opens x).toList ++ b :: opened) xs

/-- Something ends with the contents, so far, of blocks that are open, of which the innermost comes
first. -/
inductive OpenBlocks : List Bracket → List α → Prop
  | top (us : List α) : OpenBlocks [] us
  | block {opened : List Bracket} {b : Bracket} {x : α} {us inner : List α}
      (h : OpenBlocks opened us) (hopens : opens x = some b) (hinner : Contents opens closes b inner) :
      OpenBlocks (b :: opened) (us ++ x :: inner)

variable {opens closes} {b : Bracket} {opened : List Bracket} {x y : α} {us xs inner : List α}

lemma Contents.append (h : Contents opens closes b inner) (hxs : Contents opens closes b xs) :
    Contents opens closes b (inner ++ xs) := by
  induction h with
  | nil => exact hxs
  | plain hopens hcloses _ ih => exact .plain hopens hcloses (ih hxs)
  | block hopens hinner hcloses _ _ ih =>
    rw [List.cons_append, List.append_assoc]
    exact .block hopens hinner hcloses (ih hxs)

/-! ### Blocks that are open -/

lemma OpenBlocks.plain (h : OpenBlocks opens closes opened us) (hopens : opens x = none)
    (hcloses : ∀ b ∈ opened.head?, closes x ≠ some b) : OpenBlocks opens closes opened (us ++ [x]) := by
  cases h with
  | top => exact .top _
  | block h hopens' hinner =>
    rw [List.append_assoc, List.cons_append]
    exact .block h hopens' (hinner.append (.plain hopens (hcloses _ rfl) .nil))

lemma OpenBlocks.opener (h : OpenBlocks opens closes opened us) (hopens : opens x = some b) :
    OpenBlocks opens closes (b :: opened) (us ++ [x]) :=
  .block h hopens .nil

/-- A block that is closed belongs to the contents of the block around it. -/
lemma OpenBlocks.closer (h : OpenBlocks opens closes (b :: opened) us) (hcloses : closes y = some b) :
    OpenBlocks opens closes opened (us ++ [y]) := by
  cases h with
  | @block _ _ x us inner h hopens hinner =>
    cases h with
    | top => exact .top _
    | @block opened c z us outer h hopens' houter =>
      have hblock : Contents opens closes c (x :: (inner ++ [y])) := .block hopens hinner hcloses .nil
      have hsplit : us ++ z :: outer ++ x :: inner ++ [y] = us ++ z :: (outer ++ x :: (inner ++ [y])) := by
        simp
      rw [hsplit]
      exact .block h hopens' (houter.append hblock)

lemma OpenBlocks.endsBlock (h : OpenBlocks opens closes (b :: opened) us) (hcloses : closes y = some b) :
    EndsBlock opens closes us y := by
  cases h with
  | block h hopens hinner => exact ⟨_, _, _, _, rfl, hopens, hinner, hcloses⟩

/-! ### Blocks that are closed -/

section

variable (hexcl : ∀ x b, closes x = some b → opens x = none)
include hexcl

/-- Contents change nothing of what is open. -/
lemma closesAll_contents (h : Contents opens closes b inner) (opened : List Bracket) (xs : List α) :
    ClosesAll opens closes (b :: opened) (inner ++ xs) ↔ ClosesAll opens closes (b :: opened) xs := by
  induction h generalizing opened xs with
  | nil => exact Iff.rfl
  | plain hopens hcloses _ ih =>
    rw [List.cons_append, ClosesAll, if_neg hcloses, hopens]
    exact ih opened xs
  | @block b c x y inner ys hopens _ hcloses _ ih ih' =>
    have hx : closes x ≠ some b := fun hx => by
      rw [hexcl x b hx] at hopens
      cases hopens
    rw [List.cons_append, List.append_assoc, ClosesAll, if_neg hx, hopens]
    refine (ih (b :: opened) (y :: ys ++ xs)).trans ?_
    rw [List.cons_append, ClosesAll, if_pos hcloses]
    exact ih' opened xs

/-- What is behind the bracket that closes the innermost block closes the blocks around it. -/
lemma closesAll_cons_iff : ClosesAll opens closes (b :: opened) xs ↔ ∃ inner y rest,
    xs = inner ++ y :: rest ∧ Contents opens closes b inner ∧ closes y = some b ∧
      ClosesAll opens closes opened rest := by
  constructor
  · intro h
    -- a block inside takes its contents and closer away, so the rest is shorter than the list
    induction hn : xs.length using Nat.strongRecOn generalizing b opened xs with
    | ind n ih =>
      subst hn
      cases xs with
      | nil => cases h
      | cons x xs =>
        rw [ClosesAll] at h
        split at h
        · next hcloses => exact ⟨[], x, xs, rfl, .nil, hcloses, h⟩
        · next hcloses =>
          cases hopens : opens x with
          | none =>
            rw [hopens] at h
            obtain ⟨inner, y, rest, rfl, hinner, hy, hrest⟩ := ih _ (Nat.lt_succ_self _) h rfl
            exact ⟨x :: inner, y, rest, rfl, .plain hopens hcloses hinner, hy, hrest⟩
          | some c =>
            rw [hopens] at h
            obtain ⟨inner, y, rest, rfl, hinner, hy, hrest⟩ := ih _ (Nat.lt_succ_self _) h rfl
            have hlt : rest.length < (x :: (inner ++ y :: rest)).length := by
              simp only [List.length_cons, List.length_append]
              omega
            obtain ⟨inner', y', rest', rfl, hinner', hy', hrest'⟩ := ih _ hlt hrest rfl
            exact ⟨x :: (inner ++ y :: inner'), y', rest', by simp, .block hopens hinner hy hinner', hy',
              hrest'⟩
  · rintro ⟨inner, y, rest, rfl, hinner, hy, hrest⟩
    rw [closesAll_contents hexcl hinner, ClosesAll, if_pos hy]
    exact hrest

lemma closesBlock_iff : ClosesBlock opens closes b xs ↔ ClosesAll opens closes [b] xs := by
  rw [closesAll_cons_iff hexcl]
  simp [ClosesBlock, ClosesAll]

end

end

end MapStyle
