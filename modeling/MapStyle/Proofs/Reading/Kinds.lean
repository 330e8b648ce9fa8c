import Mathlib.Tactic.Lemma
import MapStyle.Token.Basic

/-!
# Kinds of tokens

What a token is that passes one of the tests of a reader, and which tests exclude each other.
-/

namespace MapStyle.Token

/-- Whether a token is a word that may stand for a name: an identifier or a string. -/
def IsWord (t : Token) : Prop :=
  t.kind = .identifier ∨ t.kind = .string

lemma eq_of_isWhitespace {t : Token} (h : t.isWhitespace) :
    ∃ raw text location, t = ⟨.whitespace, raw, text, location⟩ := by
  obtain ⟨kind, raw, text, location⟩ := t
  obtain rfl : kind = .whitespace := by simpa [isWhitespace] using h
  exact ⟨raw, text, location, rfl⟩

lemma eq_of_isDelimiter {t : Token} {text : String} (h : t.isDelimiter text) :
    ∃ raw location, t = ⟨.delimiter, raw, text, location⟩ := by
  obtain ⟨kind, raw, text', location⟩ := t
  obtain ⟨rfl, rfl⟩ : kind = .delimiter ∧ text' = text := by simpa [isDelimiter] using h
  exact ⟨raw, location, rfl⟩

lemma eq_of_isOperator {t : Token} {text : String} (h : t.isOperator text) :
    ∃ raw location, t = ⟨.operator, raw, text, location⟩ := by
  obtain ⟨kind, raw, text', location⟩ := t
  obtain ⟨rfl, rfl⟩ : kind = .operator ∧ text' = text := by simpa [isOperator] using h
  exact ⟨raw, location, rfl⟩

lemma not_isWhitespace {t : Token} {text : String} (h : t.isDelimiter text) : ¬ t.isWhitespace := by
  obtain ⟨raw, location, rfl⟩ := eq_of_isDelimiter h
  exact Bool.false_ne_true

lemma not_isDelimiter {t : Token} {text text' : String} (h : t.isDelimiter text)
    (hne : text ≠ text') : ¬ t.isDelimiter text' := by
  obtain ⟨raw, location, rfl⟩ := eq_of_isDelimiter h
  simpa [isDelimiter] using hne

lemma not_startsSelector {t : Token} {text : String} (h : t.isDelimiter text) (hopen : text ≠ "[")
    (hcolon : text ≠ ":") : ¬ t.startsSelector := by
  obtain ⟨raw, location, rfl⟩ := eq_of_isDelimiter h
  simp [startsSelector, hopen, hcolon]

end MapStyle.Token
