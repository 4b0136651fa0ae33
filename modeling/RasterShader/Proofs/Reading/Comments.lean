import Mathlib
import RasterShader.Proofs.Reading.Lexemes

/-!
# Where block comments end

A block comment reaches through the first closing mark behind its opening.  Where there is none,
`openComment` would take the rest of the text for one invalid token, but the rules of `scan` are
tried in order, and the operators stand before it: `/` is one of them.  So a comment that is not
closed is read as the operators `/` and `*`, or `/` and `*=`, and the text behind them is read as
code.
-/

namespace RasterShader

namespace Lexer

/-- There is no end of a comment in a text without a closing mark. -/
theorem throughCommentEnd_eq_none_iff (cs : List Char) :
    throughCommentEnd cs = none ↔ ¬ ['*', '/'] <:+: cs := by
  fun_induction throughCommentEnd cs with
  | case1 rest =>
    have hmark : ['*', '/'] <:+: '*' :: '/' :: rest := (List.prefix_append ['*', '/'] rest).isInfix
    simp [hmark]
  | case2 c rest hother ih =>
    have hfirst : ¬ ['*', '/'] <+: c :: rest := by
      rintro ⟨behind, heq⟩
      obtain ⟨rfl, rfl⟩ := List.cons.inj heq
      exact hother behind rfl rfl
    rw [Option.map_eq_none_iff, ih, List.infix_cons_iff]
    simp [hfirst]
  | case3 => simp

/-- A comment reaches through its end.  One without an end is no comment, and its first character is
an operator. -/
theorem scan_commentStart (rest : List Char) :
    scan ('/' :: '*' :: rest) =
      match throughCommentEnd rest with
      | some n => (.blockComment, 2 + n)
      | none => (.slash, 1) := by
  have hblock : blockComment ('/' :: '*' :: rest) = (throughCommentEnd rest).map (2 + ·) := by
    cases hend : throughCommentEnd rest <;>
      simp [blockComment, andThen, exactly, List.isPrefixOf, hend]
  have hline : lineComment ('/' :: '*' :: rest) = none := rfl
  cases hend : throughCommentEnd rest with
  | none =>
    exact scan_eq_operator rfl rfl rfl (by decide) (by decide) hline (by rw [hblock, hend]; rfl) rfl
  | some n =>
    simp only [scan, hblock, hend, hline]
    rfl

theorem stands_slash_of_openComment {rest : List Char} (h : ¬ ['*', '/'] <:+: rest) :
    Lexeme.Stands ⟨.slash, "/"⟩ ('*' :: rest) := by
  refine ⟨by decide, ?_⟩
  show scan ('/' :: '*' :: rest) = (.slash, 1)
  rw [scan_commentStart, (throughCommentEnd_eq_none_iff rest).2 h]

/-- A star and an equals sign are one operator. -/
theorem stands_starEq (rest : List Char) : Lexeme.Stands ⟨.starEq, "*="⟩ rest :=
  ⟨by decide, scan_eq_operator rfl rfl rfl (by decide) (by decide) rfl rfl rfl⟩

theorem stands_star {rest : List Char} (h : rest.head? ≠ some '=') :
    Lexeme.Stands ⟨.star, "*"⟩ rest := by
  have hoperator : operator? ('*' :: rest) = some (.star, 1) := by
    cases rest with
    | nil => rfl
    | cons c cs =>
      have hc : ('=' == c) = false := beq_eq_false_iff_ne.2 fun heq => h (by rw [← heq]; rfl)
      simp [operator?, punctuation, List.isPrefixOf, hc]
  exact ⟨by decide, scan_eq_operator rfl rfl rfl (by decide) (by decide) rfl rfl hoperator⟩

/-- The tokens behind a lexeme are those of the text behind it. -/
theorem tokens_of_stands {l : Lexeme} {rest : List Char} (h : l.Stands rest) (offset : Nat) :
    tokens ⟨l.text.toList ++ rest, offset⟩ =
      ⟨l.kind, offset, l.text⟩ :: tokens ⟨rest, offset + l.text.utf8ByteSize⟩ := by
  rw [tokens, dif_neg (by simp [h.1]), next_of_stands h]

/-- A comment that is not closed is read as two operators, and the text behind them as code. -/
theorem openComment_read_as_code (rest : List Char) (offset : Nat) (h : ¬ ['*', '/'] <:+: rest) :
    next ⟨'/' :: '*' :: rest, offset⟩ = (⟨.slash, offset, "/"⟩, ⟨'*' :: rest, offset + 1⟩) ∧
    tokens ⟨'/' :: '*' :: rest, offset⟩ = ⟨.slash, offset, "/"⟩ ::
      if rest.head? = some '=' then ⟨.starEq, offset + 1, "*="⟩ :: tokens ⟨rest.tail, offset + 3⟩
      else ⟨.star, offset + 1, "*"⟩ :: tokens ⟨rest, offset + 2⟩ := by
  have slash := stands_slash_of_openComment h
  refine ⟨next_of_stands slash offset, (tokens_of_stands slash offset).trans ?_⟩
  by_cases hequals : rest.head? = some '='
  · obtain ⟨behind, rfl⟩ := List.head?_eq_some_iff.1 hequals
    rw [if_pos hequals]
    exact congrArg (_ :: ·) (tokens_of_stands (stands_starEq behind) (offset + 1))
  · rw [if_neg hequals]
    exact congrArg (_ :: ·) (tokens_of_stands (stands_star hequals) (offset + 1))

theorem openComment_read_as_code_name :
    ¬ ['*', '/'] <:+: [' ', 'x'] ∧
      tokens ⟨"/* x".toList, 0⟩ =
        [⟨.slash, 0, "/"⟩, ⟨.star, 1, "*"⟩, ⟨.whitespace, 2, " "⟩, ⟨.identifier, 3, "x"⟩] := by
  have hopen : ¬ ['*', '/'] <:+: [' ', 'x'] := by decide
  refine ⟨hopen, (openComment_read_as_code [' ', 'x'] 0 hopen).2.trans ?_⟩
  decide +kernel

/-- The rule for comments that are not closed does not apply to one. -/
theorem openComment_not_invalid :
    ¬ ['*', '/'] <:+: " x".toList ∧ openComment "/* x".toList = some 4 ∧
      (next (ofSource "/* x")).1 = ⟨.slash, 0, "/"⟩ ∧
      (next (ofSource "/* x")).1 ≠ ⟨.invalid, 0, "/* x"⟩ ∧
      (tokenize "/* x").map Token.kind = [.slash, .star, .identifier] := by
  decide +kernel

end Lexer

end RasterShader
