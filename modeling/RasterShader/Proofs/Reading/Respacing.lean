import Mathlib
import RasterShader.Proofs.Reading.Comments
import RasterShader.Proofs.Reading.Matching

/-!
# Tokens set apart by blanks

A token is cut by what follows it in its source, so that it could be another one, or several, when
something else follows.  With a blank behind it, it is the same one.  `scan` tries the rules for
blanks and comments first (`trivia?`) and then the others (`significant?`), which are `Separable`.
The rule for comments that are not closed never comes to apply (`scan_eq_getD`).  A token therefore
tells its kind by its text alone, and the tokens of a text are read again from their own texts with
single blanks between them.
-/

namespace RasterShader

/-- No trivia, and the same token before every blank. -/
structure Lexeme.Free (l : Lexeme) : Prop where
  significant : l.kind.isTrivia = false
  stands {rest : List Char} : Lexer.Ended rest → l.Stands rest

namespace Lexer

variable {a b cs rest : List Char} {n : Nat} {kind : TokenKind} {l : Lexeme} {ls : List Lexeme}

/-! ## The rules that take no blanks -/

theorem sparesBlanks_isDigit : SparesBlanks Char.isDigit := sparesBlanks_of_all (by decide)

theorem sparesBlanks_isIdentContinue : SparesBlanks isIdentContinue :=
  sparesBlanks_of_all (by decide)

theorem separable_digits1 : Separable id digits1 := separable_run1 sparesBlanks_isDigit

theorem separable_exponent : Separable id exponent :=
  (separable_one (sparesBlanks_of_all (by decide))).andThen_of_sharp
    ((separable_one (sparesBlanks_of_all (by decide))).optionally.andThen_of_sharp
      separable_digits1 sharp_optionally_one rfl)
    sharp_one rfl

theorem separable_floatLiteral : Separable id floatLiteral := by
  have point : Separable id (one (· = '.')) := separable_one (sparesBlanks_of_all (by decide))
  have suffix : Separable id (optionally (one fun c => c = 'f' || c = 'F')) :=
    (separable_one (sparesBlanks_of_all (by decide))).optionally
  have fraction : Separable id (andThen digits0 (optionally exponent)) :=
    (separable_run sparesBlanks_isDigit).andThen_of_isSome separable_exponent.optionally
      fun _ => rfl
  have whole : Separable id
      (andThen digits1 (andThen (one (· = '.')) (andThen digits0 (optionally exponent)))) :=
    separable_digits1.andThen_of_sharp (point.andThen_of_isSome fraction fun _ => rfl)
      sharp_run1 rfl
  have fractionOnly : Separable id
      (andThen (one (· = '.')) (andThen digits1 (optionally exponent))) :=
    point.andThen_of_sharp
      (separable_digits1.andThen_of_isSome separable_exponent.optionally fun _ => rfl)
      sharp_one rfl
  have scaled : Separable id (andThen digits1 exponent) :=
    separable_digits1.andThen_of_sharp separable_exponent sharp_run1 rfl
  exact (whole.orElse (fractionOnly.orElse scaled)).andThen_of_isSome suffix fun _ => rfl

theorem separable_intLiteral : Separable id intLiteral := by
  have mark : Separable id (andThen (one fun c => c = 'x' || c = 'X') (run1 isHexDigit)) :=
    (separable_one (sparesBlanks_of_all (by decide))).andThen_of_sharp
      (separable_run1 (sparesBlanks_of_all (by decide))) sharp_one rfl
  have hexadecimal : Separable id (andThen (one (· = '0'))
      (andThen (one fun c => c = 'x' || c = 'X') (run1 isHexDigit))) :=
    (separable_one (sparesBlanks_of_all (by decide))).andThen_of_sharp mark sharp_one rfl
  have suffix : Separable id (optionally (one fun c => c = 'u' || c = 'U')) :=
    (separable_one (sparesBlanks_of_all (by decide))).optionally
  exact (hexadecimal.orElse separable_digits1).andThen_of_isSome suffix fun _ => rfl

theorem separable_word : Separable id word :=
  (separable_run1 (sparesBlanks_of_all (by decide))).andThen_of_isSome
    (separable_run sparesBlanks_isIdentContinue) fun _ => rfl

theorem separable_directive : Separable id directive :=
  (separable_one (sparesBlanks_of_all (by decide))).andThen_of_sharp
    (separable_run1 sparesBlanks_isIdentContinue) sharp_one rfl

/-- The first entry of a table that the text starts with. -/
theorem separable_find (table : List (List Char × TokenKind))
    (h : ∀ entry ∈ table, entry.1.all (fun c => !isBlank c) = true) :
    Separable Prod.snd fun cs => (table.find? fun entry => entry.1.isPrefixOf cs).map
      fun entry => (entry.2, entry.1.length) := by
  induction table with
  | nil => constructor <;> simp
  | cons entry table ih =>
    have hfirst := (separable_exactly (h entry List.mem_cons_self)).kinded fun _ => entry.2
    have hothers := ih fun other hother => h other (List.mem_cons_of_mem _ hother)
    convert hfirst.or hothers using 2 with cs
    rw [List.find?_cons, exactly]
    cases entry.1.isPrefixOf cs <;> rfl

theorem separable_operator : Separable Prod.snd operator? := separable_find punctuation (by decide)

/-! ## The two halves of scanning -/

/-- What a match takes is of a kind. -/
def kinded (kind : TokenKind) (m : List Char → Option Nat) (cs : List Char) :
    Option (TokenKind × Nat) :=
  (m cs).map (kind, ·)

/-- Blanks and comments. -/
def trivia? (cs : List Char) : Option (TokenKind × Nat) :=
  kinded .whitespace (run1 isBlank) cs <|> kinded .lineComment lineComment cs <|>
    kinded .blockComment blockComment cs

/-- Numbers, words, directives and operators. -/
def significant? (cs : List Char) : Option (TokenKind × Nat) :=
  kinded .floatLiteral floatLiteral cs <|> kinded .intLiteral intLiteral cs <|>
    (word cs).map (fun n => (wordKind (String.ofList (cs.take n)), n)) <|>
    kinded .directive directive cs <|> operator? cs

theorem separable_significant : Separable Prod.snd significant? :=
  (separable_floatLiteral.kinded fun _ => .floatLiteral).or
    ((separable_intLiteral.kinded fun _ => .intLiteral).or
      ((separable_word.kinded fun text => wordKind (String.ofList text)).or
        ((separable_directive.kinded fun _ => .directive).or separable_operator)))

/-- Where a comment could start, there is an operator. -/
theorem openComment_eq_none (h : operator? cs = none) : openComment cs = none := by
  refine andThen_eq_none (Option.eq_none_iff_forall_ne_some.2 fun n hn => ?_)
  obtain ⟨⟨behind, rfl⟩, -⟩ := exactly_eq_some_iff.1 hn
  exact absurd h (by simp [operator?, punctuation, List.isPrefixOf])

theorem scan_eq_getD (cs : List Char) :
    scan cs = (trivia? cs <|> significant? cs).getD (.invalid, 1) := by
  have hrules : scan cs = ((trivia? cs <|> significant? cs) <|>
      (openComment cs).map (TokenKind.invalid, ·)).getD (.invalid, 1) := by
    simp only [scan, trivia?, significant?, kinded, Option.orElse_eq_orElse, Option.orElse_eq_or,
      Option.or_assoc]
  rw [hrules]
  cases hfound : trivia? cs <|> significant? cs with
  | some found => rfl
  | none =>
    have hoperator : operator? cs = none := by
      simp only [significant?, Option.orElse_eq_none] at hfound
      exact hfound.2.2.2.2.2
    rw [openComment_eq_none hoperator]
    rfl

theorem isTrivia_of_trivia? {found : TokenKind × Nat} (h : trivia? cs = some found) :
    found.1.isTrivia = true := by
  simp only [trivia?, kinded, Option.orElse_eq_some, Option.map_eq_some_iff] at h
  rcases h with ⟨n, -, rfl⟩ | ⟨-, ⟨n, -, rfl⟩ | ⟨-, n, -, rfl⟩⟩ <;> rfl

/-- A token that is no trivia is taken by a rule for one, or no rule applies. -/
theorem scan_cases (h : scan cs = (kind, n)) (hkind : kind.isTrivia = false) :
    trivia? cs = none ∧
      (significant? cs = some (kind, n) ∨ significant? cs = none ∧ kind = .invalid ∧ n = 1) := by
  rw [scan_eq_getD] at h
  cases htrivia : trivia? cs with
  | some found =>
    obtain rfl : found = (kind, n) := by simpa [htrivia] using h
    exact absurd (isTrivia_of_trivia? htrivia) (by simp [hkind])
  | none =>
    refine ⟨rfl, ?_⟩
    cases hfound : significant? cs with
    | some found => exact .inl (by simpa [htrivia, hfound] using h)
    | none =>
      obtain ⟨rfl, rfl⟩ : TokenKind.invalid = kind ∧ 1 = n := by simpa [htrivia, hfound] using h
      exact .inr ⟨rfl, rfl, rfl⟩

theorem throughCommentEnd_le (h : throughCommentEnd cs = some n) : n ≤ cs.length := by
  fun_induction throughCommentEnd cs generalizing n with
  | case1 rest =>
    obtain rfl := Option.some.inj h
    simp
  | case2 c rest hother ih =>
    obtain ⟨m, hm, rfl⟩ := Option.map_eq_some_iff.1 h
    exact Nat.succ_le_succ (ih hm)
  | case3 => cases h

/-- A match with a mark in front takes at least the mark, and no more than there is if what
follows does not. -/
theorem bounds_of_mark {mark : List Char} {m : List Char → Option Nat} (hmark : mark ≠ [])
    (hm : ∀ {cs n}, m cs = some n → n ≤ cs.length) (h : andThen (exactly mark) m cs = some n) :
    1 ≤ n ∧ n ≤ cs.length := by
  obtain ⟨k, hk, l, hl, rfl⟩ := andThen_eq_some_iff.1 h
  obtain ⟨hfront, rfl⟩ := exactly_eq_some_iff.1 hk
  have hpos := List.length_pos_iff.2 hmark
  have hle := hfront.length_le
  have hrest := hm hl
  rw [List.length_drop] at hrest
  omega

theorem bounds_of_trivia? {found : TokenKind × Nat} (h : trivia? cs = some found) :
    1 ≤ found.2 ∧ found.2 ≤ cs.length := by
  simp only [trivia?, kinded, Option.orElse_eq_some, Option.map_eq_some_iff] at h
  rcases h with ⟨n, hn, rfl⟩ | ⟨-, ⟨n, hn, rfl⟩ | ⟨-, n, hn, rfl⟩⟩
  · obtain ⟨rfl, hpos⟩ := run1_eq_some_iff.1 hn
    exact ⟨Nat.pos_of_ne_zero hpos, run_le isBlank cs⟩
  · refine bounds_of_mark (by simp) (fun {cs n} hrun => ?_) hn
    obtain rfl := Option.some.inj hrun
    exact run_le _ cs
  · exact bounds_of_mark (by simp) throughCommentEnd_le hn

/-- Every token is made of at least one character of the text. -/
theorem scan_bounds (h : cs ≠ []) : 1 ≤ (scan cs).2 ∧ (scan cs).2 ≤ cs.length := by
  rw [scan_eq_getD]
  cases htrivia : trivia? cs with
  | some found => simpa [htrivia] using bounds_of_trivia? htrivia
  | none =>
    cases hfound : significant? cs with
    | some found =>
      have hpos : 1 ≤ found.2 := separable_significant.pos rfl hfound
      simpa using ⟨hpos, separable_significant.within hfound⟩
    | none => exact ⟨le_rfl, List.length_pos_iff.2 h⟩

/-! ## A token before a blank -/

theorem isBlank_of_run1_eq_none {c : Char} (h : run1 isBlank (c :: cs) = none) :
    isBlank c = false := by
  by_contra hc
  simp [run1, run, hc] at h

/-- The mark that starts a match has to be there. -/
theorem exactly_eq_none_of_andThen {text : List Char} {m : List Char → Option Nat}
    (hall : ∀ cs, (m cs).isSome = true) (h : andThen (exactly text) m cs = none) :
    exactly text cs = none := by
  refine Option.eq_none_iff_forall_ne_some.2 fun k hk => ?_
  obtain ⟨l, hl⟩ := Option.isSome_iff_exists.1 (hall (cs.drop k))
  exact absurd (andThen_eq_some_iff.2 ⟨k, hk, l, hl, rfl⟩) (by simp [h])

/-- A blank behind a text makes no comment of it. -/
theorem trivia?_append_ended (h : trivia? (a ++ b) = none) (ha : a ≠ [])
    (hopen : ¬ ['/', '*'] <+: a) (hrest : Ended rest) : trivia? (a ++ rest) = none := by
  simp only [trivia?, kinded, Option.orElse_eq_none, Option.map_eq_none_iff] at h ⊢
  obtain ⟨hblank, hline, -⟩ := h
  refine ⟨?_, andThen_eq_none ?_, andThen_eq_none ?_⟩
  · obtain ⟨c, cs, rfl⟩ := List.exists_cons_of_ne_nil ha
    exact run1_cons_of_neg (isBlank_of_run1_eq_none hblank) _
  · have mark : Separable id (exactly ['/', '/']) := separable_exactly (by decide)
    rw [mark.blind hrest]
    exact mark.front_eq_none (exactly_eq_none_of_andThen (fun _ => rfl) hline)
  · have mark : Separable id (exactly ['/', '*']) := separable_exactly (by decide)
    rw [mark.blind hrest]
    exact Option.eq_none_iff_forall_ne_some.2 fun k hk => hopen (exactly_eq_some_iff.1 hk).1

/-- Where a comment could start, no token goes past the first character. -/
theorem not_commentStart_of_scan (h : scan (a ++ b) = (kind, a.length))
    (hkind : kind.isTrivia = false) : ¬ ['/', '*'] <+: a := by
  rintro ⟨behind, rfl⟩
  simp only [List.cons_append, List.nil_append, scan_commentStart] at h
  cases hend : throughCommentEnd (behind ++ b) with
  | none =>
    have hlength := congrArg Prod.snd h
    simp [hend] at hlength
  | some n =>
    obtain rfl : TokenKind.blockComment = kind := by simpa [hend] using congrArg Prod.fst h
    exact absurd hkind (by decide)

theorem stands_of_ended (h : l.Stands b) (hl : l.kind.isTrivia = false) (hrest : Ended rest) :
    l.Stands rest := by
  obtain ⟨hne, hscan⟩ := h
  refine ⟨hne, ?_⟩
  obtain ⟨htrivia, hrule⟩ := scan_cases hscan hl
  have hcomment := trivia?_append_ended htrivia hne (not_commentStart_of_scan hscan hl) hrest
  rw [scan_eq_getD, hcomment, separable_significant.blind hrest]
  rcases hrule with hfound | ⟨hnone, hinvalid, hlength⟩
  · rw [separable_significant.keeps hfound le_rfl]
    rfl
  · rw [separable_significant.front_eq_none hnone, hinvalid, hlength]
    rfl

/-- A token that is taken stands before what is left. -/
theorem stands_next {lexer : Lexer} (hrest : lexer.rest ≠ [])
    (hkind : lexer.next.1.kind.isTrivia = false) :
    lexer.next.1.lexeme.Stands lexer.next.2.rest := by
  obtain ⟨cs, offset⟩ := lexer
  rcases hscan : scan cs with ⟨kind, n⟩
  have hempty : cs.isEmpty = false := by simpa using hrest
  simp only [next, hempty, Bool.false_eq_true, if_false, hscan] at hkind ⊢
  have hbounds : 1 ≤ n ∧ n ≤ cs.length := by simpa [hscan] using scan_bounds hrest
  rw [Nat.max_eq_left hbounds.1]
  have hlength : (cs.take n).length = n := List.length_take_of_le hbounds.2
  constructor
  · rw [Token.lexeme, String.toList_ofList, ← List.length_pos_iff, hlength]
    exact hbounds.1
  · rw [Token.lexeme, String.toList_ofList, List.take_append_drop, hscan, hlength]

/-! ## Texts of tokens -/

theorem free_of_mem_tokens (lexer : Lexer) :
    ∀ t ∈ lexer.tokens, t.kind.isTrivia = false → t.lexeme.Free := by
  fun_induction tokens lexer with
  | case1 => simp
  | case2 lexer hrest ih =>
    intro t ht hkind
    rcases List.mem_cons.1 ht with rfl | ht
    · exact ⟨hkind, stands_of_ended (stands_next (by simpa using hrest) hkind) hkind⟩
    · exact ih t ht hkind

theorem free_of_mem_tokenize {source : String} {t : Token} (h : t ∈ tokenize source) :
    t.lexeme.Free := by
  obtain ⟨hmem, hkind⟩ := List.mem_filter.1 h
  exact free_of_mem_tokens _ t hmem (by simpa using hkind)

/-- No token that is kept starts with a blank. -/
theorem isBlank_head_of_free (h : l.Free) (rest : List Char) :
    ∀ c ∈ (l.text.toList ++ rest).head?, isBlank c = false := by
  obtain ⟨hne, hscan⟩ := h.stands ended_nil
  obtain ⟨c, cs, htext⟩ := List.exists_cons_of_ne_nil hne
  have htrivia := (scan_cases hscan h.significant).1
  simp only [htext, List.append_nil, trivia?, kinded, Option.orElse_eq_none,
    Option.map_eq_none_iff] at htrivia
  rintro d hd
  obtain rfl : c = d := by simpa [htext] using hd
  exact isBlank_of_run1_eq_none htrivia.1

theorem isBlank_head_spaced (h : l.Free) (texts : List (List Char)) :
    ∀ c ∈ ([' '].intercalate (l.text.toList :: texts)).head?, isBlank c = false := by
  cases texts with
  | nil => simpa using isBlank_head_of_free h []
  | cons text texts =>
    rw [List.intercalate_cons_cons, List.append_assoc]
    exact isBlank_head_of_free h _

theorem stands_blank (h : ∀ c ∈ rest.head?, isBlank c = false) :
    Lexeme.Stands ⟨.whitespace, " "⟩ rest := by
  refine ⟨by decide, ?_⟩
  have hrun : run isBlank ([' '] ++ rest) = 1 := run_append isBlank (by decide) h
  have hblank : run1 isBlank ([' '] ++ rest) = some 1 :=
    run1_eq_some_iff.2 ⟨hrun, Nat.one_ne_zero⟩
  show scan ([' '] ++ rest) = _
  rw [scan_eq_getD, trivia?, kinded, hblank]
  rfl

/-- The tokens of a text that are no trivia, without their places. -/
def lexemes (lexer : Lexer) : List Lexeme :=
  (lexer.tokens.filter fun t => !t.kind.isTrivia).map Token.lexeme

theorem lexemes_nil (offset : Nat) : lexemes ⟨[], offset⟩ = [] := by
  rw [lexemes, tokens, dif_pos List.isEmpty_nil]
  rfl

theorem lexemes_of_stands (h : l.Stands rest) (hl : l.kind.isTrivia = false) (offset : Nat) :
    lexemes ⟨l.text.toList ++ rest, offset⟩ =
      l :: lexemes ⟨rest, offset + l.text.utf8ByteSize⟩ := by
  rw [lexemes, tokens_of_stands h, List.filter_cons_of_pos (by simpa using hl)]
  rfl

theorem lexemes_blank (h : ∀ c ∈ rest.head?, isBlank c = false) (offset : Nat) :
    lexemes ⟨' ' :: rest, offset⟩ = lexemes ⟨rest, offset + 1⟩ := by
  have htokens := tokens_of_stands (stands_blank h) offset
  rw [lexemes, show ' ' :: rest = " ".toList ++ rest from rfl, htokens,
    List.filter_cons_of_neg Bool.false_ne_true]
  rfl

/-- The texts of tokens with single blanks between them are read as those tokens. -/
theorem lexemes_spaced (h : ∀ l ∈ ls, l.Free) (offset : Nat) :
    lexemes ⟨[' '].intercalate (ls.map fun l => l.text.toList), offset⟩ = ls := by
  induction ls generalizing offset with
  | nil => exact lexemes_nil offset
  | cons l ls ih =>
    have hl := h l List.mem_cons_self
    have hls : ∀ l ∈ ls, l.Free := fun l hl => h l (List.mem_cons_of_mem _ hl)
    cases ls with
    | nil =>
      rw [List.map_singleton, List.intercalate_singleton, ← List.append_nil l.text.toList,
        lexemes_of_stands (hl.stands ended_nil) hl.significant, lexemes_nil]
    | cons l' ls =>
      have hnext := isBlank_head_spaced (h l' (by simp)) (ls.map fun l => l.text.toList)
      rw [List.map_cons, List.map_cons, List.intercalate_cons_cons, List.append_assoc,
        List.singleton_append, lexemes_of_stands (hl.stands (ended_cons (by decide) _))
          hl.significant, lexemes_blank hnext]
      exact congrArg (l :: ·) (ih hls _)

/-- A text keeps its tokens when everything between them is replaced by single blanks.  Each of them
is also the only token of its own text, so that its kind does not depend on what stood around it. -/
theorem tokenize_respaced (source : String) :
    (tokenize (" ".intercalate ((tokenize source).map Token.text))).map Token.lexeme =
        (tokenize source).map Token.lexeme ∧
      (∀ t ∈ tokenize source, (tokenize t.text).map Token.lexeme = [t.lexeme]) ∧
      ∀ (other : String), ∀ t ∈ tokenize source, ∀ t' ∈ tokenize other,
        t.text = t'.text → t.kind = t'.kind := by
  have read (text : String) : (tokenize text).map Token.lexeme = lexemes ⟨text.toList, 0⟩ := rfl
  have alone {source : String} : ∀ t ∈ tokenize source,
      (tokenize t.text).map Token.lexeme = [t.lexeme] := by
    intro t ht
    have hfree : ∀ l ∈ [t.lexeme], l.Free := by simpa using free_of_mem_tokenize ht
    rw [read]
    simpa [Token.lexeme] using lexemes_spaced hfree 0
  refine ⟨?_, alone, fun other t ht t' ht' htext => ?_⟩
  · have hfree : ∀ l ∈ (tokenize source).map Token.lexeme, l.Free := by
      rintro l hl
      obtain ⟨t, ht, rfl⟩ := List.mem_map.1 hl
      exact free_of_mem_tokenize ht
    have htexts : (" ".intercalate ((tokenize source).map Token.text)).toList =
        [' '].intercalate (((tokenize source).map Token.lexeme).map fun l => l.text.toList) := by
      rw [String.toList_intercalate, List.map_map, List.map_map]
      rfl
    rw [read, htexts, lexemes_spaced hfree]
  · have hlexeme : [t.lexeme] = [t'.lexeme] := by rw [← alone t ht, ← alone t' ht', htext]
    exact congrArg Lexeme.kind (List.singleton_inj.1 hlexeme)

theorem tokenize_respaced_cut :
    (tokenize "1 e + x / *= 0 x").map Token.lexeme =
        (tokenize "1e+/**/x/*=0x").map Token.lexeme ∧
      ∃ t ∈ tokenize "1e+/**/x/*=0x", ∃ t' ∈ tokenize "a[1]",
        t.text = t'.text ∧ t.kind = t'.kind ∧
        (tokenize t.text).map Token.lexeme = [t.lexeme] := by
  obtain ⟨hspaced, halone, hkind⟩ := tokenize_respaced "1e+/**/x/*=0x"
  have htexts : (tokenize "1e+/**/x/*=0x").map Token.text =
      ["1", "e", "+", "x", "/", "*=", "0", "x"] := by decide +kernel
  have hfirst : (⟨.intLiteral, 0, "1"⟩ : Token) ∈ tokenize "1e+/**/x/*=0x" := by decide +kernel
  have hother : (⟨.intLiteral, 2, "1"⟩ : Token) ∈ tokenize "a[1]" := by decide +kernel
  rw [htexts] at hspaced
  exact ⟨hspaced, _, hfirst, _, hother, rfl, hkind "a[1]" _ hfirst _ hother rfl,
    halone _ hfirst⟩

end Lexer

end RasterShader
