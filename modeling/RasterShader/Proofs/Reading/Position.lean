import Mathlib
import RasterShader.Proofs.Reading.Steps

/-!
# Where a parser stands

What a parser has not used is the end of its source (`Parser.unread`), so that the cursor follows
from how much that is.  A parser is sound (`Parser.Sound`) if a token that is pushed back stands
just before what the lexer has left; another one stands in its text, there or further on
(`Parser.Onward`), if what it has not used is the end of what the first one has not.  Between the
two the cursor moves if and only if something has been used.

`ParserM.runOn` is what a step does on a parser.  A step that is `Still` changes the session only.
-/

namespace RasterShader

open String (utf8Len)

/-! ## Tokens and what is behind them -/

/-- The token stands just before what a lexer has left.  The end of the text is the only token
without characters. -/
structure Token.Precedes (t : Token) (lexer : Lexer) : Prop where
  stop : t.stop = lexer.offset
  text : t.kind = .endOfFile ↔ t.text.toList = []
  rest : t.kind = .endOfFile → lexer.rest = []

theorem Token.length_eq (t : Token) : t.length = utf8Len t.text.toList := by
  rw [Token.length, ← String.utf8ByteSize_ofList, String.ofList_toList]

namespace Lexer

theorem wordKind_ne_endOfFile (text : String) : wordKind text ≠ .endOfFile := by
  have hkeywords : ∀ entry ∈ keywords, entry.2 ≠ .endOfFile := by decide
  rw [wordKind]
  cases hlookup : keywords.lookup text with
  | some kind =>
    obtain ⟨first, last, hsplit, -⟩ := List.lookup_eq_some_iff.1 hlookup
    exact hkeywords (text, kind) (by rw [hsplit]; simp)
  | none =>
    simp only
    split <;> simp

theorem operator?_ne_endOfFile {cs : List Char} {kind : TokenKind} {n : Nat}
    (h : operator? cs = some (kind, n)) : kind ≠ .endOfFile := by
  have hpunctuation : ∀ entry ∈ punctuation, entry.2 ≠ .endOfFile := by decide
  obtain ⟨entry, hfind, hentry⟩ := Option.map_eq_some_iff.1 h
  obtain ⟨rfl, rfl⟩ := Prod.mk.inj hentry
  exact hpunctuation entry (List.mem_of_find?_eq_some hfind)

theorem scan_ne_endOfFile (cs : List Char) : (scan cs).1 ≠ .endOfFile := by
  have orElse {o o' : Option (TokenKind × Nat)} (h : ∀ r ∈ o, r.1 ≠ .endOfFile)
      (h' : ∀ r ∈ o', r.1 ≠ .endOfFile) : ∀ r ∈ o <|> o', r.1 ≠ .endOfFile := by
    cases o with
    | none => simpa using h'
    | some r => simpa using h
  have kinded {kind : TokenKind} (hkind : kind ≠ .endOfFile) (o : Option Nat) :
      ∀ r ∈ o.map (kind, ·), r.1 ≠ .endOfFile := by
    rintro r hr
    obtain ⟨n, -, rfl⟩ := Option.map_eq_some_iff.1 hr
    exact hkind
  have hword : ∀ r ∈ (word cs).map (fun n => (wordKind (String.ofList (cs.take n)), n)),
      r.1 ≠ .endOfFile := by
    rintro r hr
    obtain ⟨n, -, rfl⟩ := Option.map_eq_some_iff.1 hr
    exact wordKind_ne_endOfFile _
  have getD {o : Option (TokenKind × Nat)} (h : ∀ r ∈ o, r.1 ≠ .endOfFile) :
      (o.getD (.invalid, 1)).1 ≠ .endOfFile := by
    cases o with
    | none => simp
    | some r => exact h r rfl
  rw [scan]
  refine getD (orElse (kinded (by decide) _) (orElse (kinded (by decide) _)
    (orElse (kinded (by decide) _) (orElse (kinded (by decide) _) (orElse (kinded (by decide) _)
      (orElse hword (orElse (kinded (by decide) _) (orElse ?_ (kinded (by decide) _)))))))))
  exact fun r hr => operator?_ne_endOfFile hr

/-- What a lexer reads is a token that stands before what is left, and shortens a text that is not
empty. -/
structure Reading (lexer : Lexer) (t : Token) (lexer' : Lexer) : Prop where
  precedes : t.Precedes lexer'
  stop : lexer'.offset + utf8Len lexer'.rest = lexer.offset + utf8Len lexer.rest
  suffix : t.text.toList ++ lexer'.rest <:+ lexer.rest
  shorter : lexer.rest ≠ [] → lexer'.rest.length < lexer.rest.length

theorem reading_next (lexer : Lexer) : lexer.Reading lexer.next.1 lexer.next.2 := by
  obtain ⟨rest, offset⟩ := lexer
  cases rest with
  | nil => exact ⟨⟨by simp [next, Token.stop, Token.length], by simp [next], fun _ => rfl⟩,
      rfl, by simp [next], fun h => absurd rfl h⟩
  | cons c cs =>
    have hpos : 1 ≤ max (scan (c :: cs)).2 1 := le_max_right ..
    have hkind := scan_ne_endOfFile (c :: cs)
    generalize hn : max (scan (c :: cs)).2 1 = n at hpos
    have hnext : next ⟨c :: cs, offset⟩ =
        (⟨(scan (c :: cs)).1, offset, String.ofList ((c :: cs).take n)⟩,
          ⟨(c :: cs).drop n, offset + utf8Len ((c :: cs).take n)⟩) := by
      simp only [next, List.isEmpty_cons, Bool.false_eq_true, if_false, hn, Token.stop,
        Token.length, String.utf8ByteSize_ofList]
    have htake : (c :: cs).take n ≠ [] := by
      rw [Ne, List.take_eq_nil_iff]
      simp
      omega
    rw [hnext]
    refine ⟨⟨?_, ?_, ?_⟩, ?_, ?_, fun _ => ?_⟩
    · rw [Token.stop, Token.length_eq, String.toList_ofList]
    · simp only [String.toList_ofList]
      exact ⟨fun h => absurd h hkind, fun h => absurd h htake⟩
    · exact fun h => absurd h hkind
    · rw [Nat.add_assoc, ← String.utf8Len_append, List.take_append_drop]
    · rw [String.toList_ofList, List.take_append_drop]
    · simp only [List.length_drop, List.length_cons]
      omega

theorem Reading.trans {lexer lexer' lexer'' : Lexer} {t t' : Token} (h : lexer.Reading t lexer')
    (h' : lexer'.Reading t' lexer'') : lexer.Reading t' lexer'' where
  precedes := h'.precedes
  stop := h'.stop.trans h.stop
  suffix := h'.suffix.trans ((List.suffix_append ..).trans h.suffix)
  shorter hne := ((List.suffix_append ..).trans h'.suffix).length_le.trans_lt (h.shorter hne)

theorem reading_nextSignificant (lexer : Lexer) :
    lexer.Reading lexer.nextSignificant.1 lexer.nextSignificant.2 := by
  fun_induction nextSignificant lexer with
  | case1 lexer h => exact reading_next lexer
  | case2 lexer h result htrivia ih => exact (reading_next lexer).trans ih
  | case3 lexer h result htrivia => exact reading_next lexer

theorem isTrivia_nextSignificant (lexer : Lexer) :
    lexer.nextSignificant.1.kind.isTrivia = false := by
  fun_induction nextSignificant lexer with
  | case1 lexer h => simp [next, h, TokenKind.isTrivia]
  | case2 lexer h result htrivia ih => exact ih
  | case3 lexer h result htrivia => exact Bool.eq_false_iff.2 htrivia

end Lexer

/-! ## Sound parsers -/

namespace Parser

variable {p q r : Parser}

/-- The characters that have not been used: those of the token that is pushed back, and what the
lexer has left. -/
def unread (p : Parser) : List Char :=
  (p.pushback.map fun t => t.text.toList).getD [] ++ p.lexer.rest

/-- Offset of the end of the source. -/
def stop (p : Parser) : Nat := p.lexer.offset + utf8Len p.lexer.rest

/-- What is pushed back stands just before what the lexer has left, and the source is long enough
for what has not been used. -/
structure Sound (p : Parser) : Prop where
  room : p.unread.length ≤ p.size
  pushed : ∀ t, p.pushback = some t → t.Precedes p.lexer

theorem sound_start (source : List Char) (session : Session) : (start source session).Sound :=
  ⟨le_rfl, by simp [start]⟩

/-- The cursor stands where the characters that have not been used begin. -/
theorem Sound.cursor_add (h : p.Sound) : p.cursor + utf8Len p.unread = p.stop := by
  cases hpush : p.pushback with
  | none => simp [cursor, unread, stop, hpush]
  | some t =>
    have hstop := (h.pushed t hpush).stop
    rw [Token.stop, Token.length_eq] at hstop
    simp only [cursor, unread, stop, hpush, Option.map_some, Option.getD_some,
      String.utf8Len_append]
    omega

/-- A sound parser that stands in the text of another one, there or further on. -/
structure Onward (p q : Parser) : Prop where
  sound : q.Sound
  size : q.size = p.size
  stop : q.stop = p.stop
  suffix : q.unread <:+ p.unread

theorem Onward.trans (h : p.Onward q) (h' : q.Onward r) : p.Onward r :=
  ⟨h'.sound, h'.size.trans h.size, h'.stop.trans h.stop, h'.suffix.trans h.suffix⟩

theorem Onward.length_le (h : p.Onward q) : q.unread.length ≤ p.unread.length :=
  h.suffix.length_le

/-- The cursor has moved by what has been used. -/
theorem Onward.exists_cursor (sound : p.Sound) (h : p.Onward q) :
    ∃ used, p.unread = used ++ q.unread ∧ q.cursor = p.cursor + utf8Len used := by
  obtain ⟨used, hused⟩ := h.suffix
  refine ⟨used, hused.symm, ?_⟩
  have hp := sound.cursor_add
  have hq := h.sound.cursor_add
  rw [← hused, String.utf8Len_append] at hp
  rw [h.stop] at hq
  omega

theorem Onward.cursor_le (sound : p.Sound) (h : p.Onward q) : p.cursor ≤ q.cursor := by
  obtain ⟨used, -, hcursor⟩ := h.exists_cursor sound
  omega

/-- The cursor has moved if and only if something has been used. -/
theorem Onward.cursor_lt_iff (sound : p.Sound) (h : p.Onward q) :
    p.cursor < q.cursor ↔ q.unread.length < p.unread.length := by
  obtain ⟨used, hused, hcursor⟩ := h.exists_cursor sound
  rw [hused, hcursor, List.length_append]
  cases used with
  | nil => simp
  | cons c used =>
    have hpos : utf8Len (c :: used) ≠ 0 := fun h => by simpa using String.utf8Len_eq_zero.1 h
    simp only [List.length_cons]
    omega

end Parser

namespace ParserM

variable {α β σ : Type}

/-! ## Runs of steps -/

/-- What a step gives on a parser, and the parser after it. -/
def runOn (step : ParserM α) (p : Parser) : Option α × Parser := (OptionT.run step).run p

theorem runOn_bind (step : ParserM α) (f : α → ParserM β) (p : Parser) :
    (step >>= f).runOn p =
      match step.runOn p with
      | (some a, q) => (f a).runOn q
      | (none, q) => (none, q) := by
  simp only [runOn, OptionT.run_bind, Option.elimM, StateT.run_bind]
  rcases (OptionT.run step).run p with ⟨_ | a, q⟩ <;> rfl

theorem runOn_get_bind (f : Parser → ParserM β) (p : Parser) :
    (get >>= f).runOn p = (f p).runOn p := rfl

theorem runOn_attempt (step : ParserM α) (p : Parser) :
    (attempt step).runOn p = (some (step.runOn p).1, (step.runOn p).2) := by
  show (some <$> OptionT.run step : StateM Parser _).run p = _
  rw [StateT.run_map]
  rfl

theorem runOn_ensuring (step : ParserM α) (after : Parser → Parser) (p : Parser) :
    (ensuring step after).runOn p = ((step.runOn p).1, after (step.runOn p).2) := by
  rw [ensuring, runOn_bind, runOn_attempt]
  rfl

theorem runOn_nested (step : ParserM α) (p : Parser) :
    (nested step).runOn p = ((step.runOn p).1, { (step.runOn p).2 with depth := p.depth }) := by
  show (ensuring step fun q => { q with depth := p.depth }).runOn p = _
  rw [runOn_ensuring]

theorem runOn_freshToken (p : Parser) :
    freshToken.runOn p =
      ParserM.runOn (if isForbidden p.lexer.nextSignificant.1 p.session.allowsPrivate then do
          report p.lexer.nextSignificant.1.span (.reservedWord p.lexer.nextSignificant.1.text)
          return { p.lexer.nextSignificant.1 with kind := .identifier }
        else pure p.lexer.nextSignificant.1) { p with lexer := p.lexer.nextSignificant.2 } :=
  run_freshToken p

/-- Reports of a trial are held back, and dropped with everything else it did if it fails. -/
theorem runOn_speculate (step : ParserM α) (p : Parser) :
    (speculate step).runOn p =
      match step.runOn { p with session.sink := p.session.sink.beginBuffer } with
      | (some a, q) => (some (some a), { q with session.sink := q.session.sink.commitBuffer })
      | (none, q) => (some none, { q with
          lexer := p.lexer, pushback := p.pushback, depth := p.depth, fatal := p.fatal
          session.sink := q.session.sink.discardBuffer }) := by
  rw [speculate, runOn_get_bind, runOn_bind]
  show (attempt step >>= _).runOn _ = _
  rw [runOn_bind, runOn_attempt]
  rcases step.runOn { p with session.sink := p.session.sink.beginBuffer } with ⟨_ | a, q⟩ <;> rfl

/-- A step that leaves the text and the nesting alone. -/
def Still (step : ParserM α) : Prop :=
  ∀ p, ∃ session fatal, (step.runOn p).2 = { p with session, fatal }

theorem Still.bind {step : ParserM α} {f : α → ParserM β} (h : Still step)
    (hf : ∀ a, Still (f a)) : Still (step >>= f) := by
  intro p
  obtain ⟨session, fatal, hstep⟩ := h p
  rw [runOn_bind]
  rcases hrun : step.runOn p with ⟨_ | a, q⟩
  · exact ⟨session, fatal, by rw [← hstep, hrun]⟩
  · obtain ⟨session', fatal', hf⟩ := hf a q
    rw [hrun] at hstep
    subst hstep
    exact ⟨session', fatal', hf⟩

theorem still_pure (a : α) : Still (pure a) := fun p => ⟨p.session, p.fatal, rfl⟩

theorem still_failure : Still (failure : ParserM α) := fun p => ⟨p.session, p.fatal, rfl⟩

theorem still_ofOption (o : Option α) : Still (ofOption o) := fun p => ⟨p.session, p.fatal, rfl⟩

theorem still_get : Still get := fun p => ⟨p.session, p.fatal, rfl⟩

theorem still_modify {f : Parser → Parser}
    (h : ∀ p, ∃ session fatal, f p = { p with session, fatal }) : Still (modify f) := h

theorem still_inSession (step : SessionM α) : Still (inSession step) := fun p =>
  ⟨_, p.fatal, rfl⟩

theorem still_check (x : Checked α) : Still (check x) := still_inSession _

theorem still_dialect : Still dialect := still_get.bind fun _ => still_pure _

theorem still_report (span : Span) (issue : Issue) : Still (report span issue) := by
  refine still_get.bind fun p => ?_
  split
  · exact still_inSession _
  · exact still_pure _

theorem still_reportFatal (span : Span) (issue : Issue) : Still (reportFatal span issue) :=
  (still_report span issue).bind fun _ p => ⟨p.session, true, rfl⟩

theorem still_forM {xs : List α} {f : α → ParserM PUnit} (h : ∀ x, Still (f x)) :
    Still (xs.forM f) := by
  induction xs with
  | nil => exact still_pure _
  | cons x xs ih => exact (h x).bind fun _ => ih

theorem runOn_report (span : Span) (issue : Issue) (p : Parser) :
    ∃ session, (report span issue).runOn p = (some (), { p with session }) := by
  show ∃ session, (ParserM.runOn (if (!p.fatal) = true then _ else _) p) = _
  split
  · exact ⟨_, rfl⟩
  · exact ⟨p.session, rfl⟩

/-! ## The next token -/

theorem exists_runOn_freshToken (p : Parser) :
    ∃ t q, freshToken.runOn p = (some t, q) ∧ t.kind.isTrivia = false ∧ q.depth = p.depth := by
  have hsignificant := p.lexer.isTrivia_nextSignificant
  rw [runOn_freshToken]
  split
  · obtain ⟨session, hreport⟩ := runOn_report p.lexer.nextSignificant.1.span
      (.reservedWord p.lexer.nextSignificant.1.text)
      { p with lexer := p.lexer.nextSignificant.2 }
    rw [runOn_bind, hreport]
    exact ⟨_, _, rfl, rfl, rfl⟩
  · exact ⟨_, _, rfl, hsignificant, rfl⟩

theorem runOn_nextToken (p : Parser) :
    nextToken.runOn p = ParserM.runOn
      (match p.pushback with
        | some token => if token.kind.isTrivia then freshToken else pure token
        | none => freshToken) { p with pushback := none } := by
  rw [nextToken, runOn_bind]
  rfl

/-- There always is a next token, and it is not trivia.  Taking it does not change the nesting. -/
theorem exists_runOn_nextToken (p : Parser) :
    ∃ t q, nextToken.runOn p = (some t, q) ∧ t.kind.isTrivia = false ∧ q.depth = p.depth := by
  rw [runOn_nextToken]
  cases p.pushback with
  | none => exact exists_runOn_freshToken _
  | some t =>
    by_cases ht : t.kind.isTrivia = true
    · simp only [ht, if_true]
      exact exists_runOn_freshToken _
    · simp only [ht]
      exact ⟨t, _, rfl, Bool.eq_false_iff.2 ht, rfl⟩

/-- A token that is pushed back is the next one. -/
theorem runOn_nextToken_of_pushback {p : Parser} {t : Token} (hpush : p.pushback = some t)
    (ht : t.kind.isTrivia = false) :
    nextToken.runOn p = (some t, { p with pushback := none }) := by
  rw [runOn_nextToken, hpush]
  simp only [ht]
  rfl

/-- The next token is pushed back when it is looked at. -/
theorem exists_runOn_peek (p : Parser) :
    ∃ (t : Token) (q : Parser), peek.runOn p = (some t, { q with pushback := some t }) ∧
      t.kind.isTrivia = false ∧ q.depth = p.depth := by
  obtain ⟨t, q, hrun, ht, hdepth⟩ := exists_runOn_nextToken p
  refine ⟨t, q, ?_, ht, hdepth⟩
  rw [peek, runOn_bind, hrun]
  rfl

theorem runOn_peek_of_pushback {p : Parser} {t : Token} (hpush : p.pushback = some t)
    (ht : t.kind.isTrivia = false) : peek.runOn p = (some t, p) := by
  rw [peek, runOn_bind, runOn_nextToken_of_pushback hpush ht]
  show (some t, { p with pushback := some t }) = _
  rw [← hpush]

end ParserM

end RasterShader
