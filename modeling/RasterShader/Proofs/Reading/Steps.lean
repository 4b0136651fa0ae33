import RasterShader.Proofs.Reading.Lexemes

/-!
# What parsing steps read

`Parser.Ahead p ls tail` says that the next tokens of a parser are the lexemes `ls`, whether or not
the first of them has been looked at already. On that rests `ParserM.Reads`: a step succeeds on
any parser with certain lexemes ahead, takes the first of them, and gives a value with reports as
a postcondition says. It composes along `>>=`, so that a rule of the grammar is read off
rule by rule, without its state.
-/

namespace RasterShader

/-- The token is neither trivia nor a word that may not be used. -/
def Lexeme.Usable (l : Lexeme) (s : Session) : Prop :=
  l.kind.isTrivia = false ∧ ParserM.isForbidden ⟨l.kind, 0, l.text⟩ s.allowsPrivate = false

/-- The next tokens are the lexemes `ls`, and `tail` stands behind them. -/
structure Parser.Ahead (p : Parser) (ls : List Lexeme) (tail : List Char) : Prop where
  usable : ∀ l ∈ ls, l.Usable p.session
  length_le : ls.length ≤ p.size + 1
  spelled : ∃ m, Spells p.lexer.rest m tail ∧ ls = p.pushback.toList.map Token.lexeme ++ m

/-- At the start of a text all its lexemes are ahead. -/
theorem Parser.ahead_start {cs tail : List Char} {s : Session} {ls : List Lexeme}
    (hspells : Spells cs ls tail) (husable : ∀ l ∈ ls, l.Usable s) :
    (Parser.start cs s).Ahead ls tail :=
  ⟨husable, hspells.length_le, ls, hspells, rfl⟩

namespace ParserM

variable {α β σ : Type} {s : Session} {step : ParserM α} {f : α → ParserM β} {d d' d'' : Nat}
  {l : Lexeme} {ls m rest : List Lexeme} {P : Checked α → Prop} {Q : Checked β → Prop}

/-- With the lexemes `ls` and `rest` ahead, at nesting `d`, the step succeeds: it takes `ls`, ends
at nesting `d'` and gives a value, and makes reports, as `Q` says. Of the session it changes
nothing but the reports. -/
def Reads (s : Session) (step : ParserM α) (d d' : Nat) (ls rest : List Lexeme)
    (Q : Checked α → Prop) : Prop :=
  ∀ (p : Parser) (sink : Sink Report) (tail : List Char), p.session = { s with sink } →
    p.depth = d → p.Ahead (ls ++ rest) tail →
    ∃ x p', Q x ∧ (OptionT.run step).run p = (some x.value, p') ∧
      p'.session = { s with sink := sink.reportAll x.reports } ∧ p'.depth = d' ∧
      p'.Ahead rest tail

/-- Nothing is reported and the value is as `P` says. -/
def Clean (P : α → Prop) (x : Checked α) : Prop := x.reports = [] ∧ P x.value

theorem run_bind (p p' : Parser) (a : α) (h : (OptionT.run step).run p = (some a, p')) :
    (OptionT.run (step >>= f)).run p = (OptionT.run (f a)).run p' := by
  simp only [OptionT.run_bind, Option.elimM, StateT.run_bind, h]
  rfl

theorem run_get_bind (f : Parser → ParserM β) (p : Parser) :
    (OptionT.run (get >>= f)).run p = (OptionT.run (f p)).run p := run_bind p p p rfl

theorem Reads.mono {P' : Checked α → Prop} (h : Reads s step d d' ls rest P)
    (hP : ∀ x, P x → P' x) : Reads s step d d' ls rest P' := by
  intro p sink tail hs hd hp
  obtain ⟨x, p', hx, hrun⟩ := h p sink tail hs hd hp
  exact ⟨x, p', hP x hx, hrun⟩

theorem Reads.bind (h : Reads s step d d' ls (m ++ rest) P)
    (hf : ∀ x, P x →
      Reads s (f x.value) d' d'' m rest fun y => Q ⟨y.value, x.reports ++ y.reports⟩) :
    Reads s (step >>= f) d d'' (ls ++ m) rest Q := by
  intro p sink tail hs hd hp
  obtain ⟨x, p', hx, hrun, hs', hd', hp'⟩ := h p sink tail hs hd (by rwa [← List.append_assoc])
  obtain ⟨y, p'', hy, hrun', hs'', hd'', hp''⟩ := hf x hx p' _ tail hs' hd' hp'
  refine ⟨_, p'', hy, (run_bind p p' x.value hrun).trans hrun', ?_, hd'', hp''⟩
  rw [hs'', Sink.reportAll, Sink.reportAll, ← List.foldl_append]
  rfl

/-- A step without reports, and what comes after it. -/
theorem Reads.bind_clean {P : α → Prop} (h : Reads s step d d' ls (m ++ rest) (Clean P))
    (hf : ∀ a, P a → Reads s (f a) d' d'' m rest Q) :
    Reads s (step >>= f) d d'' (ls ++ m) rest Q := by
  refine h.bind fun x hx => ?_
  rw [hx.1]
  exact hf x.value hx.2

/-- A step, and what comes after it and takes no more. -/
theorem Reads.bind_last (h : Reads s step d d' ls rest P)
    (hf : ∀ x, P x →
      Reads s (f x.value) d' d'' [] rest fun y => Q ⟨y.value, x.reports ++ y.reports⟩) :
    Reads s (step >>= f) d d'' ls rest Q := by
  rw [← List.append_nil ls]
  exact Reads.bind h hf

/-- A step that takes nothing and reports nothing, and what comes after it. -/
theorem Reads.bind_first {P : α → Prop} (h : Reads s step d d' [] (ls ++ rest) (Clean P))
    (hf : ∀ a, P a → Reads s (f a) d' d'' ls rest Q) : Reads s (step >>= f) d d'' ls rest Q :=
  h.bind_clean hf

theorem reads_pure {a : α} (h : P (pure a)) : Reads s (pure a) d d [] rest P :=
  fun p _ _ hs hd hp => ⟨pure a, p, h, rfl, hs, hd, hp⟩

theorem reads_ofOption {P : α → Prop} {a : α} (h : P a) :
    Reads s (ofOption (some a)) d d [] rest (Clean P) :=
  fun p _ _ hs hd hp => ⟨pure a, p, ⟨rfl, h⟩, rfl, hs, hd, hp⟩

/-- The session that a step sees is the given one, but for what has been reported. -/
theorem reads_get :
    Reads s get d d [] rest (Clean fun p => ∃ sink, p.session = { s with sink }) :=
  fun p sink _ hs hd hp => ⟨pure p, p, ⟨rfl, sink, hs⟩, rfl, hs, hd, hp⟩

theorem reads_dialect : Reads s dialect d d [] rest (Clean (· = s.dialect)) := by
  intro p sink tail hs hd hp
  refine ⟨pure p.session.dialect, p, ⟨rfl, ?_⟩, rfl, hs, hd, hp⟩
  show p.session.dialect = s.dialect
  rw [hs]

theorem reads_check (x : Checked α) : Reads s (check x) d d [] rest (· = x) := by
  intro p sink tail hs hd hp
  refine ⟨x, { p with session := { s with sink := sink.reportAll x.reports } }, rfl, ?_, rfl, hd,
    ?_⟩
  · have hsink : p.session.sink = sink := by rw [hs]
    show (some x.value, { p with session := { p.session with
      sink := p.session.sink.reportAll x.reports } }) = _
    rw [hsink, hs]
  · refine ⟨fun l hl => ?_, hp.length_le, hp.spelled⟩
    have := hp.usable l hl
    rw [hs] at this
    exact this

/-! ## Tokens -/

/-- The value is a token of the lexeme. -/
def IsToken (l : Lexeme) (t : Token) : Prop := t.lexeme = l

theorem IsToken.kind {t : Token} (h : IsToken l t) : t.kind = l.kind := by rw [← h]; rfl

theorem IsToken.text {t : Token} (h : IsToken l t) : t.text = l.text := by rw [← h]; rfl

/-- A fresh token is the next one that is not trivia, or an identifier in the place of a word that
may not be used. -/
theorem run_freshToken (p : Parser) :
    (OptionT.run freshToken).run p =
      (OptionT.run (if isForbidden p.lexer.nextSignificant.1 p.session.allowsPrivate then do
          report p.lexer.nextSignificant.1.span (.reservedWord p.lexer.nextSignificant.1.text)
          return { p.lexer.nextSignificant.1 with kind := .identifier }
        else pure p.lexer.nextSignificant.1)).run
          { p with lexer := p.lexer.nextSignificant.2 } := rfl

/-- Taking the next token leaves nothing pushed back. -/
theorem run_nextToken {p : Parser} {tail : List Char} (hp : p.Ahead (l :: rest) tail) :
    ∃ t lexer, (OptionT.run nextToken).run p = (some t, { p with pushback := none, lexer }) ∧
      IsToken l t ∧ Parser.Ahead { p with pushback := none, lexer } rest tail := by
  obtain ⟨husable, hlength, m, hspells, hls⟩ := hp
  have hlength' : rest.length ≤ p.size + 1 := (Nat.le_succ _).trans hlength
  have hl : l.Usable p.session := husable l (by simp)
  have hrest : ∀ l ∈ rest, l.Usable p.session := fun l h => husable l (by simp [h])
  have htake : (OptionT.run takePushback).run p = (some p.pushback, { p with pushback := none }) :=
    rfl
  rw [nextToken, run_bind p _ p.pushback htake]
  cases hpush : p.pushback with
  | some t =>
    simp only [hpush, Option.toList_some, List.map_cons, List.map_nil, List.cons_append,
      List.nil_append, List.cons.injEq] at hls
    obtain ⟨rfl, rfl⟩ := hls
    have htrivia : t.kind.isTrivia = false := hl.1
    simp only [htrivia]
    exact ⟨t, p.lexer, rfl, rfl, hrest, hlength', rest, hspells, rfl⟩
  | none =>
    simp only [hpush, Option.toList_none, List.map_nil, List.nil_append] at hls
    subst hls
    obtain ⟨t, lexer, hnext, htoken, hlexer⟩ := hspells.nextSignificant hl.1 p.lexer.offset
    have hforbidden : isForbidden t p.session.allowsPrivate = false := by
      rw [← htoken] at hl
      exact hl.2
    refine ⟨t, lexer, ?_, htoken, hrest, hlength', rest, hlexer, rfl⟩
    dsimp only
    rw [run_freshToken, show p.lexer.nextSignificant = (t, lexer) from hnext]
    simp only [hforbidden]
    rfl

theorem reads_nextToken : Reads s nextToken d d [l] rest (Clean (IsToken l)) := by
  intro p sink tail hs hd hp
  obtain ⟨t, lexer, hrun, ht, hp'⟩ := run_nextToken hp
  exact ⟨pure t, _, ⟨rfl, ht⟩, hrun, hs, hd, hp'⟩

theorem reads_peek : Reads s peek d d [] (l :: rest) (Clean (IsToken l)) := by
  intro p sink tail hs hd hp
  obtain ⟨t, lexer, hrun, ht, hp'⟩ := run_nextToken hp
  refine ⟨pure t, { p with pushback := some t, lexer }, ⟨rfl, ht⟩, ?_, hs, hd, hp.usable,
    hp.length_le, ?_⟩
  · rw [peek, run_bind p _ t hrun]
    rfl
  · obtain ⟨m, hspells, hrest⟩ := hp'.spelled
    refine ⟨m, hspells, ?_⟩
    simp only [Option.toList_none, List.map_nil, List.nil_append] at hrest
    simp only [Option.toList_some, List.map_cons, List.map_nil, List.cons_append, List.nil_append,
      hrest, show t.lexeme = l from ht]

theorem reads_accept? {kind : TokenKind} (h : l.kind = kind) :
    Reads s (accept? kind) d d [l] rest (Clean fun o => ∃ t, o = some t ∧ IsToken l t) := by
  intro p sink tail hs hd hp
  obtain ⟨t, lexer, hrun, ht, hp'⟩ := run_nextToken hp
  refine ⟨pure (some t), { p with pushback := none, lexer }, ⟨rfl, t, rfl, ht⟩, ?_, hs, hd, hp'⟩
  have hpeek : (OptionT.run peek).run p = (some t, { p with pushback := some t, lexer }) := by
    rw [peek, run_bind p _ t hrun]
    rfl
  have hkind : (t.kind == kind) = true := by rw [ht.kind, h, beq_self_eq_true]
  rw [accept?, run_bind p _ t hpeek]
  simp only [hkind]
  rfl

theorem reads_accept?_of_ne {kind : TokenKind} (h : l.kind ≠ kind) :
    Reads s (accept? kind) d d [] (l :: rest) (Clean (· = none)) := by
  refine Reads.bind_first reads_peek fun t ht => ?_
  have hkind : (t.kind == kind) = false := by rw [ht.kind, beq_eq_false_iff_ne]; exact h
  simp only [hkind]
  exact reads_pure ⟨rfl, rfl⟩

theorem reads_accepts {kind : TokenKind} (h : l.kind = kind) :
    Reads s (accepts kind) d d [l] rest (Clean (· = true)) := by
  refine (reads_accept? h).bind_clean (m := []) ?_
  rintro o ⟨t, rfl, -⟩
  exact reads_pure ⟨rfl, rfl⟩

theorem reads_accepts_of_ne {kind : TokenKind} (h : l.kind ≠ kind) :
    Reads s (accepts kind) d d [] (l :: rest) (Clean (· = false)) := by
  refine Reads.bind_first (reads_accept?_of_ne h) ?_
  rintro o rfl
  exact reads_pure ⟨rfl, rfl⟩

theorem reads_expect {wanted : Wanted} (h : l.kind = wanted.kind) :
    Reads s (expect wanted) d d [l] rest (Clean (IsToken l)) := by
  refine reads_nextToken.bind_clean (m := []) fun t ht => ?_
  have hkind : (t.kind == wanted.kind) = true := by rw [ht.kind, h, beq_self_eq_true]
  simp only [hkind]
  exact reads_pure ⟨rfl, ht⟩

/-! ## Nesting and loops -/

theorem reads_enter (h : d < Parser.maxDepth) :
    Reads s enter d (d + 1) [] rest (Clean fun _ => True) := by
  intro p sink tail hs hd hp
  refine ⟨pure (), { p with depth := p.depth + 1 }, ⟨rfl, trivial⟩, ?_, hs, by rw [← hd],
    hp.usable, hp.length_le, hp.spelled⟩
  have hmodify : (OptionT.run (modify (fun p : Parser => { p with depth := p.depth + 1 }) :
      ParserM Unit)).run p = (some (), { p with depth := p.depth + 1 }) := rfl
  rw [enter, run_bind p _ () hmodify, run_get_bind]
  have hlt : ¬ Parser.maxDepth < p.depth + 1 := by omega
  simp only [hlt]
  rfl

theorem Reads.nested {k : Nat} (h : Reads s step d k ls rest P) :
    Reads s (nested step) d d ls rest P := by
  intro p sink tail hs hd hp
  obtain ⟨x, p', hx, hrun, hs', -, hp'⟩ := h p sink tail hs hd hp
  refine ⟨x, { p' with depth := d }, hx, ?_, hs', rfl, hp'.usable, hp'.length_le, hp'.spelled⟩
  have hattempt : (OptionT.run (attempt step)).run p = (some (some x.value), p') := by
    show (some <$> OptionT.run step : StateM Parser _).run p = _
    rw [StateT.run_map, hrun]
    rfl
  rw [ParserM.nested, run_get_bind, ensuring, run_bind p p' _ hattempt, hd]
  rfl

/-- A loop has as many rounds as there are tokens ahead, and one more. -/
theorem reads_loop {f : σ → ParserM (σ ⊕ α)} {a : σ}
    (h : ∀ fuel, (ls ++ rest).length < fuel → Reads s (iterate f fuel a) d d' ls rest P) :
    Reads s (loop a f) d d' ls rest P := by
  intro p sink tail hs hd hp
  have hlength := hp.length_le
  rw [loop, run_get_bind]
  exact h (p.size + 2) (by omega) p sink tail hs hd hp

/-- The last round of a loop. -/
theorem reads_iterate_done {f : σ → ParserM (σ ⊕ α)} {a : σ} {b : α} {fuel : Nat} (hfuel : 0 < fuel)
    (hf : Reads s (f a) d d' ls rest (Clean (· = .inr b))) (hP : P (pure b)) :
    Reads s (iterate f fuel a) d d' ls rest P := by
  obtain ⟨fuel, rfl⟩ : ∃ n, fuel = n + 1 := ⟨fuel - 1, by omega⟩
  rw [iterate, ← List.append_nil ls]
  refine Reads.bind_clean (by simpa using hf) ?_
  rintro _ rfl
  exact reads_pure hP

/-- A round that goes on, and the rounds after it. -/
theorem reads_iterate_next {f : σ → ParserM (σ ⊕ α)} {a : σ} {R : Checked σ → Prop}
    {fuel k : Nat}
    (hf : Reads s (f a) d k ls (m ++ rest) fun y =>
      ∃ x : Checked σ, R x ∧ y = ⟨.inl x.value, x.reports⟩)
    (hnext : ∀ x, R x → Reads s (iterate f fuel x.value) k d'' m rest
      fun y => P ⟨y.value, x.reports ++ y.reports⟩) :
    Reads s (iterate f (fuel + 1) a) d d'' (ls ++ m) rest P := by
  rw [iterate]
  refine hf.bind ?_
  rintro _ ⟨x, hx, rfl⟩
  exact hnext x hx

end ParserM

end RasterShader
