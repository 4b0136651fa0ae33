import Mathlib
import RasterShader.Proofs.Reading.Position

/-!
# How far steps come

Every step of the grammar takes a sound parser onward: it never gives back what was used before the
step, not even when it fails or comes back from a trial.  `ParserM.Tracks` says this of two steps at
once that do the same on all parsers at certain levels of nesting, `ParserM.Advances` of one.  Both
also say for which results something has been used up, from which the rounds of a loop can be
counted.  They compose along `>>=`, so that the grammar can be treated rule by rule.

A loop whose rounds move the cursor on ends (`ParserM.exists_loops_loop`): what it gives is what its
rounds give one after the other, and the number of rounds it is bounded by is never come to.
-/

namespace RasterShader

namespace ParserM

variable {α β σ : Type}

/-! ## Steps that go onward -/

/-- From `p`, a step has come onward to a state at no lower level of nesting, and at the same level
unless it is `deep`; if it succeeded, the level is at most `hi`, and characters have been used if
the value is one that `S` tells. -/
structure Progress (hi : Nat) (deep : Bool) (S : α → Prop) (p : Parser)
    (result : Option α × Parser) : Prop where
  onward : p.Onward result.2
  depth : p.depth ≤ result.2.depth
  level : deep = false → result.2.depth = p.depth
  within : ∀ a, result.1 = some a → result.2.depth ≤ hi
  used : ∀ a, result.1 = some a → S a → result.2.unread.length < p.unread.length

/-- On every sound parser for which `C` holds, two steps do the same and make progress. -/
def TracksFrom (C : Parser → Prop) (hi : Nat) (deep : Bool) (step step' : ParserM α)
    (S : α → Prop) : Prop :=
  ∀ p, p.Sound → C p → step'.runOn p = step.runOn p ∧ Progress hi deep S p (step.runOn p)

/-- At all levels of nesting from `lo` to `hi`, two steps do the same and make progress. -/
abbrev Tracks (lo hi : Nat) (deep : Bool) (step step' : ParserM α) (S : α → Prop) : Prop :=
  TracksFrom (fun p => lo ≤ p.depth ∧ p.depth ≤ hi) hi deep step step' S

/-- At all levels of nesting from `lo` to `hi`, a step makes progress. -/
abbrev Advances (lo hi : Nat) (deep : Bool) (step : ParserM α) (S : α → Prop) : Prop :=
  Tracks lo hi deep step step S

variable {lo hi : Nat} {deep : Bool} {C : Parser → Prop} {step step' : ParserM α}
  {f f' : α → ParserM β} {S T : α → Prop} {U : β → Prop} {p q : Parser}

theorem Progress.mono {result : Option α × Parser} (h : Progress hi deep S p result)
    (hT : ∀ a, T a → S a) : Progress hi deep T p result :=
  ⟨h.onward, h.depth, h.level, h.within, fun a ha hTa => h.used a ha (hT a hTa)⟩

/-- Progress after progress. -/
theorem Progress.after {result : Option β × Parser} (h : Progress hi deep U q result)
    (onward : p.Onward q) (depth : q.depth = p.depth) : Progress hi deep U p result :=
  ⟨onward.trans h.onward, depth ▸ h.depth, fun hdeep => (h.level hdeep).trans depth, h.within,
    fun b hb hU => (h.used b hb hU).trans_le onward.length_le⟩

/-- A step that has come onward at one level and failed. -/
theorem Progress.of_none (onward : p.Onward q) (depth : q.depth = p.depth) :
    Progress hi deep S p (none, q) :=
  ⟨onward, depth.ge, fun _ => depth, by simp, by simp⟩

/-- A step that has come onward at one level. -/
theorem Progress.of_onward {o : Option α} (onward : p.Onward q) (depth : q.depth = p.depth)
    (hhi : p.depth ≤ hi) (used : ∀ a, o = some a → S a → q.unread.length < p.unread.length) :
    Progress hi deep S p (o, q) :=
  ⟨onward, depth.ge, fun _ => depth, fun _ _ => depth.trans_le hhi, used⟩

theorem TracksFrom.mono (h : TracksFrom C hi deep step step' S) (hT : ∀ a, T a → S a) :
    TracksFrom C hi deep step step' T := by
  intro p sound hC
  obtain ⟨hrun, progress⟩ := h p sound hC
  exact ⟨hrun, progress.mono hT⟩

theorem TracksFrom.weaken (h : TracksFrom C hi deep step step' S) :
    TracksFrom C hi deep step step' fun _ => False :=
  h.mono fun _ => False.elim

/-- A step, and what comes after it; the second has to use characters only if the first did not. -/
theorem TracksFrom.bind (h : TracksFrom C hi deep step step' S) (hC : ∀ p, C p → lo ≤ p.depth)
    (hf : ∀ a, Tracks lo hi deep (f a) (f' a) fun b => U b ∧ ¬ S a) :
    TracksFrom C hi deep (step >>= f) (step' >>= f') U := by
  intro p sound hp
  obtain ⟨hrun, progress⟩ := h p sound hp
  rw [runOn_bind, runOn_bind, hrun]
  rcases hstep : step.runOn p with ⟨_ | a, q⟩ <;> rw [hstep] at progress
  · exact ⟨rfl, progress.onward, progress.depth, progress.level, by simp, by simp⟩
  · have hq : lo ≤ q.depth ∧ q.depth ≤ hi :=
      ⟨(hC p hp).trans progress.depth, progress.within a rfl⟩
    obtain ⟨hrun', progress'⟩ := hf a q progress.onward.sound hq
    refine ⟨hrun', progress.onward.trans progress'.onward, progress.depth.trans progress'.depth,
      fun hdeep => (progress'.level hdeep).trans (progress.level hdeep), progress'.within,
      fun b hb hU => ?_⟩
    by_cases hS : S a
    · exact progress'.onward.length_le.trans_lt (progress.used a rfl hS)
    · exact (progress'.used b hb ⟨hU, hS⟩).trans_le progress.onward.length_le

/-- A step that has to use characters itself, and what comes after it. -/
theorem TracksFrom.bind_used (h : TracksFrom C hi deep step step' fun _ => True)
    (hC : ∀ p, C p → lo ≤ p.depth)
    (hf : ∀ a, Tracks lo hi deep (f a) (f' a) fun _ => False) :
    TracksFrom C hi deep (step >>= f) (step' >>= f') U :=
  h.bind hC fun a => (hf a).mono fun _ hb => hb.2 trivial

theorem Tracks.bind (h : Tracks lo hi deep step step' S)
    (hf : ∀ a, Tracks lo hi deep (f a) (f' a) fun b => U b ∧ ¬ S a) :
    Tracks lo hi deep (step >>= f) (step' >>= f') U :=
  TracksFrom.bind h (fun _ hp => hp.1) hf

theorem Tracks.bind_used (h : Tracks lo hi deep step step' fun _ => True)
    (hf : ∀ a, Tracks lo hi deep (f a) (f' a) fun _ => False) :
    Tracks lo hi deep (step >>= f) (step' >>= f') U :=
  TracksFrom.bind_used h (fun _ hp => hp.1) hf

theorem Tracks.map {g : α → β} (h : Tracks lo hi deep step step' S) (hg : ∀ a, U (g a) → S a) :
    Tracks lo hi deep (g <$> step) (g <$> step') U := by
  intro p sound hp
  obtain ⟨hrun, progress⟩ := h p sound hp
  have hmap (x : ParserM α) : (g <$> x).runOn p = (Option.map g (x.runOn p).1, (x.runOn p).2) := by
    rw [map_eq_pure_bind, runOn_bind]
    rcases x.runOn p with ⟨_ | a, q⟩ <;> rfl
  rw [hmap, hmap, hrun]
  refine ⟨rfl, progress.onward, progress.depth, progress.level, fun b hb => ?_, fun b hb hU => ?_⟩
  · obtain ⟨a, ha, -⟩ := Option.map_eq_some_iff.1 hb
    exact progress.within a ha
  · obtain ⟨a, ha, rfl⟩ := Option.map_eq_some_iff.1 hb
    exact progress.used a ha (hg a hU)

/-- A step that keeps the level is one that may deepen it, too. -/
theorem Tracks.any (h : Tracks lo hi false step step' S) : Tracks lo hi deep step step' S := by
  intro p sound hp
  obtain ⟨hrun, progress⟩ := h p sound hp
  exact ⟨hrun, progress.onward, progress.depth, fun _ => progress.level rfl, progress.within,
    progress.used⟩

theorem Tracks.deeper (h : Tracks lo hi deep step step' S) : Tracks (lo + 1) hi deep step step' S :=
  fun p sound hp => h p sound ⟨Nat.le_of_succ_le hp.1, hp.2⟩

/-- A parser with another session stands where it stood. -/
theorem onward_still (sound : p.Sound) (session : Session) (fatal : Bool) :
    p.Onward { p with session, fatal } :=
  ⟨⟨sound.room, sound.pushed⟩, rfl, rfl, List.suffix_refl _⟩

theorem advances_of_still (h : Still step) (hS : ∀ p a, (step.runOn p).1 = some a → ¬ S a) :
    Advances lo hi deep step S := by
  intro p sound hp
  obtain ⟨session, fatal, hrun⟩ := h p
  refine ⟨rfl, ?_⟩
  rcases hstep : step.runOn p with ⟨o, q⟩
  rw [hstep] at hrun
  obtain rfl : q = { p with session, fatal } := hrun
  refine .of_onward (onward_still sound session fatal) rfl hp.2 fun a ha hSa => ?_
  exact absurd hSa (hS p a (by rw [hstep, ha]))

theorem advances_still (h : Still step) : Advances lo hi deep step fun _ => False :=
  advances_of_still h fun _ _ _ => not_false

theorem advances_pure {a : α} (h : ¬ S a) : Advances lo hi deep (pure a) S :=
  advances_of_still (still_pure a) fun _ b hb hS => by
    obtain rfl : a = b := Option.some.inj hb
    exact h hS

theorem advances_failure : Advances lo hi deep (failure : ParserM α) S :=
  advances_of_still still_failure fun _ _ hb => nomatch hb

/-- A step that leaves the text alone, and what comes after it. -/
theorem Still.bind_tracks {x : ParserM α} (h : Still x)
    (hf : ∀ a, Tracks lo hi deep (f a) (f' a) U) : Tracks lo hi deep (x >>= f) (x >>= f') U :=
  (advances_still h).bind fun a => (hf a).mono fun _ hb => hb.1

/-- The state is looked at. -/
theorem tracksFrom_get_bind {g g' : Parser → ParserM α}
    (h : ∀ p₀, TracksFrom (fun p => C p ∧ p = p₀) hi deep (g p₀) (g' p₀) S) :
    TracksFrom C hi deep (get >>= g) (get >>= g') S := fun p sound hp => h p p sound ⟨hp, rfl⟩

/-! ## Tokens -/

/-- The token has been taken from `p`, which has led to `q`. -/
structure Taken (p : Parser) (t : Token) (q : Parser) : Prop where
  pushback : q.pushback = none
  depth : q.depth = p.depth
  size : q.size = p.size
  precedes : t.Precedes q.lexer
  stop : q.stop = p.stop
  suffix : t.text.toList ++ q.lexer.rest <:+ p.unread
  used : p.unread ≠ [] → q.lexer.rest.length < p.unread.length

namespace Taken

variable {t : Token}

theorem unread (h : Taken p t q) : q.unread = q.lexer.rest := by
  rw [Parser.unread, h.pushback]
  rfl

theorem onward (sound : p.Sound) (h : Taken p t q) : p.Onward q where
  sound := ⟨by
    rw [h.unread, h.size]
    exact ((List.suffix_append ..).trans h.suffix).length_le.trans sound.room,
    by simp [h.pushback]⟩
  size := h.size
  stop := h.stop
  suffix := h.unread ▸ (List.suffix_append ..).trans h.suffix

/-- A token that is not the end of the text uses characters. -/
theorem length_lt (h : Taken p t q) (ht : t.kind ≠ .endOfFile) :
    q.unread.length < p.unread.length := by
  have htext : t.text.toList ≠ [] := fun h' => ht (h.precedes.text.2 h')
  rw [h.unread]
  refine h.used fun hnil => htext ?_
  have := h.suffix
  rw [hnil, List.suffix_nil, List.append_eq_nil_iff] at this
  exact this.1

/-- A token that has been taken may be pushed back. -/
theorem onward_pushBack (sound : p.Sound) (h : Taken p t q) :
    p.Onward { q with pushback := some t } where
  sound := ⟨h.size ▸ h.suffix.length_le.trans sound.room, by
    rintro t' ⟨⟩
    exact h.precedes⟩
  size := h.size
  stop := h.stop
  suffix := h.suffix

end Taken

/-- A token that the lexer reads has been taken. -/
theorem Taken.of_reading (hpush : p.pushback = none) {t : Token} {lexer : Lexer}
    (h : p.lexer.Reading t lexer) (session : Session) (fatal : Bool) :
    Taken p t { p with lexer, session, fatal } := by
  have hunread : p.unread = p.lexer.rest := by
    rw [Parser.unread, hpush]
    rfl
  exact ⟨hpush, rfl, rfl, h.precedes, h.stop, hunread ▸ h.suffix, hunread ▸ h.shorter⟩

/-- A word may be taken for one of another kind. -/
theorem Taken.withKind {t : Token} (h : Taken p t q) {kind : TokenKind}
    (ht : t.kind ≠ .endOfFile) (hkind : kind ≠ .endOfFile) : Taken p { t with kind } q :=
  ⟨h.pushback, h.depth, h.size,
    ⟨h.precedes.stop, ⟨fun h' => absurd h' hkind, fun h' => absurd (h.precedes.text.2 h') ht⟩,
      fun h' => absurd h' hkind⟩, h.stop, h.suffix, h.used⟩

/-- What is pushed back has been taken when it is no longer pushed back. -/
theorem Taken.of_pushback (sound : p.Sound) {t : Token} (hpush : p.pushback = some t) :
    Taken p t { p with pushback := none } := by
  have hunread : p.unread = t.text.toList ++ p.lexer.rest := by
    rw [Parser.unread, hpush]
    rfl
  have precedes := sound.pushed t hpush
  refine ⟨rfl, rfl, rfl, precedes, rfl, hunread ▸ List.suffix_refl _, fun hne => ?_⟩
  by_cases htext : t.text.toList = []
  · rw [hunread, htext, precedes.rest (precedes.text.2 htext)] at hne
    exact absurd rfl hne
  · rw [hunread, List.length_append]
    exact Nat.lt_add_of_pos_left (List.length_pos_of_ne_nil htext)

/-- A token may be taken after another one that is not used any more. -/
theorem Taken.next {r : Parser} {t t' : Token} (h : Taken p t q) (h' : Taken q t' r) :
    Taken p t' r where
  pushback := h'.pushback
  depth := h'.depth.trans h.depth
  size := h'.size.trans h.size
  precedes := h'.precedes
  stop := h'.stop.trans h.stop
  suffix := by
    have := h'.suffix
    rw [h.unread] at this
    exact this.trans ((List.suffix_append ..).trans h.suffix)
  used hne := by
    have := h'.suffix
    rw [h.unread] at this
    exact ((List.suffix_append ..).trans this).length_le.trans_lt (h.used hne)

theorem taken_freshToken (hpush : p.pushback = none) :
    ∃ t, (freshToken.runOn p).1 = some t ∧ Taken p t (freshToken.runOn p).2 := by
  have hread := p.lexer.reading_nextSignificant
  generalize hnext : p.lexer.nextSignificant = next at hread
  obtain ⟨token, lexer⟩ := next
  rw [runOn_freshToken, hnext]
  dsimp only
  split
  · rename_i hforbidden
    obtain ⟨session, hreport⟩ := runOn_report token.span (.reservedWord token.text)
      { p with lexer }
    have hkind : token.kind ≠ .endOfFile := by
      intro h
      simp [isForbidden, h] at hforbidden
    rw [runOn_bind, hreport]
    exact ⟨_, rfl, (Taken.of_reading hpush hread session p.fatal).withKind hkind (by simp)⟩
  · exact ⟨token, rfl, Taken.of_reading hpush hread p.session p.fatal⟩

theorem taken_nextToken (sound : p.Sound) :
    ∃ t, (nextToken.runOn p).1 = some t ∧ Taken p t (nextToken.runOn p).2 := by
  have hfirst : takePushback.runOn p = (some p.pushback, { p with pushback := none }) := rfl
  rw [nextToken, runOn_bind, hfirst]
  cases hpush : p.pushback with
  | none =>
    have hp : { p with pushback := none } = p := by rw [← hpush]
    rw [hp]
    exact taken_freshToken hpush
  | some t =>
    have taken := Taken.of_pushback sound hpush
    dsimp only
    split
    · obtain ⟨t', ht', taken'⟩ := taken_freshToken (p := { p with pushback := none }) rfl
      exact ⟨t', ht', taken.next taken'⟩
    · exact ⟨t, rfl, taken⟩

theorem taken_nextRawToken (sound : p.Sound) :
    ∃ t, (nextRawToken.runOn p).1 = some t ∧ Taken p t (nextRawToken.runOn p).2 := by
  have hfirst : takePushback.runOn p = (some p.pushback, { p with pushback := none }) := rfl
  rw [nextRawToken, runOn_bind, hfirst]
  cases hpush : p.pushback with
  | none =>
    have hp : { p with pushback := none } = p := by rw [← hpush]
    rw [hp]
    exact ⟨p.lexer.next.1, rfl, .of_reading hpush p.lexer.reading_next p.session p.fatal⟩
  | some t => exact ⟨t, rfl, Taken.of_pushback sound hpush⟩

/-- Steps that make progress after a token has been taken, as seen from before it was. -/
def Follows (lo hi : Nat) (deep : Bool) (t : Token) (step step' : ParserM α) (S : α → Prop) :
    Prop :=
  ∀ p q, p.Sound → Taken p t q → lo ≤ q.depth → q.depth ≤ hi →
    step'.runOn q = step.runOn q ∧ Progress hi deep S p (step.runOn q)

/-- A token that is not the end of the text uses characters. -/
theorem Tracks.follows {t : Token} (h : Tracks lo hi deep step step' S) :
    Follows lo hi deep t step step' fun a => S a ∨ t.kind ≠ .endOfFile := by
  intro p q sound taken hlo hhi
  have onward := taken.onward sound
  obtain ⟨hrun, progress⟩ := h q onward.sound ⟨hlo, hhi⟩
  refine ⟨hrun, onward.trans progress.onward, taken.depth ▸ progress.depth,
    fun hdeep => (progress.level hdeep).trans taken.depth, progress.within, fun a ha hS => ?_⟩
  rcases hS with hS | ht
  · exact (progress.used a ha hS).trans_le onward.length_le
  · exact progress.onward.length_le.trans_lt (taken.length_lt ht)

/-- A token may be pushed back. -/
theorem follows_pushBack {t : Token} {g g' : Unit → ParserM α}
    (h : Tracks lo hi deep (g ()) (g' ()) S) :
    Follows lo hi deep t (pushBack t >>= g) (pushBack t >>= g') S := by
  intro p q sound taken hlo hhi
  have onward := taken.onward_pushBack sound
  obtain ⟨hrun, progress⟩ := h _ onward.sound ⟨hlo, hhi⟩
  exact ⟨hrun, progress.after onward taken.depth⟩

/-- Reports may be made before a token is pushed back. -/
theorem Still.bind_follows {t : Token} {x : ParserM α} (hx : Still x)
    (h : ∀ a, Follows lo hi deep t (f a) (f' a) U) :
    Follows lo hi deep t (x >>= f) (x >>= f') U := by
  intro p q sound taken hlo hhi
  obtain ⟨session, fatal, hq⟩ := hx q
  have taken' : Taken p t (x.runOn q).2 := by
    rw [hq]
    exact ⟨taken.pushback, taken.depth, taken.size, taken.precedes, taken.stop, taken.suffix,
      taken.used⟩
  have hdepth : (x.runOn q).2.depth = q.depth := by rw [hq]
  rw [runOn_bind, runOn_bind]
  rcases hrun : x.runOn q with ⟨_ | a, q'⟩ <;> rw [hrun] at taken' hdepth
  · exact ⟨rfl, .of_none (taken'.onward sound) taken'.depth⟩
  · dsimp only at hdepth
    exact h a p q' sound taken' (by omega) (by omega)

theorem tracks_take_bind {take : ParserM Token} {g g' : Token → ParserM α}
    (htake : ∀ p : Parser, p.Sound → ∃ t, (take.runOn p).1 = some t ∧ Taken p t (take.runOn p).2)
    (h : ∀ t, Follows lo hi deep t (g t) (g' t) S) :
    Tracks lo hi deep (take >>= g) (take >>= g') S := by
  intro p sound hp
  obtain ⟨t, ht, taken⟩ := htake p sound
  rw [runOn_bind, runOn_bind]
  rcases hrun : take.runOn p with ⟨o, q⟩
  rw [hrun] at ht taken
  obtain rfl : o = some t := ht
  have hdepth : q.depth = p.depth := taken.depth
  exact h t p q sound taken (by omega) (by omega)

/-- A token is taken, and what comes after it may push it back. -/
theorem tracks_nextToken_bind {g g' : Token → ParserM α}
    (h : ∀ t, Follows lo hi deep t (g t) (g' t) S) :
    Tracks lo hi deep (nextToken >>= g) (nextToken >>= g') S :=
  tracks_take_bind (fun _ sound => taken_nextToken sound) h

theorem tracks_nextRawToken_bind {g g' : Token → ParserM α}
    (h : ∀ t, Follows lo hi deep t (g t) (g' t) S) :
    Tracks lo hi deep (nextRawToken >>= g) (nextRawToken >>= g') S :=
  tracks_take_bind (fun _ sound => taken_nextRawToken sound) h

theorem Follows.mono {t : Token} (h : Follows lo hi deep t step step' S) (hT : ∀ a, T a → S a) :
    Follows lo hi deep t step step' T := by
  intro p q sound taken hlo hhi
  obtain ⟨hrun, progress⟩ := h p q sound taken hlo hhi
  exact ⟨hrun, progress.mono hT⟩

/-- What comes after a token that is not the end of the text has nothing more to use. -/
theorem Tracks.follows_used {t : Token} (h : Tracks lo hi deep step step' fun _ => False)
    (ht : t.kind ≠ .endOfFile) : Follows lo hi deep t step step' S :=
  h.follows.mono fun _ _ => .inr ht

theorem Tracks.follows_weak {t : Token} (h : Tracks lo hi deep step step' S) :
    Follows lo hi deep t step step' S :=
  h.follows.mono fun _ => .inl

theorem advances_nextToken : Advances lo hi deep nextToken fun t => t.kind ≠ .endOfFile := by
  rw [← bind_pure nextToken]
  refine tracks_nextToken_bind fun t => ?_
  refine (advances_pure (S := (· ≠ t)) (fun h => h rfl)).follows.mono fun a ha => ?_
  by_cases hat : a = t
  · exact .inr (hat ▸ ha)
  · exact .inl hat

/-- The state after a token has been looked at. -/
abbrev Ready (lo hi : Nat) (t : Token) (p : Parser) : Prop :=
  (lo ≤ p.depth ∧ p.depth ≤ hi) ∧ p.pushback = some t

theorem Tracks.ready {t : Token} (h : Tracks lo hi deep step step' S) :
    TracksFrom (Ready lo hi t) hi deep step step' S := fun p sound hp => h p sound hp.1

theorem runOn_peek (sound : p.Sound) :
    ∃ t q, peek.runOn p = (some t, { q with pushback := some t }) ∧ Taken p t q := by
  obtain ⟨t, ht, taken⟩ := taken_nextToken sound
  rcases hrun : nextToken.runOn p with ⟨o, q⟩
  rw [hrun] at ht taken
  obtain rfl : o = some t := ht
  refine ⟨t, q, ?_, taken⟩
  rw [peek, runOn_bind, hrun]
  rfl

/-- A token is looked at, and what comes after it finds it pushed back. -/
theorem tracks_peek_bind {g g' : Token → ParserM α}
    (h : ∀ t, TracksFrom (Ready lo hi t) hi deep (g t) (g' t) S) :
    Tracks lo hi deep (peek >>= g) (peek >>= g') S := by
  intro p sound hp
  obtain ⟨t, q, hrun, taken⟩ := runOn_peek sound
  have onward := taken.onward_pushBack sound
  have hdepth : q.depth = p.depth := taken.depth
  rw [runOn_bind, runOn_bind, hrun]
  obtain ⟨hrun', progress⟩ := h t { q with pushback := some t } onward.sound
    ⟨⟨by dsimp only; omega, by dsimp only; omega⟩, rfl⟩
  exact ⟨hrun', progress.after onward hdepth⟩

theorem advances_peek : Advances lo hi deep peek fun _ => False := by
  rw [← bind_pure peek]
  exact tracks_peek_bind fun t => (advances_pure not_false).ready

theorem advances_peekKind : Advances lo hi deep peekKind fun _ => False :=
  advances_peek.bind fun _ => advances_pure (by simp)

/-- A token that has been looked at has characters unless the text has ended. -/
theorem Ready.unread_ne_nil {t : Token} (sound : p.Sound) (hp : Ready lo hi t p)
    (ht : t.kind ≠ .endOfFile) : p.unread ≠ [] := by
  intro hnil
  rw [Parser.unread, hp.2] at hnil
  exact ht ((sound.pushed t hp.2).text.2 (List.append_eq_nil_iff.1 hnil).1)

/-- The token that has been looked at is taken, and uses characters unless the text has ended. -/
theorem tracksFrom_nextToken {t : Token} (ht : t.kind ≠ .endOfFile) :
    TracksFrom (Ready lo hi t) hi deep nextToken nextToken fun _ => True := by
  intro p sound hp
  obtain ⟨t', ht', taken⟩ := taken_nextToken sound
  have hne := hp.unread_ne_nil sound ht
  refine ⟨rfl, ?_⟩
  generalize nextToken.runOn p = result at ht' taken
  refine .of_onward (taken.onward sound) taken.depth hp.1.2 fun _ _ _ => ?_
  rw [taken.unread]
  exact taken.used hne

/-- The token that has been looked at is taken. -/
theorem tracksFrom_drop {t : Token} {g g' : Unit → ParserM α}
    (h : Follows lo hi deep t (g ()) (g' ()) S) :
    TracksFrom (Ready lo hi t) hi deep
      ((modify fun p => { p with pushback := none }) >>= g)
      ((modify fun p => { p with pushback := none }) >>= g') S := fun p sound hp =>
  h p { p with pushback := none } sound (Taken.of_pushback sound hp.2) hp.1.1 hp.1.2

theorem advances_accept? {kind : TokenKind} (hkind : kind ≠ .endOfFile) :
    Advances lo hi deep (accept? kind) fun o => o.isSome = true := by
  refine tracks_peek_bind fun t => ?_
  split
  · rename_i ht
    rw [beq_iff_eq] at ht
    exact tracksFrom_drop ((advances_pure not_false).follows_used (ht ▸ hkind))
  · exact (advances_pure (by simp)).ready

theorem advances_accepts {kind : TokenKind} (hkind : kind ≠ .endOfFile) :
    Advances lo hi deep (accepts kind) fun b => b = true :=
  (advances_accept? hkind).bind fun _ => advances_pure fun h => h.2 h.1

theorem advances_expect {wanted : Wanted} (hkind : wanted.kind ≠ .endOfFile) :
    Advances lo hi deep (expect wanted) fun _ => True := by
  refine tracks_nextToken_bind fun t => ?_
  split
  · rename_i ht
    rw [beq_iff_eq] at ht
    exact (advances_pure not_false).follows_used (ht ▸ hkind)
  · exact (still_report _ _).bind_follows fun _ => follows_pushBack advances_failure

theorem advances_expectName : Advances lo hi deep expectName fun _ => True := by
  refine tracks_nextToken_bind fun t => ?_
  split
  · exact (still_reportFatal _ _).bind_follows fun _ => follows_pushBack advances_failure
  · rename_i ht
    have hkind : t.kind ≠ .endOfFile := by
      rw [bne_iff_ne, not_not] at ht
      simp [ht]
    refine still_get.bind_follows fun p => ?_
    split
    · exact (still_reportFatal _ _).bind_follows fun _ => advances_failure.follows_weak
    · exact (advances_pure not_false).follows_used hkind

/-- One of two steps, and what comes after either. -/
theorem Tracks.bind_either {b : Bool} {x x' : ParserM α} (hx : Advances lo hi deep x fun _ => False)
    (hx' : Advances lo hi deep x' fun _ => False) (h : ∀ a, Tracks lo hi deep (f a) (f' a) U) :
    Tracks lo hi deep (if b = true then x >>= f else x' >>= f)
      (if b = true then x >>= f' else x' >>= f') U := by
  cases b with
  | true => exact hx.bind fun a => (h a).mono fun _ hb => hb.1
  | false => exact hx'.bind fun a => (h a).mono fun _ hb => hb.1

/-! ## Nesting -/

/-- What is done past the limit fails. -/
theorem runOn_tooDeep (sound : p.Sound) : ∃ q, p.Onward q ∧ q.depth = p.depth ∧
    ParserM.runOn (do reportFatal (← peek).span .nestedTooDeep; failure : ParserM Unit) p =
      (none, q) := by
  obtain ⟨t, q, hrun, taken⟩ := runOn_peek sound
  obtain ⟨session, fatal, hreport⟩ := still_reportFatal t.span .nestedTooDeep
    { q with pushback := some t }
  have onward := taken.onward_pushBack sound
  rw [runOn_bind, hrun]
  dsimp only
  rw [runOn_bind]
  rcases h : (reportFatal t.span .nestedTooDeep).runOn { q with pushback := some t } with ⟨o, r⟩
  rw [h] at hreport
  obtain rfl : r = { q with pushback := some t, session, fatal } := hreport
  refine ⟨{ q with pushback := some t, session, fatal },
    ⟨⟨onward.sound.room, onward.sound.pushed⟩, onward.size, onward.stop, onward.suffix⟩,
    taken.depth, ?_⟩
  cases o <;> rfl

/-- A level is entered up to the limit. -/
theorem runOn_enter (sound : p.Sound) :
    p.depth < Parser.maxDepth ∧ enter.runOn p = (some (), { p with depth := p.depth + 1 }) ∨
      ∃ q, p.Onward q ∧ q.depth = p.depth + 1 ∧ enter.runOn p = (none, q) := by
  have onward : p.Onward { p with depth := p.depth + 1 } :=
    ⟨⟨sound.room, sound.pushed⟩, rfl, rfl, List.suffix_refl _⟩
  have henter : enter.runOn p = ParserM.runOn (if Parser.maxDepth < p.depth + 1 then do
      reportFatal (← peek).span .nestedTooDeep
      failure else pure ()) { p with depth := p.depth + 1 } := rfl
  rw [henter]
  by_cases hlimit : Parser.maxDepth < p.depth + 1
  · obtain ⟨q, hq, hdepth, hrun⟩ := runOn_tooDeep onward.sound
    rw [if_pos hlimit, hrun]
    exact .inr ⟨q, onward.trans hq, hdepth, rfl⟩
  · rw [if_neg hlimit]
    exact .inl ⟨by omega, rfl⟩

/-- Past the limit nothing more is done, so that what comes after one more level has been counted
runs within it. -/
theorem tracks_enter_bind {g g' : Unit → ParserM α} (hhi : Parser.maxDepth ≤ hi)
    (h : Tracks (lo + 1) Parser.maxDepth true (g ()) (g' ()) S) :
    Tracks lo hi true (enter >>= g) (enter >>= g') S := by
  intro p sound hp
  rw [runOn_bind, runOn_bind]
  obtain ⟨hlimit, henter⟩ | ⟨q, hq, hdepth, henter⟩ := runOn_enter sound
  · have onward : p.Onward { p with depth := p.depth + 1 } :=
      ⟨⟨sound.room, sound.pushed⟩, rfl, rfl, List.suffix_refl _⟩
    rw [henter]
    obtain ⟨hrun, progress⟩ := h { p with depth := p.depth + 1 } onward.sound
      ⟨by dsimp only; omega, by dsimp only; omega⟩
    refine ⟨hrun, onward.trans progress.onward, (Nat.le_succ _).trans progress.depth, nofun,
      fun a ha => (progress.within a ha).trans hhi, fun a ha hS => ?_⟩
    exact progress.used a ha hS
  · rw [henter]
    exact ⟨rfl, hq, (Nat.le_succ _).trans hdepth.ge, nofun, by simp, by simp⟩

/-- What succeeds after one more level has been counted is deeper, and within the limit. -/
theorem depth_lt_of_enter_bind {g : Unit → ParserM α} {a : α}
    (h : Advances (p.depth + 1) Parser.maxDepth true (g ()) S) (sound : p.Sound)
    (hrun : (enter >>= g).runOn p = (some a, q)) :
    p.Onward q ∧ p.depth < q.depth ∧ q.depth ≤ Parser.maxDepth := by
  rw [runOn_bind] at hrun
  obtain ⟨hlimit, henter⟩ | ⟨r, -, -, henter⟩ := runOn_enter sound
  · have onward : p.Onward { p with depth := p.depth + 1 } :=
      ⟨⟨sound.room, sound.pushed⟩, rfl, rfl, List.suffix_refl _⟩
    rw [henter] at hrun
    dsimp only at hrun
    obtain ⟨-, progress⟩ := h { p with depth := p.depth + 1 } onward.sound ⟨le_rfl, hlimit⟩
    rw [hrun] at progress
    exact ⟨onward.trans progress.onward, progress.depth, progress.within a rfl⟩
  · rw [henter] at hrun
    cases hrun

/-- The level is restored, whatever becomes of a step. -/
theorem Tracks.nested (h : Tracks lo hi true step step' S) :
    Tracks lo hi deep (nested step) (nested step') S := by
  intro p sound hp
  obtain ⟨hrun, progress⟩ := h p sound hp
  rw [runOn_nested, runOn_nested, hrun]
  have onward := progress.onward
  exact ⟨rfl, .of_onward ⟨⟨onward.sound.room, onward.sound.pushed⟩, onward.size, onward.stop,
    onward.suffix⟩ rfl hp.2 progress.used⟩

/-! ## Failing and going on -/

/-- A step that keeps the level may fail without consequence. -/
theorem Tracks.attempt (h : Tracks lo hi false step step' S) :
    Tracks lo hi deep (attempt step) (attempt step') fun o => ∃ a, o = some a ∧ S a := by
  intro p sound hp
  obtain ⟨hrun, progress⟩ := h p sound hp
  rw [runOn_attempt, runOn_attempt, hrun]
  refine ⟨rfl, .of_onward progress.onward (progress.level rfl) hp.2 ?_⟩
  rintro o ho ⟨a, rfl, hS⟩
  exact progress.used a (Option.some.inj ho) hS

/-- The token that has been looked at is used even if what comes after it fails. -/
theorem tracksFrom_attempt_nextToken {t : Token} {g : Token → ParserM α} (ht : t.kind ≠ .endOfFile)
    (hg : ∀ t, Advances lo hi false (g t) fun _ => False) :
    TracksFrom (Ready lo hi t) hi deep (ParserM.attempt (nextToken >>= g))
      (ParserM.attempt (nextToken >>= g)) fun _ => True := by
  intro p sound hp
  have hrun : (ParserM.attempt (nextToken >>= g)).runOn p =
      (nextToken >>= fun t => ParserM.attempt (g t)).runOn p := by
    obtain ⟨t, ht, -⟩ := taken_nextToken sound
    rw [runOn_attempt, runOn_bind, runOn_bind]
    rcases h : nextToken.runOn p with ⟨_ | t, q⟩
    · simp [h] at ht
    · exact (runOn_attempt ..).symm
  rw [hrun]
  exact (tracksFrom_nextToken ht).bind_used (fun _ hp => hp.1.1)
    (fun t => (hg t).attempt.weaken) p sound hp

/-- What comes after a step that may fail is seen from before the step. -/
theorem Tracks.attempt_bind {g : Option α → ParserM β} (h : Tracks lo hi false step step' S)
    (hC : ∀ p, C p → lo ≤ p.depth ∧ p.depth ≤ hi)
    (hg : ∀ p q o, p.Sound → C p → p.Onward q → q.depth = p.depth →
      (∀ a, o = some a → S a → q.unread.length < p.unread.length) →
      Progress hi deep U p ((g o).runOn q)) :
    TracksFrom C hi deep (ParserM.attempt step >>= g) (ParserM.attempt step' >>= g) U := by
  intro p sound hp
  obtain ⟨hrun, progress⟩ := h p sound (hC p hp)
  rw [runOn_bind, runOn_bind, runOn_attempt, runOn_attempt, hrun]
  exact ⟨rfl, hg p _ _ sound hp progress.onward (progress.level rfl) progress.used⟩

/-- Where nothing has been used, a token is skipped. -/
theorem progress_skip (sound : p.Sound) (hne : p.unread ≠ []) (onward : p.Onward q)
    (hdepth : q.depth = p.depth) (hhi : p.depth ≤ hi) (b : β) :
    Progress hi deep U p (ParserM.runOn (do
      if (← get).cursor == p.cursor then
        let _ ← nextToken
      return b) q) := by
  rw [runOn_get_bind]
  split
  · rename_i hcursor
    rw [beq_iff_eq] at hcursor
    have hlength : ¬ q.unread.length < p.unread.length := fun h => by
      have := (onward.cursor_lt_iff sound).2 h
      omega
    have hq : q.unread = p.unread := onward.suffix.eq_of_length_le (by omega)
    obtain ⟨t, ht, taken⟩ := taken_nextToken onward.sound
    rw [runOn_bind]
    rcases hrun : nextToken.runOn q with ⟨o, r⟩
    rw [hrun] at ht taken
    obtain rfl : o = some t := ht
    refine .of_onward (onward.trans (taken.onward onward.sound)) (taken.depth.trans hdepth) hhi
      fun _ _ _ => ?_
    have := taken.used (hq ▸ hne)
    rw [← taken.unread, hq] at this
    exact this
  · rename_i hcursor
    rw [beq_iff_eq] at hcursor
    refine .of_onward onward hdepth hhi fun _ _ _ => ?_
    have := onward.cursor_le sound
    exact (onward.cursor_lt_iff sound).1 (by omega)

/-- What is changed in the end is the session only. -/
theorem Tracks.ensuring {after : Parser → Parser} (h : Tracks lo hi deep step step' S)
    (hafter : ∀ p, ∃ session, after p = { p with session }) :
    Tracks lo hi deep (ensuring step after) (ensuring step' after) S := by
  intro p sound hp
  obtain ⟨hrun, progress⟩ := h p sound hp
  rw [runOn_ensuring, runOn_ensuring, hrun]
  obtain ⟨session, hsession⟩ := hafter (step.runOn p).2
  have onward := progress.onward
  rw [hsession]
  exact ⟨rfl, ⟨⟨onward.sound.room, onward.sound.pushed⟩, onward.size, onward.stop, onward.suffix⟩,
    progress.depth, progress.level, progress.within, progress.used⟩

theorem Tracks.inScope (h : Tracks lo hi deep step step' S) :
    Tracks lo hi deep (inScope step) (inScope step') S :=
  (still_inSession _).bind_tracks fun _ => h.ensuring fun _ => ⟨_, rfl⟩

/-- A trial that fails leaves the text as it was. -/
theorem Tracks.speculate (h : Tracks lo hi deep step step' S) :
    Tracks lo hi deep (speculate step) (speculate step') fun o => ∃ a, o = some a ∧ S a := by
  intro p sound hp
  rw [runOn_speculate, runOn_speculate]
  obtain ⟨hrun, progress⟩ := h { p with session.sink := p.session.sink.beginBuffer }
    ⟨sound.room, sound.pushed⟩ hp
  rw [hrun]
  rcases hstep : step.runOn { p with session.sink := p.session.sink.beginBuffer } with ⟨_ | a, q⟩
    <;> rw [hstep] at progress
  · -- everything but the session is restored
    have hsize : q.size = p.size := progress.onward.size
    refine ⟨rfl, .of_onward ⟨⟨?_, sound.pushed⟩, hsize, rfl, List.suffix_refl _⟩ rfl hp.2 ?_⟩
    · show p.unread.length ≤ q.size
      rw [hsize]
      exact sound.room
    · rintro o ho ⟨a, rfl, -⟩
      cases ho
  · have onward := progress.onward
    refine ⟨rfl, ⟨⟨onward.sound.room, onward.sound.pushed⟩, onward.size, onward.stop,
      onward.suffix⟩, progress.depth, progress.level, fun _ _ => progress.within a rfl, ?_⟩
    rintro o ho ⟨a', rfl, hS⟩
    obtain rfl : a = a' := Option.some.inj (Option.some.inj ho)
    exact progress.used a rfl hS

/-! ## Loops -/

/-- Loops whose rounds do the same do the same. -/
theorem tracks_iterate {round round' : σ → ParserM (σ ⊕ α)}
    (h : ∀ a, Tracks lo hi deep (round a) (round' a) fun _ => False) (fuel : Nat) (a : σ) :
    Tracks lo hi deep (iterate round fuel a) (iterate round' fuel a) fun _ => False := by
  induction fuel generalizing a with
  | zero => exact advances_failure
  | succ fuel ih =>
    refine Tracks.bind (h a) fun r => ?_
    cases r with
    | inl next => exact (ih next).mono fun _ hb => hb.1
    | inr result => exact advances_pure (by simp)

theorem tracks_loop {round round' : σ → ParserM (σ ⊕ α)}
    (h : ∀ a, Tracks lo hi deep (round a) (round' a) fun r => r.isLeft = true) (a : σ) :
    Tracks lo hi deep (loop a round) (loop a round') fun _ => False :=
  still_get.bind_tracks fun _ => tracks_iterate (fun a => (h a).weaken) _ a

/-- A loop that starts with `a` comes to its result after `n` rounds that go on, and one that leaves
it or fails. -/
inductive Loops (round : σ → ParserM (σ ⊕ α)) : Nat → σ → Parser → Option α × Parser → Prop
  | leave {a : σ} {p q : Parser} {result : α} :
    (round a).runOn p = (some (.inr result), q) → Loops round 0 a p (some result, q)
  | fail {a : σ} {p q : Parser} : (round a).runOn p = (none, q) → Loops round 0 a p (none, q)
  | goOn {n : Nat} {a next : σ} {p q : Parser} {result : Option α × Parser} :
    (round a).runOn p = (some (.inl next), q) → Loops round n next q result →
    Loops round (n + 1) a p result

/-- If rounds that go on make a measure smaller, a loop with more rounds than that does not run out
of them. -/
theorem exists_loops_iterate {round : σ → ParserM (σ ⊕ α)} {I : Parser → Prop} {m : Parser → Nat}
    (h : ∀ a p next q, I p → (round a).runOn p = (some (.inl next), q) → I q ∧ m q < m p)
    {fuel : Nat} (a : σ) (hp : I p) (hfuel : m p < fuel) :
    ∃ n ≤ m p, Loops round n a p ((iterate round fuel a).runOn p) := by
  induction fuel generalizing a p with
  | zero => omega
  | succ fuel ih =>
    rw [iterate, runOn_bind]
    rcases hround : (round a).runOn p with ⟨_ | ⟨next | result⟩, q⟩
    · exact ⟨0, Nat.zero_le _, .fail hround⟩
    · obtain ⟨hq, hlt⟩ := h a p next q hp hround
      obtain ⟨n, hn, loops⟩ := ih next hq (by omega)
      exact ⟨n + 1, by omega, .goOn hround loops⟩
    · exact ⟨0, Nat.zero_le _, .leave hround⟩

/-- Every round leaves the loop or moves the cursor on. -/
def MovesOn (round : σ → ParserM (σ ⊕ α)) : Prop :=
  ∀ a p next q, p.Sound → (round a).runOn p = (some (.inl next), q) →
    p.Onward q ∧ p.cursor < q.cursor

theorem movesOn_of_advances {round : σ → ParserM (σ ⊕ α)}
    (h : ∀ a hi, Parser.maxDepth ≤ hi → Advances 0 hi true (round a) fun r => r.isLeft = true) :
    MovesOn round := by
  intro a p next q sound hround
  obtain ⟨-, progress⟩ := h a (max p.depth Parser.maxDepth) (le_max_right ..) p sound
    ⟨Nat.zero_le _, le_max_left ..⟩
  rw [hround] at progress
  exact ⟨progress.onward, (progress.onward.cursor_lt_iff sound).2 (progress.used _ rfl rfl)⟩

/-- A loop whose rounds move the cursor on ends, with no more of them than there were characters. -/
theorem exists_loops_loop {round : σ → ParserM (σ ⊕ α)} (h : MovesOn round) (a : σ)
    (sound : p.Sound) : ∃ n ≤ p.unread.length, Loops round n a p ((loop a round).runOn p) := by
  have hloop : (loop a round).runOn p = (iterate round (p.size + 2) a).runOn p := runOn_get_bind ..
  have hroom := sound.room
  rw [hloop]
  refine exists_loops_iterate (I := Parser.Sound) (m := fun p => p.unread.length)
    (fun a p next q sound hround => ?_) a sound (by omega)
  obtain ⟨onward, hcursor⟩ := h a p next q sound hround
  exact ⟨onward.sound, (onward.cursor_lt_iff sound).1 hcursor⟩

end ParserM

end RasterShader
