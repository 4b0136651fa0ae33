import Mathlib
import RasterShader.Proofs.Reading.Lexemes

/-!
# Matches and the text behind them

The rules of the lexer look ahead: `1` is an integer before a blank and the front of a float before
`.5`, and `1e` is a float only if digits follow.  So a match on a text and a match on the front of
that text may differ.  `Separable` says in which way they may.  A match that ends within the front is
the match on the front alone, and a front that matches goes on matching.  All the rules that take no
blanks are of this kind, since the ways in which they are put together keep it: alternatives do, and
one match after another does if the second always matches, or if the first one stops only where it
has to (`Sharp`) and the second needs a character.
-/

namespace RasterShader

namespace Lexer

/-- There is no text, or it starts with a blank. -/
def Ended (rest : List Char) : Prop := ∀ c ∈ rest.head?, isBlank c = true

/-- How a match on a text relates to matches on the front of it; `size` is how much of the text a
result stands for. -/
structure Separable {α : Type} (size : α → Nat) (m : List Char → Option α) : Prop where
  /-- It takes no more than there is. -/
  within {cs : List Char} {r : α} : m cs = some r → size r ≤ cs.length
  /-- It sees no further than to the next blank. -/
  blind {rest : List Char} (hrest : Ended rest) (a : List Char) : m (a ++ rest) = m a
  /-- What it takes within the front of a text, it takes of the front alone. -/
  keeps {a b : List Char} {r : α} : m (a ++ b) = some r → size r ≤ a.length → m a = some r
  /-- Where it matches, it matches whatever is added to the text. -/
  persists {a : List Char} {r : α} (b : List Char) : m a = some r → (m (a ++ b)).isSome = true

/-- If the match runs past the end of a text once the text goes on, it takes all of the text
alone. -/
def Sharp (m : List Char → Option Nat) : Prop :=
  ∀ {a b : List Char} {k j : Nat}, m (a ++ b) = some k → a.length < k → m a = some j → j = a.length

variable {α : Type} {size : α → Nat} {p : Char → Bool} {a b cs rest : List Char} {n : Nat}
  {m m' : List Char → Option Nat} {r r' : List Char → Option α}

/-! ## Characters -/

theorem ended_nil : Ended [] := fun _ h => nomatch h

theorem ended_cons {c : Char} (h : isBlank c = true) (cs : List Char) : Ended (c :: cs) := by
  rintro d hd
  obtain rfl : c = d := by simpa using hd
  exact h

/-- No blank satisfies `p`. -/
def SparesBlanks (p : Char → Bool) : Prop := ∀ c, isBlank c = true → p c = false

theorem sparesBlanks_of_all (h : [' ', '\t', '\r', '\n'].all (fun c => !p c) = true) :
    SparesBlanks p := by
  intro c hc
  simp only [isBlank, Bool.or_eq_true, decide_eq_true_iff] at hc
  simp only [List.all_cons, List.all_nil, Bool.and_true, Bool.and_eq_true, Bool.not_eq_true'] at h
  rcases hc with ((rfl | rfl) | rfl) | rfl
  · exact h.1
  · exact h.2.1
  · exact h.2.2.1
  · exact h.2.2.2

theorem run_le (p : Char → Bool) (cs : List Char) : run p cs ≤ cs.length :=
  (List.takeWhile_sublist p).length_le

/-- A run that ends within the front of a text is the run on the front. -/
theorem run_append_le (p : Char → Bool) (a b : List Char) (h : run p (a ++ b) ≤ a.length) :
    run p a = run p (a ++ b) := by
  simp only [run, List.takeWhile_append] at h ⊢
  split at h
  · next hall => simp_all
  · next hsome => rw [if_neg hsome]

theorem run_of_append_gt (p : Char → Bool) (a b : List Char) (h : a.length < run p (a ++ b)) :
    run p a = a.length := by
  simp only [run, List.takeWhile_append] at h ⊢
  split at h
  · next hall => exact hall
  · next hsome => exact absurd (List.takeWhile_sublist p).length_le (Nat.not_le.2 h)

theorem run_le_append (p : Char → Bool) (a b : List Char) : run p a ≤ run p (a ++ b) := by
  by_cases h : run p (a ++ b) ≤ a.length
  · exact (run_append_le p a b h).le
  · exact (run_le p a).trans (Nat.not_le.1 h).le

theorem run_ended (hp : SparesBlanks p) (hrest : Ended rest) (a : List Char) :
    run p (a ++ rest) = run p a := by
  have hnone : rest.takeWhile p = [] := by
    cases rest with
    | nil => rfl
    | cons c cs => exact List.takeWhile_cons_of_neg (by simp [hp c (hrest c rfl)])
  simp only [run, List.takeWhile_append, hnone, List.append_nil]
  split
  · next hall => exact hall.symm
  · rfl

theorem separable_run (hp : SparesBlanks p) : Separable id fun cs => some (run p cs) where
  within h := by
    obtain rfl := Option.some.inj h
    exact run_le p _
  blind hrest a := by rw [run_ended hp hrest]
  keeps h hle := by
    obtain rfl := Option.some.inj h
    rw [run_append_le p _ _ hle]
  persists _ _ := rfl

theorem run1_eq_some_iff : run1 p cs = some n ↔ run p cs = n ∧ n ≠ 0 := by
  rw [run1]
  cases run p cs with
  | zero => simp; omega
  | succ k => simp; omega

theorem separable_run1 (hp : SparesBlanks p) : Separable id (run1 p) where
  within h := (separable_run hp).within (congrArg some (run1_eq_some_iff.1 h).1)
  blind hrest a := by rw [run1, run_ended hp hrest, run1]
  keeps {a b k} h hle := by
    obtain ⟨rfl, hpos⟩ := run1_eq_some_iff.1 h
    exact run1_eq_some_iff.2 ⟨run_append_le p a b hle, hpos⟩
  persists {a k} b h := by
    obtain ⟨rfl, hpos⟩ := run1_eq_some_iff.1 h
    have hle := run_le_append p a b
    exact Option.isSome_iff_exists.2 ⟨_, run1_eq_some_iff.2 ⟨rfl, by omega⟩⟩

theorem sharp_run1 : Sharp (run1 p) := by
  intro a b k j hk hlt hj
  obtain ⟨rfl, -⟩ := run1_eq_some_iff.1 hk
  obtain ⟨rfl, -⟩ := run1_eq_some_iff.1 hj
  exact run_of_append_gt p a b hlt

theorem one_append (p : Char → Bool) (ha : a ≠ []) (b : List Char) : one p (a ++ b) = one p a := by
  obtain ⟨c, cs, rfl⟩ := List.exists_cons_of_ne_nil ha
  rfl

theorem eq_one_of_one (h : one p cs = some n) : n = 1 ∧ cs ≠ [] := by
  cases cs with
  | nil => simp [one] at h
  | cons c cs =>
    simp only [one] at h
    split at h <;> simp_all

theorem separable_one (hp : SparesBlanks p) : Separable id (one p) where
  within {cs k} h := by
    obtain ⟨rfl, hne⟩ := eq_one_of_one h
    exact List.length_pos_iff.2 hne
  blind {rest} hrest a := by
    by_cases ha : a = []
    · subst ha
      exact one_eq_none fun c hc => hp c (hrest c hc)
    · exact one_append p ha rest
  keeps {a b k} h hle := by
    obtain ⟨rfl, -⟩ := eq_one_of_one h
    rwa [one_append p (List.length_pos_iff.1 hle)] at h
  persists {a k} b h := by rw [one_append p (eq_one_of_one h).2, h, Option.isSome_some]

theorem sharp_one : Sharp (one p) := by
  intro a b k j hk hlt hj
  obtain ⟨rfl, -⟩ := eq_one_of_one hk
  obtain ⟨rfl, hne⟩ := eq_one_of_one hj
  exact absurd (List.length_pos_iff.2 hne) (by omega)

theorem sharp_optionally_one : Sharp (optionally (one p)) := by
  intro a b k j hk hlt hj
  obtain rfl := Option.some.inj hk
  cases hm : one p (a ++ b) with
  | none => exact absurd hlt (by simp [hm])
  | some n =>
    -- Only of the empty text can one character be more than all.
    obtain ⟨rfl, -⟩ := eq_one_of_one hm
    obtain rfl : a = [] := List.length_eq_zero_iff.1 (by simpa [hm] using hlt)
    exact (Option.some.inj hj).symm

/-! ## Fixed texts -/

theorem exactly_eq_some_iff {text : List Char} :
    exactly text cs = some n ↔ text <+: cs ∧ text.length = n := by
  simp [exactly, List.isPrefixOf_iff_prefix]

theorem separable_exactly {text : List Char} (h : text.all (fun c => !isBlank c) = true) :
    Separable id (exactly text) where
  within hm := by
    obtain ⟨hfront, rfl⟩ := exactly_eq_some_iff.1 hm
    exact hfront.length_le
  blind {rest} hrest a := by
    cases rest with
    | nil => rw [List.append_nil]
    | cons c cs =>
      have hne : ∀ d ∈ text, d ≠ c := by
        rintro d hd rfl
        simpa [hrest d rfl] using List.all_eq_true.1 h d hd
      rw [exactly, isPrefixOf_append_cons hne, exactly]
  keeps {a b k} hm hle := by
    obtain ⟨hfront, rfl⟩ := exactly_eq_some_iff.1 hm
    exact exactly_eq_some_iff.2
      ⟨List.prefix_of_prefix_length_le hfront (List.prefix_append a b) hle, rfl⟩
  persists {a k} b hm := by
    obtain ⟨hfront, rfl⟩ := exactly_eq_some_iff.1 hm
    exact Option.isSome_iff_exists.2
      ⟨_, exactly_eq_some_iff.2 ⟨hfront.trans (List.prefix_append a b), rfl⟩⟩

/-! ## Matches put together -/

theorem andThen_eq_some_iff :
    andThen m m' cs = some n ↔ ∃ k, m cs = some k ∧ ∃ l, m' (cs.drop k) = some l ∧ k + l = n := by
  simp [andThen, Option.bind_eq_some_iff]

namespace Separable

/-- Where a text does not match, no front of it does. -/
theorem front_eq_none (h : Separable size r) (hnone : r (a ++ b) = none) : r a = none := by
  cases ha : r a with
  | none => rfl
  | some x => simpa [hnone] using h.persists b ha

/-- A match needs something to take if it takes nothing of the empty text. -/
theorem pos (h : Separable size r) (hnil : r [] = none) {x : α} (hx : r cs = some x) :
    0 < size x := by
  by_contra hzero
  have := h.keeps (a := []) (b := cs) hx (by simp; omega)
  simp [hnil] at this

/-- The first match of two. -/
theorem or (h : Separable size r) (h' : Separable size r') :
    Separable size fun cs => r cs <|> r' cs where
  within {cs x} hx := by
    cases hr : r cs with
    | none => exact h'.within (by simpa [hr] using hx)
    | some y => exact h.within (by simpa [hr] using hx)
  blind hrest a := by rw [h.blind hrest, h'.blind hrest]
  keeps {a b x} hx hle := by
    cases hr : r (a ++ b) with
    | none =>
      -- The first one does not match the front either.
      rw [h.front_eq_none hr]
      exact h'.keeps (by simpa [hr] using hx) hle
    | some y =>
      obtain rfl : y = x := by simpa [hr] using hx
      rw [h.keeps hr hle]
      rfl
  persists {a x} b hx := by
    cases hr : r a with
    | none =>
      have := h'.persists b (show r' a = some x by simpa [hr] using hx)
      cases hb : r (a ++ b) with
      | none => simpa [hb] using this
      | some y => rfl
    | some y =>
      obtain ⟨z, hz⟩ := Option.isSome_iff_exists.1 (h.persists b hr)
      simp [hz]

theorem orElse (h : Separable id m) (h' : Separable id m') : Separable id (orElse m m') := by
  have heq : Lexer.orElse m m' = fun cs => m cs <|> m' cs := by
    funext cs
    rw [Lexer.orElse]
    cases m cs <;> rfl
  exact heq ▸ h.or h'

theorem optionally (h : Separable id m) : Separable id (optionally m) where
  within {cs k} hk := by
    obtain rfl := Option.some.inj hk
    cases hm : m cs with
    | none => exact Nat.zero_le _
    | some n => exact h.within hm
  blind hrest a := by rw [Lexer.optionally, h.blind hrest, Lexer.optionally]
  keeps {a b k} hk hle := by
    obtain rfl := Option.some.inj hk
    cases hm : m (a ++ b) with
    | none => rw [Lexer.optionally, h.front_eq_none hm]
    | some n =>
      rw [hm] at hle
      rw [Lexer.optionally, h.keeps hm hle]
  persists _ _ := rfl

/-- One match directly after another.  Only where the first match runs on may the second one be
lost. -/
theorem andThen (h : Separable id m) (h' : Separable id m')
    (hover : ∀ {a b : List Char} {k j : Nat}, m (a ++ b) = some k → a.length < k → m a = some j →
      (m' (a.drop j)).isSome = true → (m' ((a ++ b).drop k)).isSome = true) :
    Separable id (andThen m m') where
  within {cs n} hn := by
    obtain ⟨k, hk, l, hl, rfl⟩ := andThen_eq_some_iff.1 hn
    have hfirst := h.within hk
    have hsecond := h'.within hl
    simp only [id_eq, List.length_drop] at *
    omega
  blind {rest} hrest a := by
    simp only [Lexer.andThen, h.blind hrest]
    cases hm : m a with
    | none => rfl
    | some k =>
      have hle : k ≤ a.length := h.within hm
      simp [List.drop_append_of_le_length hle, h'.blind hrest]
  keeps {a b n} hn hle := by
    obtain ⟨k, hk, l, hl, rfl⟩ := andThen_eq_some_iff.1 hn
    simp only [id_eq] at hle
    have hka : k ≤ a.length := by omega
    rw [List.drop_append_of_le_length hka] at hl
    refine andThen_eq_some_iff.2 ⟨k, h.keeps hk hka, l, h'.keeps hl ?_, rfl⟩
    simp only [id_eq, List.length_drop]
    omega
  persists {a n} b hn := by
    obtain ⟨j, hj, l, hl, rfl⟩ := andThen_eq_some_iff.1 hn
    obtain ⟨k, hk⟩ := Option.isSome_iff_exists.1 (h.persists b hj)
    suffices (m' ((a ++ b).drop k)).isSome = true by
      obtain ⟨l', hl'⟩ := Option.isSome_iff_exists.1 this
      exact Option.isSome_iff_exists.2 ⟨k + l', andThen_eq_some_iff.2 ⟨k, hk, l', hl', rfl⟩⟩
    by_cases hka : k ≤ a.length
    · obtain rfl : k = j := Option.some.inj ((h.keeps hk hka).symm.trans hj)
      rw [List.drop_append_of_le_length hka]
      exact h'.persists b hl
    · exact hover hk (Nat.not_le.1 hka) hj (by rw [hl, Option.isSome_some])

/-- The second match takes whatever there is. -/
theorem andThen_of_isSome (h : Separable id m) (h' : Separable id m')
    (hall : ∀ cs, (m' cs).isSome = true) : Separable id (Lexer.andThen m m') :=
  h.andThen h' fun _ _ _ _ => hall _

/-- The second match needs a character, and the first one leaves it none when it runs on. -/
theorem andThen_of_sharp (h : Separable id m) (h' : Separable id m') (hsharp : Sharp m)
    (hnil : m' [] = none) : Separable id (Lexer.andThen m m') := by
  refine h.andThen h' fun {a b k j} hk hlt hj hsome => ?_
  rw [hsharp hk hlt hj, List.drop_length, hnil] at hsome
  exact absurd hsome (by simp)

/-- The text that is taken tells what it is. -/
theorem kinded (h : Separable id m) (kind : List Char → TokenKind) :
    Separable Prod.snd fun cs => (m cs).map fun n => (kind (cs.take n), n) where
  within hx := by
    obtain ⟨n, hn, rfl⟩ := Option.map_eq_some_iff.1 hx
    exact h.within hn
  blind {rest} hrest a := by
    rw [h.blind hrest]
    cases hm : m a with
    | none => rfl
    | some n =>
      have hle : n ≤ a.length := h.within hm
      simp [List.take_append_of_le_length hle]
  keeps {a b x} hx hle := by
    obtain ⟨n, hn, rfl⟩ := Option.map_eq_some_iff.1 hx
    simp only at hle
    rw [h.keeps hn hle, List.take_append_of_le_length hle]
    rfl
  persists {a x} b hx := by
    obtain ⟨n, hn, rfl⟩ := Option.map_eq_some_iff.1 hx
    rw [Option.isSome_map]
    exact h.persists b hn

end Separable

end Lexer

end RasterShader
