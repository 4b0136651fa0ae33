import Mathlib
import RasterShader.Proofs.Reading.Position
import RasterShader.Proofs.Reading.Respacing

/-!
# The tokens of a source make it up

Every rule takes at least one character and no more than there are (`scan_bounds`), so that `next`
cuts its text just behind what the rule has taken (`next_of_rest_ne_nil`).  A lexer therefore stands
in its source at all times (`Lexer.StandsIn`): what it has left is the end of the source, and its
offset is how many bytes there are before that.  From this the tokens are seen to be pieces of the
source, one behind the other (`tokens_partition`), and the offset alone is enough to come back to a
lexer (`Lexer.rewindTo`).
-/

namespace RasterShader

open String (utf8Len)
open String.Pos.Raw (extract IsValid)

/-! ## Places in a source -/

/-- The text of a source between the ends of a token, as far as the source goes. -/
def Token.textIn (source : String) (t : Token) : String :=
  extract source ⟨min t.offset source.utf8ByteSize⟩ ⟨min t.stop source.utf8ByteSize⟩

/-- A token that is a piece of a source, not empty and cut between characters. -/
structure Token.PieceOf (source : String) (t : Token) : Prop where
  nonempty : t.text ≠ ""
  kind : t.kind ≠ .endOfFile
  start : IsValid source ⟨t.offset⟩
  stop : IsValid source ⟨t.stop⟩
  text : t.textIn source = t.text

/-- The first token starts at `start`, each of the others where the one before it stops, and the
last one stops at `stop`. -/
def Token.Contiguous (start stop : Nat) : List Token → Prop
  | [] => start = stop
  | t :: ts => t.offset = start ∧ Contiguous t.stop stop ts

/-- The end of a text at an offset. -/
def Token.endAt (offset : Nat) : Token := ⟨.endOfFile, offset, ""⟩

section

variable {source : String} {l m r : List Char}

theorem isValid_of_append (h : source.toList = l ++ r) : IsValid source ⟨utf8Len l⟩ := by
  obtain rfl : source = String.ofList l ++ String.ofList r := by
    rw [← String.ofList_append, ← h, String.ofList_toList]
  have hend : IsValid (String.ofList l) ⟨utf8Len l⟩ := by
    simpa [String.rawEndPos_ofList] using String.Pos.Raw.isValid_rawEndPos (s := String.ofList l)
  exact hend.append_right _

theorem extract_of_append (h : source.toList = l ++ m ++ r) :
    extract source ⟨utf8Len l⟩ ⟨utf8Len l + utf8Len m⟩ = String.ofList m := by
  rw [← String.extract_of_valid l m r, ← h, String.ofList_toList]

theorem length_le_utf8Len (cs : List Char) : cs.length ≤ utf8Len cs := by
  induction cs with
  | nil => exact le_rfl
  | cons c cs ih => exact Nat.add_le_add ih c.utf8Size_pos

end

namespace Lexer

variable {source : String} {lexer : Lexer}

/-! ## One token -/

/-- What `scan` takes is what the token is made of. -/
theorem next_of_rest_ne_nil (h : lexer.rest ≠ []) :
    let taken := lexer.rest.take (scan lexer.rest).2
    lexer.next = (⟨(scan lexer.rest).1, lexer.offset, String.ofList taken⟩,
      ⟨lexer.rest.drop (scan lexer.rest).2, lexer.offset + utf8Len taken⟩) := by
  have hempty : lexer.rest.isEmpty = false := by simpa using h
  simp only [next, hempty, Bool.false_eq_true, if_false, Nat.max_eq_left (scan_bounds h).1,
    Token.stop, Token.length, String.utf8ByteSize_ofList]

theorem text_append_rest (h : lexer.rest ≠ []) :
    lexer.next.1.text.toList ++ lexer.next.2.rest = lexer.rest := by
  rw [next_of_rest_ne_nil h, String.toList_ofList, List.take_append_drop]

theorem next_of_rest_eq_nil (h : lexer.rest = []) : lexer.next = (.endAt lexer.offset, lexer) := by
  simp [next, h, Token.endAt]

/-- What is left is the end of the source, and the offset is where it starts. -/
def StandsIn (source : String) (lexer : Lexer) : Prop :=
  ∃ front, source.toList = front ++ lexer.rest ∧ lexer.offset = utf8Len front

theorem standsIn_ofSource (source : String) : (ofSource source).StandsIn source :=
  ⟨[], rfl, rfl⟩

namespace StandsIn

theorem offset_add (h : lexer.StandsIn source) :
    lexer.offset + utf8Len lexer.rest = source.utf8ByteSize := by
  obtain ⟨front, hsource, hoffset⟩ := h
  rw [← String.utf8Len_toList, hsource, String.utf8Len_append, hoffset]

theorem next (h : lexer.StandsIn source) : lexer.next.2.StandsIn source := by
  by_cases hrest : lexer.rest = []
  · rwa [next_of_rest_eq_nil hrest]
  · obtain ⟨front, hsource, hoffset⟩ := h
    rw [next_of_rest_ne_nil hrest]
    refine ⟨front ++ lexer.rest.take (scan lexer.rest).2, ?_, ?_⟩
    · rw [List.append_assoc, List.take_append_drop, hsource]
    · rw [String.utf8Len_append, hoffset]

theorem pieceOf_next (h : lexer.StandsIn source) (hrest : lexer.rest ≠ []) :
    lexer.next.1.PieceOf source := by
  obtain ⟨front, hsource, hoffset⟩ := h
  rw [next_of_rest_ne_nil hrest]
  have hbounds := scan_bounds hrest
  have hkind := scan_ne_endOfFile lexer.rest
  generalize (scan lexer.rest).1 = kind at hkind ⊢
  generalize (scan lexer.rest).2 = n at hbounds ⊢
  have hne : lexer.rest.take n ≠ [] := by
    rw [← List.length_pos_iff, List.length_take_of_le hbounds.2]
    exact hbounds.1
  have hsplit : source.toList = front ++ lexer.rest.take n ++ lexer.rest.drop n := by
    rw [List.append_assoc, List.take_append_drop, hsource]
  generalize lexer.rest.take n = taken at hne hsplit ⊢
  have hstop : Token.stop ⟨kind, lexer.offset, String.ofList taken⟩ =
      utf8Len front + utf8Len taken := by
    rw [Token.stop, Token.length, String.utf8ByteSize_ofList, hoffset]
  have start : IsValid source ⟨lexer.offset⟩ := hoffset ▸ isValid_of_append hsource
  have stop : IsValid source ⟨utf8Len front + utf8Len taken⟩ :=
    String.utf8Len_append front taken ▸ isValid_of_append hsplit
  refine ⟨?_, hkind, start, hstop ▸ stop, ?_⟩
  · simpa using hne
  · rw [Token.textIn, hstop, min_eq_left start.le_utf8ByteSize, min_eq_left stop.le_utf8ByteSize,
      hoffset]
    exact extract_of_append hsplit

end StandsIn

/-! ## All tokens -/

/-- The lexer after so many tokens. -/
def after (lexer : Lexer) : Nat → Lexer
  | 0 => lexer
  | k + 1 => after lexer.next.2 k

theorem StandsIn.after (h : lexer.StandsIn source) (k : Nat) : (lexer.after k).StandsIn source := by
  induction k generalizing lexer with
  | zero => exact h
  | succ k ih => exact ih h.next

/-- A lexer that returns the end of its text goes on returning it. -/
theorem next_after_of_rest_eq_nil (h : lexer.rest = []) (k : Nat) :
    (lexer.after k).next = (.endAt lexer.offset, lexer) := by
  induction k with
  | zero => exact next_of_rest_eq_nil h
  | succ k ih => rwa [after, next_of_rest_eq_nil h]

/-- The tokens up to the end are those that are returned one after the other. -/
theorem StandsIn.next_after (h : lexer.StandsIn source) (k : Nat) :
    (lexer.after k).next.1 = lexer.tokens.getD k (.endAt source.utf8ByteSize) := by
  fun_induction tokens lexer generalizing k with
  | case1 lexer hrest =>
    have hnil : lexer.rest = [] := by simpa using hrest
    have hoffset : lexer.offset = source.utf8ByteSize := by simpa [hnil] using h.offset_add
    rw [next_after_of_rest_eq_nil hnil, hoffset]
    rfl
  | case2 lexer hrest ih =>
    cases k with
    | zero => rfl
    | succ k => exact ih h.next k

theorem StandsIn.pieceOf (h : lexer.StandsIn source) : ∀ t ∈ lexer.tokens, t.PieceOf source := by
  fun_induction tokens lexer with
  | case1 => simp
  | case2 lexer hrest ih =>
    have hne : lexer.rest ≠ [] := by simpa using hrest
    exact List.forall_mem_cons.2 ⟨h.pieceOf_next hne, ih h.next⟩

theorem StandsIn.contiguous (h : lexer.StandsIn source) :
    Token.Contiguous lexer.offset source.utf8ByteSize lexer.tokens := by
  fun_induction tokens lexer with
  | case1 lexer hrest =>
    have hnil : lexer.rest = [] := by simpa using hrest
    show lexer.offset = source.utf8ByteSize
    simpa [hnil] using h.offset_add
  | case2 lexer hrest ih =>
    have hne : lexer.rest ≠ [] := by simpa using hrest
    have hstop : lexer.next.1.stop = lexer.next.2.offset := (reading_next lexer).precedes.stop
    refine ⟨by rw [next_of_rest_ne_nil hne], ?_⟩
    rw [hstop]
    exact ih h.next

theorem join_tokens (lexer : Lexer) :
    String.join (lexer.tokens.map Token.text) = String.ofList lexer.rest := by
  fun_induction tokens lexer with
  | case1 lexer hrest =>
    have hnil : lexer.rest = [] := by simpa using hrest
    rw [hnil]
    rfl
  | case2 lexer hrest ih =>
    have hne : lexer.rest ≠ [] := by simpa using hrest
    rw [List.map_cons, String.join_cons, ih, ← text_append_rest hne, String.ofList_append,
      String.ofList_toList]

theorem length_tokens_le (lexer : Lexer) : lexer.tokens.length ≤ lexer.rest.length := by
  fun_induction tokens lexer with
  | case1 => exact Nat.zero_le _
  | case2 lexer hrest ih =>
    have hne : lexer.rest ≠ [] := by simpa using hrest
    exact ih.trans_lt ((reading_next lexer).shorter hne)

/-! ## Coming back -/

/-- A lexer of a source at an offset. -/
def rewindTo (source : String) (offset : Nat) : Lexer :=
  ⟨(extract source ⟨offset⟩ source.rawEndPos).toList, offset⟩

theorem StandsIn.rewindTo_offset (h : lexer.StandsIn source) :
    rewindTo source lexer.offset = lexer := by
  have hadd := h.offset_add
  obtain ⟨front, hsource, hoffset⟩ := h
  have hend : source.rawEndPos = ⟨utf8Len front + utf8Len lexer.rest⟩ := by
    rw [← hoffset, hadd]
    rfl
  have hrest : extract source ⟨utf8Len front⟩ source.rawEndPos = String.ofList lexer.rest := by
    rw [hend]
    exact extract_of_append (r := []) (by rw [hsource, List.append_nil])
  rw [rewindTo, hoffset, hrest, String.toList_ofList, ← hoffset]

/-- The tokens of a source are pieces of it that are not empty, one behind the other from its start
to its end, and there are no more of them than bytes.  They are returned one after the other, and
from then on the end of the source is.  A lexer that is set back returns what it has returned
before. -/
theorem tokens_partition (source : String) (h : source.utf8ByteSize < 2 ^ 32) :
    let tokens := (ofSource source).tokens
    (∀ t ∈ tokens, t.PieceOf source ∧ t.stop < 2 ^ 32) ∧
    Token.Contiguous 0 source.utf8ByteSize tokens ∧
    String.join (tokens.map Token.text) = source ∧
    tokens.length ≤ source.utf8ByteSize ∧
    ∀ k, let lexer := (ofSource source).after k
      lexer.next.1 = tokens.getD k (.endAt source.utf8ByteSize) ∧
      (lexer.rest ≠ [] →
        1 ≤ (scan lexer.rest).2 ∧ (scan lexer.rest).2 ≤ lexer.rest.length) ∧
      ∀ j, ((rewindTo source lexer.offset).after j).next = (lexer.after j).next := by
  have hstart := standsIn_ofSource source
  refine ⟨fun t ht => ?_, hstart.contiguous, ?_, ?_, fun k => ⟨hstart.next_after k, scan_bounds,
    fun j => ?_⟩⟩
  · have hpiece := hstart.pieceOf t ht
    exact ⟨hpiece, hpiece.stop.le_utf8ByteSize.trans_lt h⟩
  · rw [join_tokens, ofSource, String.ofList_toList]
  · calc (ofSource source).tokens.length
      _ ≤ source.toList.length := length_tokens_le _
      _ ≤ utf8Len source.toList := length_le_utf8Len _
      _ = source.utf8ByteSize := String.utf8Len_toList source
  · rw [(hstart.after k).rewindTo_offset]

theorem tokens_partition_wide :
    "a/*é*/+€".utf8ByteSize < 2 ^ 32 ∧
      (ofSource "a/*é*/+€").tokens = [⟨.identifier, 0, "a"⟩, ⟨.blockComment, 1, "/*é*/"⟩,
        ⟨.plus, 7, "+"⟩, ⟨.invalid, 8, "€"⟩] ∧
      ((ofSource "a/*é*/+€").after 9).next.1 = .endAt 11 ∧
      ((rewindTo "a/*é*/+€" 7).after 1).next.1 = ⟨.invalid, 8, "€"⟩ := by
  have hsize : "a/*é*/+€".utf8ByteSize < 2 ^ 32 := by decide +kernel
  have htokens : (ofSource "a/*é*/+€").tokens = [⟨.identifier, 0, "a"⟩,
      ⟨.blockComment, 1, "/*é*/"⟩, ⟨.plus, 7, "+"⟩, ⟨.invalid, 8, "€"⟩] := by decide +kernel
  obtain ⟨-, -, -, -, hreturned⟩ := tokens_partition "a/*é*/+€" hsize
  simp only [htokens] at hreturned
  have hplus : ((ofSource "a/*é*/+€").after 2).offset = 7 := by decide +kernel
  have hback := (hreturned 2).2.2 1
  rw [hplus] at hback
  exact ⟨hsize, htokens, (hreturned 9).1, (congrArg Prod.fst hback).trans (hreturned 3).1⟩

end Lexer

end RasterShader
