/-!
# Spans of source text

A `Span` is a range of byte offsets into a source text. Spans carry no line or column; the line
of an offset is recovered on demand by counting line feeds (`lineNumber`).
-/

namespace RasterShader

/-- A range of UTF-8 byte offsets, `start` inclusive and `stop` exclusive. -/
structure Span where
  start : Nat
  stop : Nat
deriving DecidableEq, Repr, Inhabited

namespace Span

/-- The span from `start` to `stop`, empty at `start` when `stop` lies before it. -/
def range (start stop : Nat) : Span := ⟨start, max stop start⟩

/-- The span between two offsets of any size. Offsets are kept in 32 bits, so such a span may end
before it starts. -/
def ofOffsets (start stop : Nat) : Span := ⟨start % 4294967296, max stop start % 4294967296⟩

/-- The empty span at one offset. -/
def point (offset : Nat) : Span := range offset offset

/-- A span is valid when it does not end before it starts. -/
def valid (s : Span) : Bool := s.start ≤ s.stop

/-- The smallest span that covers both. -/
def join (a b : Span) : Span := ⟨min a.start b.start, max a.stop b.stop⟩

/-- Written as its two offsets with two dots between them. -/
def text (s : Span) : String := s!"{s.start}..{s.stop}"

end Span

/-- Line feeds among the characters that start within the first `bytes` bytes. -/
def lineFeedsWithin : List Char → Nat → Nat
  | [], _ => 0
  | _, 0 => 0
  | c :: rest, bytes + 1 =>
    (if c = '\n' then 1 else 0) + lineFeedsWithin rest (bytes + 1 - c.utf8Size)

/-- The line, counted from 1, on which the byte at `offset` stands. Offsets past the end belong to
the last line. -/
def lineNumber (source : String) (offset : Nat) : Nat :=
  lineFeedsWithin source.toList offset + 1

/-- The line on which a span starts. -/
def Span.line (s : Span) (source : String) : Nat := lineNumber source s.start

end RasterShader
