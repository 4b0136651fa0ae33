import RasterShader.Source.Span

/-!
# Diagnostics and the sink that collects them

Errors a program's author should see are `Diagnostic`s. They flow into a `Sink`, which delivers
them in the order they are raised, except that a sink may hold back the errors raised while a
buffer is open: committing the buffer passes them on to the enclosing one, and discarding it
drops them. Speculative parsing rests on this.
-/

namespace RasterShader

/-- An error message and the place it is about. -/
structure Diagnostic where
  span : Span
  message : String
deriving DecidableEq, Repr, Inhabited

/-- Collected entries with nested buffers of entries still held back. -/
structure Sink (α : Type) where
  /-- Entries that reached the reader, oldest first. -/
  delivered : List α
  /-- Open buffers, innermost first, each with its oldest entry first. -/
  buffers : List (List α)
deriving Repr

namespace Sink

variable {α : Type}

/-- A sink that has received nothing and holds nothing back. -/
def empty : Sink α := ⟨[], []⟩

instance : Inhabited (Sink α) := ⟨empty⟩

/-- Records an entry: into the innermost open buffer, or straight through when none is open. -/
def report (sink : Sink α) (entry : α) : Sink α :=
  match sink.buffers with
  | [] => { sink with delivered := sink.delivered ++ [entry] }
  | buffer :: outer => { sink with buffers := (buffer ++ [entry]) :: outer }

/-- Records several entries in order. -/
def reportAll (sink : Sink α) (entries : List α) : Sink α := entries.foldl report sink

/-- Opens a buffer. -/
def beginBuffer (sink : Sink α) : Sink α := { sink with buffers := [] :: sink.buffers }

/-- Closes the innermost buffer and passes its entries on, in order. -/
def commitBuffer (sink : Sink α) : Sink α :=
  match sink.buffers with
  | [] => sink
  | buffer :: outer => { sink with buffers := outer }.reportAll buffer

/-- Closes the innermost buffer and drops its entries. -/
def discardBuffer (sink : Sink α) : Sink α := { sink with buffers := sink.buffers.tail }

/-- Number of entries delivered; entries held back do not count. -/
def deliveredCount (sink : Sink α) : Nat := sink.delivered.length

/-- Number of entries held back in the innermost open buffer. -/
def pendingCount (sink : Sink α) : Nat := (sink.buffers.head?.map List.length).getD 0

end Sink

/-- One line per diagnostic, with its line number, and a closing line with their number. -/
def Diagnostic.report (source : String) (diagnostics : List Diagnostic) : String :=
  let lines := diagnostics.map fun d =>
    s!"error: {d.span.line source}: {d.message}\n"
  let plural := if diagnostics.length = 1 then "" else "s"
  String.join lines ++ s!"{diagnostics.length} error{plural}\n"

end RasterShader
