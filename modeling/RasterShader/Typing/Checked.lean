import RasterShader.Typing.Issue

/-!
# Results with reports

Type checking an expression always gives an expression, which is `poison` where something is
wrong, together with the reports made on the way. `Checked` is that pair, as a monad that keeps
the reports in the order they are made.
-/

namespace RasterShader

/-- A value and the reports made while finding it, oldest first. -/
structure Checked (α : Type) where
  value : α
  reports : List Report
deriving Inhabited

namespace Checked

variable {α β : Type}

/-- A value nothing is wrong with. -/
def clean (value : α) : Checked α := ⟨value, []⟩

/-- Goes on with a value and keeps what was reported so far. -/
def andThen (x : Checked α) (f : α → Checked β) : Checked β :=
  let y := f x.value
  ⟨y.value, x.reports ++ y.reports⟩

instance : Monad Checked where
  pure := clean
  bind := andThen

/-- Makes a report. -/
def report (span : Span) (issue : Issue) : Checked Unit := ⟨(), [⟨span, issue⟩]⟩

/-- Makes a report and gives a value that stands in for what could not be found. -/
def refuse (span : Span) (issue : Issue) (value : α) : Checked α := ⟨value, [⟨span, issue⟩]⟩

@[simp] theorem value_pure (a : α) : (pure a : Checked α).value = a := rfl

@[simp] theorem reports_pure (a : α) : (pure a : Checked α).reports = [] := rfl

@[simp] theorem value_bind (x : Checked α) (f : α → Checked β) :
    (x >>= f).value = (f x.value).value := rfl

@[simp] theorem reports_bind (x : Checked α) (f : α → Checked β) :
    (x >>= f).reports = x.reports ++ (f x.value).reports := rfl

end Checked

end RasterShader
