/-!
# Spintax.Location

Where a piece of template text stands: a line and a column for readers, and a half-open range of
code points for tools.

* `Location`: the five coordinates. Hand-made ones may hold any integers.
* `Location.spanTo`: the range from the start of one piece to the end of another.
* `Location.describe`: the form shown to readers, `file:line:column`.
-/

namespace Spintax

/-- The name of a file, unless it is missing or empty: an empty name is kept but never shown. -/
def shownFile (file : Option String) : Option String :=
  file.filter (!·.isEmpty)

/-- A stretch of text. Lines and columns start at 1; `start` and `stop` count code points. -/
structure Location where
  line : Int
  column : Int
  start : Int := 0
  stop : Int := 0
  file : Option String := none
deriving DecidableEq

namespace Location

/-- The place of a tree that was not read from text. -/
def unknown : Location := ⟨0, 0, 0, 0, none⟩

/-- From the start of `a` to the end of `b`. A location without an end, one that says 0, ends
where it starts. -/
def spanTo (a b : Location) : Location :=
  { a with stop := if b.stop = 0 then b.start else b.stop }

/-- The line and the column, after the file if it has a name. -/
def describe (l : Location) : String :=
  let place := toString l.line ++ ":" ++ toString l.column
  match shownFile l.file with
  | some name => name ++ ":" ++ place
  | none => place

@[simp] theorem spanTo_line (a b : Location) : (a.spanTo b).line = a.line := rfl

@[simp] theorem spanTo_column (a b : Location) : (a.spanTo b).column = a.column := rfl

@[simp] theorem spanTo_start (a b : Location) : (a.spanTo b).start = a.start := rfl

@[simp] theorem spanTo_file (a b : Location) : (a.spanTo b).file = a.file := rfl

theorem spanTo_stop {b : Location} (h : b.stop ≠ 0) (a : Location) :
    (a.spanTo b).stop = b.stop := by
  simp [spanTo, h]

end Location
end Spintax
