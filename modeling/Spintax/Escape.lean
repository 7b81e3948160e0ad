/-!
# Spintax.Escape

What a backslash and the character after it stand for. The four characters with a meaning stand
for themselves, three letters for a control character, and anything else is kept as written, the
backslash included.

* `Escape.resolve`: the text an escaped character stands for.
-/

namespace Spintax.Escape

/-- The character that starts an escape. -/
def sign : Char := '\\'

/-- Characters that stand for themselves after a backslash. -/
def literals : List Char := ['\\', '{', '|', '}']

/-- Letters that stand for a control character: backspace, newline, carriage return. -/
def controls : List (Char × Char) := [('b', '\x08'), ('n', '\n'), ('r', '\r')]

/-- The text of the escape of `c`. -/
def resolve (c : Char) : List Char :=
  if c ∈ literals then [c]
  else
    match controls.lookup c with
    | some control => [control]
    | none => [sign, c]

/-- The text of an escape, for a text that need not be one character: all but the known single
characters are kept after a backslash. -/
def resolveText (s : String) : String :=
  match s.toList with
  | [c] => String.ofList (resolve c)
  | cs => String.ofList (sign :: cs)

theorem resolve_ne_nil (c : Char) : resolve c ≠ [] := by
  unfold resolve
  split
  · simp
  · split <;> simp

theorem resolve_of_mem {c : Char} (h : c ∈ literals) : resolve c = [c] := by
  simp [resolve, h]

end Spintax.Escape
