import Spintax.Location

/-!
# Spintax.Diagnostic

A report about a template, with the place it concerns.

* `Diagnostic`: a kind, a text and as much of a place as is known.
* `Diagnostic.formatted`: the place in front of the text, as readers see it.
-/

namespace Spintax

/-- What is reported: a fault of spelling, a fault of structure, or neither in particular. -/
inductive Diagnostic.Kind where
  | general
  | lexical
  | structural
deriving DecidableEq

structure Diagnostic where
  kind : Diagnostic.Kind
  text : String
  line : Option Int := none
  column : Option Int := none
  file : Option String := none
deriving DecidableEq

namespace Diagnostic

/-- The kinds that a diagnostic of this kind belongs to: every kind is a general one too. -/
def Kind.ancestry : Kind → List Kind
  | .general => [.general]
  | k => [.general, k]

/-- The known parts of the place, a colon after each. The column counts only with a line. -/
def place (d : Diagnostic) : String :=
  let file := match shownFile d.file with
    | some name => name ++ ":"
    | none => ""
  let line := match d.line with
    | some l => toString l ++ ":"
    | none => ""
  let column := match d.line, d.column with
    | some _, some c => toString c ++ ":"
    | _, _ => ""
  file ++ line ++ column

/-- The text without the colons at its end. -/
def dropColons (s : String) : String :=
  String.ofList (s.toList.reverse.dropWhile (· = ':')).reverse

/-- The place without its last colons, a space and the text; the text alone where no part of the
place is known. -/
def formatted (d : Diagnostic) : String :=
  if d.place = "" then d.text else dropColons d.place ++ " " ++ d.text

end Diagnostic
end Spintax
