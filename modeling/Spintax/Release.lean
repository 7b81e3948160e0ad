import Spintax.Config
import Spintax.Scanner

/-!
# Spintax.Release

What this release is called, what it offers by name, and the tables that fix its template
language.

* `Release.version`, `Release.offered`.
* `Release.Tables`, `Release.tables`: the language in tables.
-/

namespace Spintax.Release

def version : String := "0.1.0"

/-- All names on offer, in the order of the manual. -/
def offered : List String :=
  ["__version__",
   "lex", "parse", "run", "compile_template", "evaluate", "default_rng", "Interpreter",
   "Node", "Pattern", "Block", "Text",
   "Lexer", "LexerMode", "Parser", "Token", "TokenType", "RandomSource",
   "RantError", "LexError", "TemplateSyntaxError",
   "RantConfig", "get_config", "set_config", "reset_config", "config_context",
   "SourceLocation"]

structure Tables where
  version : String
  offered : List String
  kinds : List Token.Kind
  modes : List Mode
  escapeSign : Char
  /-- the characters that end a run of plain text, for the modes that have such runs -/
  stops : List (Mode × List Char)
  literals : List Char
  controls : List (Char × Char)
  ceiling : Nat

def tables : Tables where
  version := version
  offered := offered
  kinds := Token.Kind.all
  modes := Mode.all
  escapeSign := Escape.sign
  stops := [(.block, Mode.stops .block), (.normal, Mode.stops .normal)]
  literals := Escape.literals
  controls := Escape.controls
  ceiling := Config.ceiling

end Spintax.Release
