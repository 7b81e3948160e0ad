import Spintax.Diagnostic
import Spintax.Escape
import Spintax.Journal

/-!
# Spintax.Scanner

From characters to tokens. A stack of modes says how the next character reads: a brace opens a
block and pushes `block`, the other one pops it, and a backslash pushes `escape` for exactly one
character. A bar is plain text outside all blocks.

* `Scanner`: the text still to read and the modes.
* `Scanner.step`: one character, or one run of plain characters.
* `Scanner.next`: the next token, or the way the text ends.
* `Scanner.scan`: all tokens. `scan_eq` says that it is `next` again and again.
-/

namespace Spintax

inductive Mode where
  | normal
  | block
  | escape
deriving DecidableEq

namespace Mode

def all : List Mode := [.normal, .block, .escape]

/-- Characters that end a run of plain text, in order. -/
def stops : Mode → List Char
  | .normal => ['\\', '{', '}']
  | .block => ['\\', '{', '|', '}']
  | .escape => []

def plain (m : Mode) (c : Char) : Bool :=
  c ∉ m.stops

end Mode

/-- A reader of a template, somewhere in its text. -/
structure Scanner where
  /-- the characters not read yet -/
  rest : List Char
  /-- the modes, innermost first -/
  modes : List Mode := [.normal]
  /-- the point before `rest` -/
  here : Mark := {}
  /-- where the last token, or the escape in progress, starts -/
  saved : Mark := {}
  file : Option String := none
deriving DecidableEq

/-- How a text ends. -/
inductive Ending where
  /-- all blocks are closed -/
  | clean
  /-- blocks are still open at the end -/
  | leftOpen (blocks : Nat) (mark : Mark)
  /-- the backslash at `mark` is the last character -/
  | dangling (mark : Mark)
deriving DecidableEq

namespace Ending

/-- What the journal hears of an ending. -/
def events : Ending → List Event
  | .leftOpen blocks mark => [.leftOpen blocks mark]
  | _ => []

/-- The only fault of spelling: a backslash with nothing after it. -/
def diagnostic? (file : Option String) : Ending → Option Diagnostic
  | .dangling mark => some ⟨.lexical, "dangling escape", some mark.line, some mark.column, file⟩
  | _ => none

end Ending

namespace Scanner

def ofText (text : String) (file : Option String) : Scanner :=
  { rest := text.toList, file := file }

def mode (s : Scanner) : Mode :=
  s.modes.headD .normal

def depth (s : Scanner) : Nat :=
  s.modes.count .block

def token (s : Scanner) (kind : Token.Kind) (value : List Char) (start stop : Mark) : Token :=
  ⟨kind, String.ofList value, start.line, start.column, start.offset, stop.offset, s.file⟩

/-- The brace or bar `c` as a token, `modes` being the modes after it. -/
def punctuation (s : Scanner) (kind : Token.Kind) (c : Char) (rest : List Char)
    (modes : List Mode) : Option Token × Scanner :=
  let stop := s.here.next c
  (some (s.token kind [c] s.here stop),
    { s with rest := rest, modes := modes, here := stop, saved := s.here })

/-- The character after a backslash, as a token that starts at the backslash. -/
def escaped (s : Scanner) (c : Char) (rest : List Char) : Option Token × Scanner :=
  let stop := s.here.next c
  (some (s.token .text (Escape.resolve c) s.saved stop),
    { s with rest := rest, modes := s.modes.tail, here := stop })

/-- A backslash makes no token of its own. -/
def backslash (s : Scanner) (c : Char) (rest : List Char) : Option Token × Scanner :=
  (none, { s with rest := rest, modes := .escape :: s.modes, here := s.here.next c,
                  saved := s.here })

def plainRun (s : Scanner) (c : Char) (rest : List Char) : Option Token × Scanner :=
  let run := c :: rest.takeWhile s.mode.plain
  let stop := s.here.past run
  (some (s.token .text run s.here stop),
    { s with rest := rest.dropWhile s.mode.plain, here := stop, saved := s.here })

def step (s : Scanner) (c : Char) (rest : List Char) : Option Token × Scanner :=
  if s.mode = .escape then s.escaped c rest
  else if c = '{' then s.punctuation .opening c rest (.block :: s.modes)
  else if c = '}' then
    s.punctuation .closing c rest (if s.mode = .block then s.modes.tail else s.modes)
  else if c = '|' ∧ s.mode = .block then s.punctuation .bar c rest s.modes
  else if c = Escape.sign then s.backslash c rest
  else s.plainRun c rest

/-- What is at fault, or worth a record, if the text ends here. -/
def ending (s : Scanner) : Ending :=
  if s.mode = .escape then .dangling s.saved
  else if 1 < s.modes.length then .leftOpen s.depth s.here
  else .clean

theorem step_rest_le (s : Scanner) (c : Char) (rest : List Char) :
    (s.step c rest).2.rest.length ≤ rest.length := by
  have := (List.dropWhile_suffix s.mode.plain (l := rest)).length_le
  unfold step
  repeat' split
  all_goals simp [escaped, punctuation, backslash, plainRun, this]

/-- What a scanner finds: a token, with the scanner after it, or the end of the text. -/
inductive Found where
  | token (t : Token) (after : Scanner)
  | ended (ending : Ending) (after : Scanner)

def next (s : Scanner) : Found :=
  match _h : s.rest with
  | [] => .ended s.ending s
  | c :: rest =>
    match _hs : s.step c rest with
    | (some t, s') => .token t s'
    | (none, s') => s'.next
termination_by s.rest.length
decreasing_by
  have h := s.step_rest_le c rest
  rw [_hs] at h
  rw [_h]
  exact Nat.lt_succ_of_le h

theorem next_of_nil {s : Scanner} (h : s.rest = []) : s.next = .ended s.ending s := by
  unfold next
  split <;> simp_all

theorem next_of_cons {s : Scanner} {c : Char} {rest : List Char} (h : s.rest = c :: rest) :
    s.next = match s.step c rest with
      | (some t, s') => .token t s'
      | (none, s') => s'.next := by
  rw [next]
  split
  · simp_all
  · rename_i h'
    obtain ⟨rfl, rfl⟩ := List.cons.inj (h.symm.trans h')
    split <;> simp_all

theorem next_rest_lt {s s' : Scanner} {t : Token} (h : s.next = .token t s') :
    s'.rest.length < s.rest.length := by
  fun_induction next s with
  | case1 => cases h
  | case2 s c rest hr u s₁ hs =>
    have hle := s.step_rest_le c rest
    rw [hs] at hle
    obtain ⟨rfl, rfl⟩ := Found.token.inj h
    rw [hr]
    exact Nat.lt_succ_of_le hle
  | case3 s c rest hr s₁ hs ih =>
    have hle := s.step_rest_le c rest
    rw [hs] at hle
    rw [hr]
    exact Nat.lt_succ_of_le (Nat.le_trans (Nat.le_of_lt (ih h)) hle)

/-- All tokens of a text, how it ends, and the scanner at its end. -/
structure Scan where
  tokens : List Token
  ending : Ending
  last : Scanner

/-- The tokens from here on, put behind the newest first tokens `before`. -/
def scanOnto (before : List Token) (s : Scanner) : Scan :=
  match _h : s.next with
  | .token t s' => scanOnto (t :: before) s'
  | .ended ending s' => ⟨before.reverse, ending, s'⟩
termination_by s.rest.length
decreasing_by exact next_rest_lt _h

def scan (s : Scanner) : Scan :=
  scanOnto [] s

theorem scanOnto_append (before older : List Token) (s : Scanner) :
    scanOnto (before ++ older) s =
      { scanOnto before s with tokens := older.reverse ++ (scanOnto before s).tokens } := by
  fun_induction scanOnto before s with
  | case1 before s t s' h ih =>
    rw [scanOnto]
    split <;> simp_all
  | case2 before s ending s' h =>
    rw [scanOnto]
    split <;> simp_all

theorem scan_eq (s : Scanner) :
    s.scan = match s.next with
      | .token t s' => { s'.scan with tokens := t :: s'.scan.tokens }
      | .ended ending s' => ⟨[], ending, s'⟩ := by
  rw [scan, scanOnto]
  split
  · rename_i t s' h
    simpa [h, scan] using scanOnto_append [] [t] s'
  · rename_i h
    simp [h]

end Scanner
end Spintax
