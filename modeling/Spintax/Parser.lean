import Spintax.Diagnostic
import Spintax.Journal
import Spintax.Tree

/-!
# Spintax.Parser

From tokens to a tree, reading each token once and from left to right. A frame is kept for every
open block: the parts read before it and the options it already has.

* `State.step`: what one token does to the frames, or why it cannot stand there.
* `State.finish`: the tree of a list of tokens that ends here, or what is missing.
* `Parser`: a list of tokens with the position and the depth reached in it. A parser goes on where
  it stopped, after a fault too.
* `Parser.parse`: the tree of the tokens not read yet.
* `Parser.report`: the same, with the fault as a report and a record of it.
-/

namespace Spintax
namespace Parser

/-- Why a list of tokens has no tree. -/
inductive Cause where
  /-- a bar or a closing brace outside all blocks -/
  | stray (value : String)
  /-- a bar or a closing brace where an option should start -/
  | emptyOption (value : String)
  /-- more blocks open at once than the limit allows -/
  | tooDeep (limit : Nat)
  /-- the end where a pattern should start -/
  | endOfInput
  /-- the end inside a block -/
  | unterminated
deriving DecidableEq

def Cause.message : Cause → String
  | .stray value => "unexpected " ++ Text.quote value ++ " outside of a block"
  | .emptyOption value => "empty option before " ++ Text.quote value
  | .tooDeep limit => "blocks nested deeper than " ++ toString limit ++ " levels"
  | .endOfInput => "unexpected end of input, expected text or '\x7b'"
  | .unterminated => "unterminated block, expected '\x7d'"

/-- A cause and the index of the token that it is put down to. -/
structure Fault where
  cause : Cause
  blamed : Option Nat
deriving DecidableEq

/-- An open block. Both lists have the newest first. -/
structure Frame where
  /-- the index of the opening brace -/
  index : Nat
  opening : Token
  /-- the parts before the block, in the pattern around it -/
  before : List Tree
  /-- the options read so far, without the one in progress -/
  options : List Tree

/-- A parser at work: how many tokens are read, how deep it stands, the open blocks, innermost
first, and the parts of the pattern in progress, newest first. -/
structure State where
  position : Nat
  depth : Nat
  frames : List Frame
  parts : List Tree

/-- A fault, and the position and the depth it leaves behind. -/
structure Halt where
  fault : Fault
  position : Nat
  depth : Nat
deriving DecidableEq

namespace State

def start (position depth : Nat) : State := ⟨position, depth, [], []⟩

/-- The token at the position cannot stand there. It is not read. -/
def refuse (s : State) (value : String) : Halt :=
  ⟨⟨if s.depth = 0 then .stray value else .emptyOption value, some s.position⟩,
    s.position, s.depth⟩

def addText (s : State) (t : Token) : State :=
  { s with position := s.position + 1, parts := .text t.value t.location :: s.parts }

/-- Starts a block. Its brace counts as read even where the block is one too many. -/
def openBlock (limit : Nat) (s : State) (t : Token) : Except Halt State :=
  if limit < s.depth + 1 then
    .error ⟨⟨.tooDeep limit, some s.position⟩, s.position + 1, s.depth + 1⟩
  else
    .ok ⟨s.position + 1, s.depth + 1, ⟨s.position, t, s.parts, []⟩ :: s.frames, []⟩

/-- Ends an option of the innermost block, where there is one and the option is not empty. -/
def nextOption (s : State) (t : Token) : Except Halt State :=
  match s.parts, s.frames with
  | part :: parts, f :: frames =>
    .ok { s with
      position := s.position + 1
      frames := { f with options := .patternOf part parts :: f.options } :: frames
      parts := [] }
  | _, _ => .error (s.refuse t.value)

/-- Ends the innermost block, where there is one and its last option is not empty. The block
becomes a part of the pattern around it. -/
def closeBlock (s : State) (t : Token) : Except Halt State :=
  match s.parts, s.frames with
  | part :: parts, f :: frames =>
    .ok ⟨s.position + 1, s.depth - 1, frames,
      .blockOf (.patternOf part parts) f.options (f.opening.location.spanTo t.location)
        :: f.before⟩
  | _, _ => .error (s.refuse t.value)

def step (limit : Nat) (s : State) (t : Token) : Except Halt State :=
  match t.kind with
  | .text => .ok (s.addText t)
  | .opening => s.openBlock limit t
  | .bar => s.nextOption t
  | .closing => s.closeBlock t

def run (limit : Nat) (s : State) (ts : List Token) : Except Halt State :=
  ts.foldlM (step limit) s

@[simp] theorem run_nil (limit : Nat) (s : State) : s.run limit [] = .ok s := rfl

theorem run_cons (limit : Nat) (s : State) (t : Token) (ts : List Token) :
    s.run limit (t :: ts) =
      match s.step limit t with
      | .ok s' => s'.run limit ts
      | .error h => .error h := by
  simp only [run, List.foldlM_cons]
  cases s.step limit t <;> rfl

theorem run_append (limit : Nat) (s : State) (ts us : List Token) :
    s.run limit (ts ++ us) =
      match s.run limit ts with
      | .ok s' => s'.run limit us
      | .error h => .error h := by
  simp only [run, List.foldlM_append]
  cases ts.foldlM (step limit) s <;> rfl

/-- The tree of all that was read, if nothing is missing at the end. An empty pattern is put down
to the token before it, an open block to its brace. -/
def finish (s : State) : Except Fault Tree :=
  match s.parts, s.frames with
  | [], _ => .error ⟨.endOfInput, if s.position = 0 then none else some (s.position - 1)⟩
  | part :: parts, [] => .ok (.patternOf part parts)
  | _ :: _, f :: _ => .error ⟨.unterminated, some f.index⟩

end State
end Parser

structure Parser where
  tokens : List Token
  /-- the file named in reports, where it has a name -/
  file : Option String
  /-- how many blocks may be open at once -/
  limit : Nat
  position : Nat := 0
  depth : Nat := 0

namespace Parser

/-- Reads the tokens from the position on. The position and the depth stay as they are at the end
or at a fault. -/
def parse (p : Parser) : Except Fault Tree × Parser :=
  match (State.start p.position p.depth).run p.limit (p.tokens.drop p.position) with
  | .ok s => (s.finish, { p with position := s.position, depth := s.depth })
  | .error h => (.error h.fault, { p with position := h.position, depth := h.depth })

def blamed (p : Parser) (f : Fault) : Option Token :=
  f.blamed.bind (p.tokens[·]?)

/-- A fault as a report, at the place of the token it is put down to. -/
def diagnostic (p : Parser) (f : Fault) : Diagnostic :=
  match p.blamed f with
  | none => ⟨.structural, f.cause.message, none, none, p.file⟩
  | some t =>
    ⟨.structural, f.cause.message, some t.location.line, some t.location.column,
      if (shownFile p.file).isSome then p.file else t.location.file⟩

def event (p : Parser) (f : Fault) : Event :=
  .rejected f.cause.message (p.blamed f)

def report (p : Parser) : Recorded (Except Diagnostic Tree) × Parser :=
  match p.parse with
  | (.ok t, p') => (⟨.ok t, []⟩, p')
  | (.error f, p') => (⟨.error (p.diagnostic f), [p.event f]⟩, p')

@[simp] theorem parse_tokens (p : Parser) : p.parse.2.tokens = p.tokens := by
  unfold parse; split <;> rfl

@[simp] theorem parse_limit (p : Parser) : p.parse.2.limit = p.limit := by
  unfold parse; split <;> rfl

@[simp] theorem parse_file (p : Parser) : p.parse.2.file = p.file := by
  unfold parse; split <;> rfl

end Parser
end Spintax
