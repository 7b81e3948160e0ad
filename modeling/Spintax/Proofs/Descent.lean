import Spintax.Parser

/-!
# Spintax.Proofs.Descent

The parser as two productions that call each other, in place of a list of frames. Every way in
which a production can end is an outcome of its own, the ones that never come about included.

* `Cursor`: the registers that both productions share.
* `pattern`, `block`: the productions. `parts` and `options` are the loops inside them.
* `parse`: a whole parse.
-/

namespace Spintax
namespace Descent

open Spintax.Parser

/-- Why a production ends without a tree. -/
inductive Exit where
  /-- the template is at fault -/
  | fault (f : Fault)
  /-- a node was to be made of no parts or no options -/
  | unbuilt (e : Tree.BuildError)
  /-- a block was to start where there is no token -/
  | noOpening
  /-- no more productions may be active at once -/
  | exhausted
deriving DecidableEq

/-- The position and the depth reached, and the token there. -/
structure Cursor (ts : List Token) where
  position : Nat
  current : Option Token
  depth : Int
  current_eq : current = ts[position]?
  position_le : position ≤ ts.length

/-- A tree and the cursor behind it, which has moved on from `start`, or an exit and the cursor it
leaves. -/
inductive Reply (ts : List Token) (start : Nat) where
  | done (t : Tree) (after : Cursor ts) (h : start < after.position)
  | exit (e : Exit) (after : Cursor ts)

namespace Cursor

variable {ts : List Token}

theorem position_lt {c : Cursor ts} {t : Token} (h : c.current = some t) :
    c.position < ts.length := by
  rw [c.current_eq] at h
  exact (List.getElem?_eq_some_iff.1 h).1

def ofParser (p : Parser) (h : p.position ≤ p.tokens.length) : Cursor p.tokens :=
  ⟨p.position, p.tokens[p.position]?, p.depth, rfl, h⟩

def advance (c : Cursor ts) {t : Token} (h : c.current = some t) (depth : Int) : Cursor ts :=
  ⟨c.position + 1, ts[c.position + 1]?, depth, rfl, position_lt h⟩

@[simp] theorem advance_position (c : Cursor ts) {t : Token} (h : c.current = some t)
    (depth : Int) : (c.advance h depth).position = c.position + 1 := rfl

@[simp] theorem advance_depth (c : Cursor ts) {t : Token} (h : c.current = some t)
    (depth : Int) : (c.advance h depth).depth = depth := rfl

/-- The current token starts no part. -/
def unexpected (c : Cursor ts) (t : Token) : Exit :=
  .fault ⟨if c.depth = 0 then .stray t.value else .emptyOption t.value, some c.position⟩

/-- The end of a pattern, its parts newest first. -/
def endPattern (c : Cursor ts) (start : Nat) (read : List Tree)
    (h : read ≠ [] → start < c.position) : Reply ts start :=
  match read, h with
  | [], _ =>
    match c.current with
    | none => .exit (.fault ⟨.endOfInput, if ts = [] then none else some (ts.length - 1)⟩) c
    | some t => .exit (c.unexpected t) c
  | newest :: older, h =>
    let first := (newest :: older).getLast (by simp)
    match Tree.ofParts (newest :: older).reverse (first.location.spanTo newest.location) with
    | .ok t => .done t c (h (by simp))
    | .error e => .exit (.unbuilt e) c

/-- The end of the block that `opening` starts, its options newest first. -/
def endBlock (c : Cursor ts) (start : Nat) (opening : Token) (read : List Tree)
    (h : start < c.position) : Reply ts start :=
  match hc : c.current with
  | none => .exit (.fault ⟨.unterminated, some start⟩) c
  | some t =>
    if t.kind = .closing then
      match Tree.ofOptions read.reverse (opening.location.spanTo t.location) with
      | .ok b => .done b (c.advance hc (c.depth - 1)) (Nat.lt_succ_of_lt h)
      | .error e => .exit (.unbuilt e) (c.advance hc (c.depth - 1))
    else .exit (.fault ⟨.unterminated, some start⟩) c

end Cursor

/-- What is left for the productions inside, if one more may be active. There need be no bound. -/
def spend : Option Nat → Option (Option Nat)
  | none => some none
  | some 0 => none
  | some (n + 1) => some (some n)

variable {ts : List Token}

mutual

def pattern (limit : Nat) (budget : Option Nat) (c : Cursor ts) : Reply ts c.position :=
  match spend budget with
  | none => .exit .exhausted c
  | some budget => parts limit budget c.position [] c (Nat.le_refl _) (by simp)
termination_by (ts.length - c.position, 2)

/-- Texts and blocks, until a token starts neither. -/
def parts (limit : Nat) (budget : Option Nat) (start : Nat) (read : List Tree) (c : Cursor ts)
    (hs : start ≤ c.position) (hr : read ≠ [] → start < c.position) : Reply ts start :=
  match hc : c.current with
  | none => c.endPattern start read hr
  | some t =>
    have := Cursor.position_lt hc
    match t.kind with
    | .text =>
      parts limit budget start (.text t.value t.location :: read) (c.advance hc c.depth)
        (Nat.le_succ_of_le hs) (fun _ => Nat.lt_succ_of_le hs)
    | .opening =>
      match block limit budget c with
      | .done b c' h =>
        parts limit budget start (b :: read) c' (Nat.le_of_lt (Nat.lt_of_le_of_lt hs h))
          (fun _ => Nat.lt_of_le_of_lt hs h)
      | .exit e c' => .exit e c'
    | .bar | .closing => c.endPattern start read hr
termination_by (ts.length - c.position, 1)

def block (limit : Nat) (budget : Option Nat) (c : Cursor ts) : Reply ts c.position :=
  match spend budget with
  | none => .exit .exhausted c
  | some budget =>
    match hc : c.current with
    | none => .exit .noOpening c
    | some opening =>
      have := Cursor.position_lt hc
      let inside := c.advance hc (c.depth + 1)
      if (limit : Int) < c.depth + 1 then .exit (.fault ⟨.tooDeep limit, some c.position⟩) inside
      else
        match pattern limit budget inside with
        | .done option c' h =>
          have : c.position < c'.position := Nat.lt_of_succ_lt h
          options limit budget c.position opening [option] c' this
        | .exit e c' => .exit e c'
termination_by (ts.length - c.position, 0)

/-- More options, as long as there are bars. -/
def options (limit : Nat) (budget : Option Nat) (start : Nat) (opening : Token)
    (read : List Tree) (c : Cursor ts) (hs : start < c.position) : Reply ts start :=
  match hc : c.current with
  | none => c.endBlock start opening read hs
  | some t =>
    have := Cursor.position_lt hc
    if t.kind = .bar then
      match pattern limit budget (c.advance hc c.depth) with
      | .done option c' h =>
        have : c.position < c'.position := Nat.lt_of_succ_lt h
        options limit budget start opening (option :: read) c' (Nat.lt_trans hs this)
      | .exit e c' => .exit e c'
    else c.endBlock start opening read hs
termination_by (ts.length - c.position, 3)

end

def parse (limit : Nat) (budget : Option Nat) (c : Cursor ts) : Except Exit Tree × Cursor ts :=
  match pattern limit budget c with
  | .exit e c' => (.error e, c')
  | .done t c' _ =>
    match c'.current with
    | some u => (.error (c'.unexpected u), c')
    | none => (.ok t, c')

end Descent
end Spintax
