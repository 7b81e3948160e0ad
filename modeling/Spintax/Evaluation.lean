import Spintax.Pick
import Spintax.Tree

/-!
# Spintax.Evaluation

From a tree to text. Text stands for itself, a pattern for its parts one after the other, and a
block for the option that is drawn. Choices are made from left to right and from the outside in,
and an option that is not drawn is never looked at.

* `Source`: whatever answers requests for a number below a bound.
* `evaluate`: the text of a tree, and the source afterwards.
* `evaluateAll`: the same for trees waiting in a list, after text already made.
-/

namespace Spintax

/-- Answers a request for a number below a bound, or fails; in both cases the state moves on. -/
abbrev Source (σ ε : Type) : Type := σ → Int → Except ε Int × σ

namespace Evaluation

inductive Fault (ε : Type) where
  /-- something that is no text, pattern or block -/
  | notEvaluable (typeName : String)
  /-- a pick that is no option of its block -/
  | outOfRange (pick : Int)
  /-- no pick at all -/
  | source (e : ε)
deriving DecidableEq

variable {σ ε : Type}

/-- The trees still waiting, in order, behind the text made so far. -/
def evaluateAll (draw : Source σ ε) : List Tree → σ → String → Except (Fault ε) String × σ
  | [], s, made => (.ok made, s)
  | .text content _ :: waiting, s, made => evaluateAll draw waiting s (made ++ content)
  | .pattern first rest _ :: waiting, s, made =>
    evaluateAll draw (first :: (rest ++ waiting)) s made
  | .block first rest _ :: waiting, s, made =>
    match draw s (first :: rest).length with
    | (.error e, s') => (.error (.source e), s')
    | (.ok pick, s') =>
      match _h : pick? (first :: rest) pick with
      | none => (.error (.outOfRange pick), s')
      | some option => evaluateAll draw (option :: waiting) s' made
  | .bare l :: _, s, _ => (.error (.notEvaluable (Tree.bare l).typeName), s)
  | .value v :: _, s, _ => (.error (.notEvaluable v.typeName), s)
termination_by waiting => Tree.sizeAll waiting
decreasing_by
  · simp [Tree.sizeAll, Tree.size]
  · simp [Tree.sizeAll, Tree.size, Tree.sizeAll_append]
    omega
  · have := Tree.size_le_sizeAll (mem_of_pick? _h)
    simp [Tree.sizeAll, Tree.size] at this ⊢
    omega

def evaluate (draw : Source σ ε) (t : Tree) (s : σ) : Except (Fault ε) String × σ :=
  evaluateAll draw [t] s ""

end Evaluation
end Spintax
