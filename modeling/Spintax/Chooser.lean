import Spintax.Chooser.Twister
import Spintax.Config

/-!
# Spintax.Chooser

Where the choices come from. A chooser is asked for a number below a bound, and is a different
chooser afterwards.

* `Chooser`: a list of picks made beforehand, or a generator.
* `Chooser.draw`: the next pick.
* `Chooser.ofConfig`: the chooser used where none is given.
-/

namespace Spintax

inductive Chooser where
  /-- gives these picks in order, whatever the bound -/
  | scripted (picks : List Int)
  /-- draws from a generator, which a number or the operating system has seeded -/
  | seeded (generator : Twister)

namespace Chooser

inductive Refusal where
  /-- a script of picks has come to its end -/
  | noPicksLeft
  /-- no number is below the bound -/
  | emptyRange
  /-- there is nothing to draw from -/
  | noChooser
deriving DecidableEq

def Refusal.message : Refusal → String
  | .noPicksLeft => "no picks left"
  | .emptyRange => "empty range for randrange()"
  | .noChooser => "'NoneType' object has no attribute 'randrange'"

/-- The next pick for the bound `stop`. -/
def draw (c : Chooser) (stop : Int) : Except Refusal Int × Chooser :=
  match c with
  | .scripted [] => (.error .noPicksLeft, c)
  | .scripted (pick :: picks) => (.ok pick, .scripted picks)
  | .seeded g =>
    if stop ≤ 0 then (.error .emptyRange, c)
    else
      let (n, g) := g.below stop.toNat
      (.ok n, .seeded g)

def isScripted : Chooser → Bool
  | .scripted _ => true
  | _ => false

/-- A new chooser from the seed of a configuration. Where no seed is set, its generator is
`entropy`, which the operating system has seeded. -/
def ofConfig (c : Config) (entropy : Twister) : Chooser :=
  .seeded (c.seed.elim entropy .ofSeed)

theorem ofConfig_of_seed {c : Config} {n : Int} (h : c.seed = some n) (entropy : Twister) :
    ofConfig c entropy = .seeded (.ofSeed n) := by
  rw [ofConfig, h, Option.elim_some]

/-- A seeded chooser stays below its bound. -/
theorem draw_seeded {stop : Int} (h : 0 < stop) (g : Twister) :
    ∃ n : Nat, n < stop ∧ ((Chooser.seeded g).draw stop).1 = .ok (n : Int) := by
  refine ⟨(g.below stop.toNat).1, ?_, ?_⟩
  · have : (g.below stop.toNat).1 < stop.toNat := g.below_lt (by omega)
    omega
  · simp [draw, Int.not_le.2 h]

end Chooser
end Spintax
