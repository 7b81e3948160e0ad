/-!
# Spintax.Config

What may be set: how deeply blocks may nest, and the seed of the choosers made when none is given.

* `Config`: settings within bounds.
* `Config.Settings`, `Config.ofSettings`: settings as asked for, and the check of them.
-/

namespace Spintax

/-- No configuration allows deeper nesting than this. -/
def Config.ceiling : Nat := 256

structure Config where
  /-- how many blocks may be open at once -/
  maxDepth : Nat := 64
  /-- the seed of new choosers; without one they are not reproducible -/
  seed : Option Int := none
  one_le_maxDepth : 1 ≤ maxDepth := by decide
  maxDepth_le : maxDepth ≤ Config.ceiling := by decide
deriving DecidableEq

namespace Config

/-- The configuration where nothing was set. -/
def initial : Config := {}

/-- Settings as asked for. What is not mentioned is as in the default configuration. -/
structure Settings where
  maxDepth : Int := 64
  seed : Option Int := none
deriving DecidableEq

/-- The limit on nesting that was asked for is out of bounds. -/
structure DepthError where
  asked : Int
deriving DecidableEq

def DepthError.message (e : DepthError) : String :=
  "max_depth must be between 1 and " ++ toString ceiling ++ ", got " ++ toString e.asked

def ofSettings (s : Settings) : Except DepthError Config :=
  if h : 1 ≤ s.maxDepth ∧ s.maxDepth ≤ (ceiling : Int) then
    .ok ⟨s.maxDepth.toNat, s.seed, by omega, by omega⟩
  else .error ⟨s.maxDepth⟩

theorem ofSettings_eq_error_iff {s : Settings} {e : DepthError} :
    ofSettings s = .error e ↔
      ¬ (1 ≤ s.maxDepth ∧ s.maxDepth ≤ (ceiling : Int)) ∧ e = ⟨s.maxDepth⟩ := by
  unfold ofSettings
  split <;> simp_all [eq_comm]

/-- What is accepted is taken over as it is. -/
theorem ofSettings_eq_ok_iff {s : Settings} {c : Config} :
    ofSettings s = .ok c ↔ (c.maxDepth : Int) = s.maxDepth ∧ c.seed = s.seed := by
  obtain ⟨maxDepth, seed, hone, hle⟩ := c
  unfold ofSettings
  split
  · have hdepth : s.maxDepth.toNat = maxDepth ↔ (maxDepth : Int) = s.maxDepth := by omega
    simp only [Except.ok.injEq, mk.injEq]
    rw [hdepth, eq_comm (a := seed)]
  · simp only [reduceCtorEq, false_iff]
    omega

theorem ofSettings_default : ofSettings {} = .ok {} := rfl

end Config
end Spintax
