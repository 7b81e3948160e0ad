import Spintax.Proofs.Invariants

/-!
# Spintax.Proofs.KeptConfig

Actions of a session that leave the configuration alone: all but those that are about it.

* `KeepsConfig`: an action after which the configuration is the one before it.
* `Request.IsPlain`: the requests that have nothing to do with the configuration in force.
* `Request.IsPlain.keeps`: they keep what is invariant.
* `Request.IsPlain.keepsConfig`: they leave the configuration alone.
-/

namespace Spintax.Session

variable {ε α : Type}

/-- The configuration is the same afterwards, also where the action fails. -/
def KeepsConfig (p : ExceptT ε (StateM State) α) : Prop :=
  ∀ s : State, (p.run.run s).2.config = s.config

/-- Requests that neither set the configuration in force, nor show it, nor hold steps. -/
def Request.IsPlain : Request → Prop
  | .settings _ | .within _ _ _ | .thread _ | .session _ => False
  | _ => True

theorem Request.IsPlain.keeps {r : Request} (h : r.IsPlain) {V : Invariant} (hr : V.Permits r)
    (n : Nat) : V.Keeps n r.act := by
  cases r with
  | query q => exact .query q
  | reading c => exact .reading c
  | parsing c => exact .parsing hr
  | making c => exact .making hr
  | trees c => exact .trees c
  | settings c => exact h.elim
  | within wanted steps raises => exact h.elim
  | thread steps => exact h.elim
  | session steps => exact h.elim

/-- A configuration is in force. This does not depend on any choosers or names. -/
def Invariant.ofConfig (c : Config) : Invariant where
  Holds s := s.config = c
  Free _ _ := True
  OpenChooser _ := True
  OpenGenerator _ := True
  OpenParser _ := True
  free_mono _ h := h
  aside h _ _ _ _ := h
  add h _ := ⟨h, trivial⟩
  draw h _ _ := h
  putChooser h _ _ := h
  findChooser _ _ := trivial
  putGenerator h _ _ := h
  findGenerator _ _ _ := trivial
  putParser h _ _ := h

/-- An action that keeps all invariants leaves the configuration alone. -/
theorem Invariant.keepsConfig {p : Procedure α}
    (h : ∀ c, (Invariant.ofConfig c).Keeps 0 p) : KeepsConfig p :=
  fun s => (h s.config s rfl (Nat.zero_le _)).1

theorem Request.IsPlain.keepsConfig {r : Request} (h : r.IsPlain) : KeepsConfig r.act := by
  refine Invariant.keepsConfig fun c => h.keeps ?_ 0
  unfold Invariant.Permits
  split <;> trivial

end Spintax.Session
