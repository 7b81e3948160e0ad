import Spintax.Session.State

/-!
# Spintax.Session.Settings

Looking at the configuration and changing it. One that is out of bounds is refused and changes
nothing.

* `ConfigCommand`, `ConfigCommand.act`.
-/

namespace Spintax.Session

inductive ConfigCommand where
  | look
  | change (s : Config.Settings)
  | reset

open Procedure

/-- Every one of them shows the configuration that is then in force. -/
def ConfigCommand.act : ConfigCommand → Procedure Answer
  | .look => do return .config (← get).config
  | .change s => do
    let c ← checkConfig s
    putConfig c
    return .config c
  | .reset => do
    putConfig .initial
    return .config .initial

end Spintax.Session
