import MiniC.Parse.Dialect

/-!
# Parser settings

The dialect, the greatest nesting depth that is allowed, and whether tokens behind the function
are refused.
-/

namespace MiniC

/-- The nesting depth that is allowed unless something else is asked for. -/
def Settings.defaultMaxDepth : Nat := 256

structure Settings where
  dialect : Dialect := .standard
  /-- No value means that nesting is not limited. -/
  maxDepth : Option Nat := some Settings.defaultMaxDepth
  /-- Refuse tokens behind the function. -/
  strict : Bool := false
  deriving DecidableEq, Repr

namespace Settings

def withDialect (settings : Settings) (dialect : Dialect) : Settings :=
  { settings with dialect }

def withMaxDepth (settings : Settings) (maxDepth : Option Nat) : Settings :=
  { settings with maxDepth }

/-- The settings in strict mode. There is no way back to the other mode. -/
def withTrailingTokensRefused (settings : Settings) : Settings :=
  { settings with strict := true }

end Settings

end MiniC
