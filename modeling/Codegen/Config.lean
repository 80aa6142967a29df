import Codegen.Text.Basic

/-!
# Configuration

What a user may choose about the output.
-/

namespace Codegen

/-- The version of the program. -/
def version : String := "0.1.0"

/-- Choices about the output. -/
structure Config where
  /-- The target the module is meant for; without one it is the default target. -/
  targetTriple : Option String := none
  /-- Whether debug records are printed. -/
  debugInfo : Bool := true
  /-- Who made the module, as its debug records say. -/
  producer : String := "colgm compiler version " ++ version
  /-- Whether every function is checked before the module is given out. -/
  verify : Bool := false
  /-- The directory of the source files, as debug records say. -/
  directory : String := "/"
  deriving DecidableEq, Inhabited

namespace Config

/-- The target of a module when none is chosen. -/
def defaultTriple : String := "x86_64-pc-linux-gnu"

/-- The target of the module. -/
def triple (config : Config) : String := config.targetTriple.getD defaultTriple

end Config

end Codegen
