import Codegen.Config
import Codegen.Toml.Reader

/-!
# Configuration files

A configuration file is a TOML document whose table `codegen` holds the settings.  Every setting
has a default; other names are ignored, but a setting of the wrong type is refused.  An array in
the place of the table holds the first settings, and a date holds none.
-/

namespace Codegen.Config

/-- Names of the settings, and what their values change. -/
def settings : List (String × (Config → Toml → Option Config)) :=
  [("target_triple", fun config value =>
      match value with
      | .string text => some { config with targetTriple := some text }
      | _ => none),
    ("debug_info", fun config value =>
      match value with
      | .bool value => some { config with debugInfo := value }
      | _ => none),
    ("producer", fun config value =>
      match value with
      | .string text => some { config with producer := text }
      | _ => none),
    ("verify", fun config value =>
      match value with
      | .bool value => some { config with verify := value }
      | _ => none)]

/-- Settings by name. -/
def ofEntries (entries : Toml.Entries) : Option Config :=
  settings.foldlM (fun config (name, change) =>
    match entries.lookup name with
    | some value => change config value
    | none => some config) {}

/-- Settings in the order of their names above, without names. -/
def ofItems (items : List Toml) : Option Config :=
  (settings.zip items).foldlM (fun config ((_, change), value) => change config value) {}

/-- The settings of a configuration file. -/
def parse? (text : String) : Option Config := do
  let entries ← Toml.read? text
  match entries.lookup "codegen" with
  | none => some {}
  | some (.table _ settings) => ofEntries settings
  | some (.array items) => ofItems items
  | some (.date _) => some {}
  | some _ => none

end Codegen.Config
