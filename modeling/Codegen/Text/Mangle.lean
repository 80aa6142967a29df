import Codegen.Text.Basic

/-!
# Symbol names

A qualified name such as `std::vec<data::foo>` becomes a symbol name by writing `.` for every `::`
of its path.  The generic arguments, from the first `<` on, are kept as they are, so that distinct
instantiations keep distinct symbols.
-/

namespace Codegen.Text

/-- Every `::`, read from the left, written as one `.`. -/
def dotted : List Char → List Char
  | [] => []
  | ':' :: ':' :: rest => '.' :: dotted rest
  | c :: rest => c :: dotted rest

/-- The symbol name of a qualified name, character by character. -/
def mangleChars (name : List Char) : List Char :=
  dotted (name.takeWhile (· ≠ '<')) ++ name.dropWhile (· ≠ '<')

/-- The symbol name of a qualified name. -/
def mangle (name : String) : String :=
  String.ofList (mangleChars name.toList)

end Codegen.Text
