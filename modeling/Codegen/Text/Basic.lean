/-!
# Small pieces of text

Joining, repetition and digits, the pieces every printed form of the library is made of.
-/

namespace Codegen.Text

/-- The parts in order with `separator` between neighbours. -/
def join (separator : String) : List String → String
  | [] => ""
  | [part] => part
  | part :: next :: rest => part ++ separator ++ join separator (next :: rest)

/-- All parts, one after the other. -/
def concat : List String → String
  | [] => ""
  | part :: rest => part ++ concat rest

/-- `count` stars, the pointer levels of a printed type. -/
def stars (count : Nat) : String :=
  String.ofList (List.replicate count '*')

/-- The decimal digits of a natural number. -/
def decimal (n : Nat) : String :=
  String.ofList (Nat.toDigits 10 n)

/-- The decimal digits of an integer, with a minus sign in front of a negative one. -/
def signed : Int → String
  | .ofNat n => decimal n
  | .negSucc n => "-" ++ decimal (n + 1)

/-- The hexadecimal digits of a natural number, in lower case. -/
def hexadecimal (n : Nat) : String :=
  String.ofList (Nat.toDigits 16 n)

/-- A line: the text and the line break that ends it. -/
def line (text : String) : String := text ++ "\n"

/-- Whether `part` stands somewhere in `whole`. -/
def occurs (part : List Char) : List Char → Bool
  | [] => part.isEmpty
  | c :: rest => part.isPrefixOf (c :: rest) || occurs part rest

/-- What is left of `whole` when it ends in `ending`. -/
def dropEnding? (ending whole : List Char) : Option (List Char) :=
  if ending.isSuffixOf whole then some (whole.take (whole.length - ending.length)) else none

/-- What is left of `whole` when it starts with `start`. -/
def dropStart? : (start whole : List Char) → Option (List Char)
  | [], whole => some whole
  | _ :: _, [] => none
  | c :: start, d :: whole => if c = d then dropStart? start whole else none

/-- The parts between separators, one more than there are separators. -/
def split (separator : Char) : List Char → List (List Char)
  | [] => [[]]
  | c :: rest =>
    if c = separator then [] :: split separator rest
    else
      match split separator rest with
      | [] => [[c]]
      | part :: parts => (c :: part) :: parts

end Codegen.Text
