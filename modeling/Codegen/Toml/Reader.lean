import Codegen.Toml.Scalar
import Codegen.Toml.Token

/-!
# Reading TOML

A machine takes the tokens one by one.  It keeps the document read so far, the header that the next
line belongs to, and the arrays and tables that are still open in the value of a line.
-/

namespace Codegen.Toml

/-- What a value belongs to: the line it stands on, an open array, or an open table between
braces. -/
inductive Frame where
  | line (key : Key)
  /-- The items so far, the last one first. -/
  | array (items : List Toml)
  | inline (entries : Entries) (key : Key)

/-- What a key is for. -/
inductive KeyUse where
  | header
  /-- A header in double brackets. -/
  | element
  /-- A value on a line of its own. -/
  | line
  /-- A value of the innermost table between braces. -/
  | inline (entries : Entries) (frames : List Frame)

/-- A document read so far. -/
structure Document where
  root : Entries := []
  /-- The table that the next line belongs to. -/
  here : List String := []

/-- What may come next. -/
inductive Reading where
  /-- The start of a line. -/
  | start
  /-- Behind the bracket that starts a line. -/
  | bracket
  /-- A part of a key; the parts so far, the last one first. -/
  | key (use : KeyUse) (before : List String)
  /-- Behind a part of a key. -/
  | part (use : KeyUse) (before : List String) (last : String)
  /-- The second bracket that ends a header. -/
  | close (key : Key)
  | value (frames : List Frame)
  /-- A value or the end of the innermost array. -/
  | item (frames : List Frame)
  /-- A key or the end of the innermost table. -/
  | firstKey (frames : List Frame)
  /-- Inside a bare value; the characters so far. -/
  | bare (frames : List Frame) (text : List Char)
  /-- Behind a date and a space. -/
  | afterDay (frames : List Frame) (text : List Char)
  /-- A comma or the end of the innermost array or table. -/
  | more (frames : List Frame)
  /-- The end of a line. -/
  | lineEnd

/-- The machine between two tokens. -/
structure Machine where
  document : Document := {}
  reading : Reading := .start

/-- How many arrays and tables may be open at once, and how many parts a key may have. -/
def maxDepth : Nat := 79

/-- A value that belongs to the current line. -/
def Document.add (document : Document) (key : Key) (value : Toml) : Option Document :=
  (grow false (fun _ entries => addValue key value entries) document.here .header
    document.root).map fun root => { document with root }

/-- The document behind a header. -/
def Document.enter (document : Document) (opening : Key → Entries → Option Entries) (key : Key) :
    Option Document :=
  (opening key document.root).map fun root => { root, here := key.path ++ [key.last] }

/-- A complete value, put where it belongs. -/
def place (document : Document) (value : Toml) : List Frame → Option Machine
  | .line key :: _ => (document.add key value).map fun document => ⟨document, .lineEnd⟩
  | .array items :: rest => some ⟨document, .more (.array (value :: items) :: rest)⟩
  | .inline entries key :: rest => (addValue key value entries).map fun entries =>
      ⟨document, .more (.inline entries key :: rest)⟩
  | [] => none

/-- A complete key, and the token behind it. -/
def closeKey (document : Document) (use : KeyUse) (key : Key) (token : Token) : Option Machine :=
  if maxDepth ≤ key.path.length then none
  else
    match use, token with
    | .header, .closeBracket =>
      (document.enter openTable key).map fun document => ⟨document, .lineEnd⟩
    | .element, .closeBracket => some ⟨document, .close key⟩
    | .line, .equals => some ⟨document, .value [.line key]⟩
    | .inline entries frames, .equals => some ⟨document, .value (.inline entries key :: frames)⟩
    | _, _ => none

/-- The name that a token is as a part of a key. -/
def keyPart? : Token → Option String
  | .bare text =>
    if text.all fun c => c.isAlphanum || c = '_' || c = '-' then some (String.ofList text)
    else none
  | .string text false => some text
  | _ => none

/-- A token where a part of a key is expected. -/
def takeKey (document : Document) (use : KeyUse) (before : List String) (token : Token) :
    Option Machine :=
  match token with
  | .blank _ => some ⟨document, .key use before⟩
  | token => (keyPart? token).map fun name => ⟨document, .part use before name⟩

/-- Whether one more array or table may be opened. -/
def mayOpen (frames : List Frame) : Bool := frames.length ≤ maxDepth

/-- A token where a value is expected. -/
def takeValue (document : Document) (frames : List Frame) : Token → Option Machine
  | .openBracket => if mayOpen frames then some ⟨document, .item (.array [] :: frames)⟩ else none
  | .openBrace =>
    if mayOpen frames then some ⟨document, .firstKey (.inline [] ⟨[], ""⟩ :: frames)⟩ else none
  | .string text _ => place document (.string text) frames
  | .bare text => some ⟨document, .bare frames text⟩
  | .blank _ => some ⟨document, .value frames⟩
  | .newline =>
    match frames with
    | .array _ :: _ => some ⟨document, .value frames⟩
    | _ => none
  | _ => none

/-- A token where only a comma or an end may come. -/
def takeMore (document : Document) : List Frame → Token → Option Machine
  | frames, .blank _ => some ⟨document, .more frames⟩
  | .array items :: rest, .newline => some ⟨document, .more (.array items :: rest)⟩
  | .array items :: rest, .comma => some ⟨document, .item (.array items :: rest)⟩
  | .array items :: rest, .closeBracket => place document (.array items.reverse) rest
  | .inline entries _ :: rest, .comma => some ⟨document, .key (.inline entries rest) []⟩
  | .inline entries _ :: rest, .closeBrace => place document (.table .inline entries) rest
  | _, _ => none

/-- A token where only the end of the line may come. -/
def takeLineEnd (document : Document) : Token → Option Machine
  | .blank _ => some ⟨document, .lineEnd⟩
  | .newline => some ⟨document, .start⟩
  | _ => none

/-- A token behind a complete value. -/
def takeAfter (machine : Machine) (token : Token) : Option Machine :=
  match machine.reading with
  | .more frames => takeMore machine.document frames token
  | .lineEnd => takeLineEnd machine.document token
  | _ => none

/-- The end of a bare value. -/
def closeBare (document : Document) (frames : List Frame) (text : List Char) : Option Machine := do
  place document (← scalar? text) frames

/-- Whether a text is a date without a time. -/
def isDay (text : List Char) : Bool := afterDate? text = some []

/-- One token. -/
def take (machine : Machine) (token : Token) : Option Machine :=
  let document := machine.document
  match machine.reading, token with
  | .start, .blank _ => some machine
  | .start, .newline => some machine
  | .start, .openBracket => some ⟨document, .bracket⟩
  | .start, token => takeKey document .line [] token
  | .bracket, .openBracket => some ⟨document, .key .element []⟩
  | .bracket, token => takeKey document .header [] token
  | .key use before, token => takeKey document use before token
  | .part use before last, .blank _ => some ⟨document, .part use before last⟩
  | .part use before last, .dot => some ⟨document, .key use (last :: before)⟩
  | .part use before last, token => closeKey document use ⟨before.reverse, last⟩ token
  | .close key, .closeBracket =>
    (document.enter openElement key).map fun document => ⟨document, .lineEnd⟩
  | .close _, _ => none
  | .value frames, token => takeValue document frames token
  | .item (.array items :: rest), .closeBracket => place document (.array items.reverse) rest
  | .item frames, .blank _ => some ⟨document, .item frames⟩
  | .item frames, .newline => some ⟨document, .item frames⟩
  | .item frames, token => takeValue document frames token
  | .firstKey (.inline entries _ :: rest), .closeBrace =>
    place document (.table .inline entries) rest
  | .firstKey frames, .blank _ => some ⟨document, .firstKey frames⟩
  | .firstKey (.inline entries _ :: rest), token => takeKey document (.inline entries rest) [] token
  | .firstKey _, _ => none
  | .bare frames text, .bare more => some ⟨document, .bare frames (text ++ more)⟩
  | .bare frames text, .dot => some ⟨document, .bare frames (text ++ ['.'])⟩
  | .bare frames text, token =>
    match token with
    | .blank ' ' =>
      if isDay text then some ⟨document, .afterDay frames text⟩
      else (closeBare document frames text).bind (takeAfter · token)
    | token => (closeBare document frames text).bind (takeAfter · token)
  | .afterDay frames text, .bare more => some ⟨document, .bare frames (text ++ ' ' :: more)⟩
  | .afterDay frames text, token => (closeBare document frames text).bind (takeAfter · token)
  | .more frames, token => takeMore document frames token
  | .lineEnd, token => takeLineEnd document token

/-- The document, when the tokens end. -/
def Machine.finish (machine : Machine) : Option Entries :=
  match machine.reading with
  | .start => some machine.document.root
  | .lineEnd => some machine.document.root
  | .bare frames text => atEnd frames text
  | .afterDay frames text => atEnd frames text
  | _ => none
where
  atEnd (frames : List Frame) (text : List Char) : Option Entries := do
    let machine ← closeBare machine.document frames text
    match machine.reading with
    | .lineEnd => some machine.document.root
    | _ => none

/-- All tokens of a document. -/
def takeAll : Machine → List Token → Option Entries
  | machine, [] => machine.finish
  | machine, token :: rest => do
    let next ← take machine token
    takeAll next rest

/-- The entries of the outermost table of a text. -/
def read? (text : String) : Option Entries := do
  let tokens ← tokens? text.toList
  takeAll {} tokens

end Codegen.Toml
