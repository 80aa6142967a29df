import Codegen.Json.Reader

/-!
# Flaws of a JSON text

A text that is no JSON value has a first character that cannot stand where it stands, or ends too
early.  `flaw?` finds that place by running both machines of the reader side by side, and says what
was wanted there.
-/

namespace Codegen.Json

/-- What is wrong at a place of a text. -/
inductive Cause where
  | endInArray
  | endInObject
  | endInString
  | endInValue
  | noColon
  | noCommaInArray
  | noCommaInObject
  | noName
  | noValue
  | noWord
  | badEscape
  | badNumber
  | controlCharacter
  | trailingComma
  | trailingText
  deriving DecidableEq

/-- The wording of a cause. -/
def Cause.message : Cause → String
  | endInArray => "EOF while parsing a list"
  | endInObject => "EOF while parsing an object"
  | endInString => "EOF while parsing a string"
  | endInValue => "EOF while parsing a value"
  | noColon => "expected `:`"
  | noCommaInArray => "expected `,` or `]`"
  | noCommaInObject => "expected `,` or `\x7d`"
  | noName => "key must be a string"
  | noValue => "expected value"
  | noWord => "expected ident"
  | badEscape => "invalid escape"
  | badNumber => "invalid number"
  | controlCharacter => "control character (\\u0000-\\u001F) found while parsing a string"
  | trailingComma => "trailing comma"
  | trailingText => "trailing characters"

/-- A place between two characters of a text. -/
structure Place where
  line : Nat := 1
  /-- How many bytes of the line lie in front. -/
  column : Nat := 0
  deriving DecidableEq

/-- The place behind a character. -/
def Place.after (place : Place) (c : Char) : Place :=
  if c = '\n' then ⟨place.line + 1, 0⟩ else ⟨place.line, place.column + c.utf8Size⟩

/-- What is wrong with a text, and where: up to and with the byte that is wrong. -/
structure Flaw where
  cause : Cause
  place : Place
  deriving DecidableEq

/-- A flaw on one line. -/
def Flaw.text (flaw : Flaw) : String :=
  flaw.cause.message ++ " at line " ++ Text.decimal flaw.place.line ++ " column " ++
    Text.decimal flaw.place.column

/-- Several tokens, one by one. -/
def takeEach : Reading → List Token → Option Reading
  | reading, [] => some reading
  | reading, token :: rest => do
    let next ← take reading token
    takeEach next rest

/-- Whether a value may come next. -/
def Reading.wantsValue : Reading → Bool
  | .value _ => true
  | .firstItem _ => true
  | _ => false

/-- Whether a name may come next. -/
def Reading.wantsName : Reading → Bool
  | .firstKey _ => true
  | .key _ => true
  | _ => false

/-- Whether a token that takes several characters may start with the character. -/
def Reading.admits (reading : Reading) (c : Char) : Bool :=
  if c = '"' then reading.wantsValue || reading.wantsName
  else if c.isDigit || c = '-' || c.isLower then reading.wantsValue
  else true

/-- What is wrong with a character between tokens. -/
def Reading.cause (reading : Reading) (c : Char) : Cause :=
  match reading with
  | .value (.arr _ :: _) => if c = ']' then .trailingComma else .noValue
  | .value _ => .noValue
  | .firstItem _ => .noValue
  | .firstKey _ => .noName
  | .key _ => if c = '\x7d' then .trailingComma else .noName
  | .colon _ => .noColon
  | .more (.arr _ :: _) => .noCommaInArray
  | .more _ => .noCommaInObject
  | .done _ => .trailingText

/-- What is wrong with a character that cannot come next. -/
def refusal (mode : Mode) (reading : Reading) (c : Char) : Cause :=
  match mode with
  | .blank => reading.cause c
  | .string _ => .controlCharacter
  | .escape _ => .badEscape
  | .unit .. => .badEscape
  | .number read =>
    match number? read.reverse with
    | none => .badNumber
    | some value => ((take reading (.scalar value)).getD reading).cause c
  | .word read =>
    match word? read.reverse with
    | none => .noWord
    | some value => ((take reading (.scalar value)).getD reading).cause c

/-- What is wrong with the end of a text after a value that is not over. -/
def Reading.endCause : Reading → Cause
  | .firstItem _ => .endInArray
  | .more (.arr _ :: _) => .endInArray
  | .firstKey _ => .endInObject
  | .colon _ => .endInObject
  | .more _ => .endInObject
  | _ => .endInValue

/-- What is wrong with the end of a text, if something is. -/
def endCause? (mode : Mode) (reading : Reading) : Option Cause :=
  match mode with
  | .string _ => some .endInString
  | .escape _ => some .endInString
  | .unit .. => some .endInString
  | _ =>
    match (finish mode).bind (takeEach reading) with
    | some (.done _) => none
    | some reading => some reading.endCause
    | none => some .endInValue

/-- One character for both machines. -/
def advance (mode : Mode) (reading : Reading) (c : Char) : Option (Mode × Reading) :=
  match mode, reading.admits c with
  | .blank, false => none
  | _, _ => do
    let (next, tokens) ← step mode c
    some (next, ← takeEach reading tokens)

/-- The first flaw of the rest of a text. -/
def flawFrom? (place : Place) : Mode → Reading → List Char → Option Flaw
  | mode, reading, [] => (endCause? mode reading).map fun cause => ⟨cause, place⟩
  | mode, reading, c :: rest =>
    match advance mode reading c with
    | some (next, reading) => flawFrom? (place.after c) next reading rest
    | none => some ⟨refusal mode reading c, ⟨place.line, place.column + 1⟩⟩

/-- The first flaw of a text. -/
def flaw? (text : String) : Option Flaw := flawFrom? {} .blank (.value []) text.toList

/-! ## Texts without a flaw -/

theorem takeAll_append {reading next : Reading} {tokens : List Token}
    (h : takeEach reading tokens = some next) (rest : List Token) :
    takeAll reading (tokens ++ rest) = takeAll next rest := by
  induction tokens generalizing reading with
  | nil =>
    cases h
    rfl
  | cons token tokens ih =>
    obtain ⟨between, htake, hrest⟩ := Option.bind_eq_some_iff.1 h
    have hstep : takeAll reading (token :: (tokens ++ rest)) =
        (take reading token).bind fun between => takeAll between (tokens ++ rest) := by
      cases reading <;> rfl
    rw [List.cons_append, hstep, htake, Option.bind_some, ih hrest]

theorem takeEach_of_endCause?_eq_none {mode : Mode} {reading : Reading}
    (h : endCause? mode reading = none) :
    ∃ tokens value, finish mode = some tokens ∧ takeEach reading tokens = some (.done value) := by
  have key : ∀ result, (finish mode).bind (takeEach reading) = some result →
      ∃ tokens, finish mode = some tokens ∧ takeEach reading tokens = some result :=
    fun _ => Option.bind_eq_some_iff.1
  unfold endCause? at h
  split at h
  · exact absurd h (by simp)
  · exact absurd h (by simp)
  · exact absurd h (by simp)
  · split at h
    · rename_i value hdone
      obtain ⟨tokens, hfinish, htake⟩ := key _ hdone
      exact ⟨tokens, value, hfinish, htake⟩
    · exact absurd h (by simp)
    · exact absurd h (by simp)

theorem step_of_advance {mode next : Mode} {reading result : Reading} {c : Char}
    (h : advance mode reading c = some (next, result)) :
    ∃ tokens, step mode c = some (next, tokens) ∧ takeEach reading tokens = some result := by
  unfold advance at h
  split at h
  · exact absurd h (by simp)
  · obtain ⟨⟨between, tokens⟩, hstep, hrest⟩ := Option.bind_eq_some_iff.1 h
    obtain ⟨taken, htake, heq⟩ := Option.bind_eq_some_iff.1 hrest
    cases heq
    exact ⟨tokens, hstep, htake⟩

theorem takeAll_of_flawFrom?_eq_none {place : Place} {mode : Mode} {reading : Reading}
    {text : List Char} (h : flawFrom? place mode reading text = none) :
    ∃ tokens value, tokensFrom mode text = some tokens ∧ takeAll reading tokens = some value := by
  induction text generalizing place mode reading with
  | nil =>
    obtain ⟨tokens, value, hfinish, htake⟩ :=
      takeEach_of_endCause?_eq_none (Option.map_eq_none_iff.1 h)
    refine ⟨tokens, value, hfinish, ?_⟩
    have := takeAll_append htake []
    rwa [List.append_nil] at this
  | cons c rest ih =>
    unfold flawFrom? at h
    split at h
    · rename_i next result hadvance
      obtain ⟨first, hstep, htake⟩ := step_of_advance hadvance
      obtain ⟨tokens, value, htokens, hvalue⟩ := ih h
      refine ⟨first ++ tokens, value, ?_, ?_⟩
      · simp [tokensFrom, hstep, htokens]
      · rw [takeAll_append htake, hvalue]
    · exact absurd h (by simp)

/-- A text without a flaw can be read. -/
theorem isSome_read?_of_flaw?_eq_none {text : String} (h : flaw? text = none) :
    (read? text).isSome := by
  obtain ⟨tokens, value, htokens, hvalue⟩ := takeAll_of_flawFrom?_eq_none h
  simp [read?, tokens?, htokens, hvalue]

end Codegen.Json
