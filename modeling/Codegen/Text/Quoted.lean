import Codegen.Text.Basic

/-!
# Quoted names

The textual form accepts a name with `<`, `:` or `>` only between double quotes.  The stars of a
pointer type stay behind the closing quote, a leading `%` or `@` stays in front of the opening
one, and an array type quotes its element.
-/

namespace Codegen.Text

/-- Whether a bare name cannot hold the character. -/
def needsQuotes (c : Char) : Bool :=
  c = '<' || c = ':' || c = '>'

/-- The texts around the first ` x `, the sign between the length and the element of an array. -/
def splitTimes : List Char → Option (List Char × List Char)
  | ' ' :: 'x' :: ' ' :: rest => some ([], rest)
  | [] => none
  | c :: rest => (splitTimes rest).map fun (count, element) => (c :: count, element)

/-- What stands between an opening and a closing square bracket. -/
def bracketed? : List Char → Option (List Char)
  | '[' :: rest => dropEnding? [']'] rest
  | _ => none

/-- Length and element of an array type, `[count x element]`. -/
def arrayParts? (name : List Char) : Option (List Char × List Char) :=
  (bracketed? name).bind splitTimes

theorem length_of_splitTimes {text count element : List Char}
    (h : splitTimes text = some (count, element)) :
    text.length = count.length + 3 + element.length := by
  induction text using splitTimes.induct generalizing count with
  | case1 rest =>
    simp only [splitTimes, Option.some.injEq, Prod.mk.injEq] at h
    obtain ⟨rfl, rfl⟩ := h
    simp only [List.length_cons, List.length_nil]
    omega
  | case2 => simp [splitTimes] at h
  | case3 c rest hne ih =>
    rw [splitTimes] at h
    · obtain ⟨⟨count', element'⟩, hrest, heq⟩ := Option.map_eq_some_iff.1 h
      simp only [Prod.mk.injEq] at heq
      obtain ⟨rfl, rfl⟩ := heq
      have := ih hrest
      simp only [List.length_cons]
      omega
    · exact hne

theorem length_of_bracketed? {name inner : List Char} (h : bracketed? name = some inner) :
    inner.length < name.length := by
  unfold bracketed? at h
  split at h
  · unfold dropEnding? at h
    split at h
    · simp only [Option.some.injEq] at h
      subst h
      simp only [List.length_take, List.length_cons]
      omega
    · simp at h
  · simp at h

theorem length_of_arrayParts? {name count element : List Char}
    (h : arrayParts? name = some (count, element)) : element.length < name.length := by
  obtain ⟨inner, hinner, hsplit⟩ := Option.bind_eq_some_iff.1 h
  have := length_of_bracketed? hinner
  have := length_of_splitTimes hsplit
  omega

/-- A name without its trailing stars. -/
def starless (name : List Char) : List Char :=
  (name.reverse.dropWhile (· = '*')).reverse

/-- The trailing stars of a name. -/
def trailingStars (name : List Char) : List Char :=
  (name.reverse.takeWhile (· = '*')).reverse

/-- Quotes around a name that is no array: behind its sigil and before its trailing stars. -/
def quoteBase (name : List Char) : List Char :=
  match starless name with
  | '%' :: base => '%' :: '"' :: base ++ '"' :: trailingStars name
  | '@' :: base => '@' :: '"' :: base ++ '"' :: trailingStars name
  | base => '"' :: base ++ '"' :: trailingStars name

/-- The printed form of a name, character by character. -/
def quoteChars (name : List Char) : List Char :=
  if name.any needsQuotes then
    match _found : arrayParts? name with
    | some (count, element) =>
      '[' :: count ++ [' ', 'x', ' '] ++ quoteChars element ++ [']']
    | none => quoteBase name
  else
    name
termination_by name.length
decreasing_by exact length_of_arrayParts? _found

/-- The printed form of a type or symbol name. -/
def quoted (name : String) : String :=
  String.ofList (quoteChars name.toList)

end Codegen.Text
