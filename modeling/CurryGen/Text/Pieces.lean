/-!
# Pieces of a text

Cutting a text at characters, into lines, and at a known front or back.
-/

namespace CurryGen.Text

/-- The pieces between the characters that satisfy `p`, empty pieces included; never empty. -/
def pieces (p : Char → Bool) : List Char → List (List Char)
  | [] => [[]]
  | c :: cs =>
    if p c then [] :: pieces p cs
    else match pieces p cs with
      | piece :: rest => (c :: piece) :: rest
      | [] => [[c]]

theorem pieces_ne_nil (p : Char → Bool) (cs : List Char) : pieces p cs ≠ [] := by
  cases cs with
  | nil => simp [pieces]
  | cons c cs =>
    simp only [pieces]
    split
    · simp
    · split <;> simp

/-- The pieces between occurrences of `c`, as strings. -/
def splitAt (c : Char) (s : String) : List String :=
  (pieces (· == c) s.toList).map String.ofList

/-- The lines of a text: the pieces between line feeds, less an empty last one. A carriage return
before a line feed stays at the end of its line. -/
def lines (cs : List Char) : List (List Char) :=
  let all := pieces (· == '\n') cs
  if all.getLast? = some [] then all.dropLast else all

/-- What follows `front` in `s`, if `s` starts with it. -/
def after? (front s : String) : Option String :=
  if front.toList.isPrefixOf s.toList then some (String.ofList (s.toList.drop front.length)) else none

/-- What precedes `back` in `s`, if `s` ends with it. -/
def before? (back s : String) : Option String :=
  if back.toList.isSuffixOf s.toList then
    some (String.ofList (s.toList.take (s.length - back.length)))
  else none

/-- Whether `s` starts with `front`. -/
def startsWith (front s : String) : Bool := front.toList.isPrefixOf s.toList

end CurryGen.Text
