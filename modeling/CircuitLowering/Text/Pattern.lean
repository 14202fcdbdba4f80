/-!
# Patterns

A pattern describes whole texts, part by part. Some parts are captured. A text may fit a pattern in
several ways; what counts is the way in which the first captured part is the longest, then the
second, and so on.
-/

namespace CircuitLowering.Text

/-- The characters that fit a place of a pattern. -/
inductive Charset where
  | only (c : Char)
  | between (first last : Char)
  /-- All but a line break. -/
  | dot
deriving DecidableEq, Repr

def Charset.contains : Charset → Char → Bool
  | only c, c' => c' = c
  | between first last, c => first ≤ c && c ≤ last
  | dot, c => c ≠ '\n'

/-- A part of a pattern: one character, or characters that are captured, at least one. -/
inductive Pattern.Part where
  | one (cs : Charset)
  | capture (cs : Charset)
deriving DecidableEq, Repr

/-- The parts of a text, first part first. -/
abbrev Pattern := List Pattern.Part

namespace Pattern

/-- Takes as many characters as leave something that fits the rest of a pattern, at least one. -/
def captureMost? (cs : Charset) (rest? : List Char → Option (List (List Char))) :
    List Char → Option (List Char × List (List Char))
  | [] => none
  | c :: text =>
    if cs.contains c then
      match captureMost? cs rest? text with
      | some (taken, others) => some (c :: taken, others)
      | none => (rest? text).map ([c], ·)
    else none

/-- What is captured of a text that fits. -/
def captures? : Pattern → List Char → Option (List (List Char))
  | [], text => if text = [] then some [] else none
  | .one _ :: _, [] => none
  | .one cs :: rest, c :: text => if cs.contains c then captures? rest text else none
  | .capture cs :: rest, text =>
    (captureMost? cs (captures? rest) text).map fun (taken, others) => taken :: others

end Pattern

end CircuitLowering.Text
