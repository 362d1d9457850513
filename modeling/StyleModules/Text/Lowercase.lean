import StyleModules.Text.LetterCase

/-!
# Lower case of a text

Every character is lowered on its own, with two exceptions: a dotted capital I becomes two
characters, and a capital sigma has its own form at the end of a word.
-/

namespace StyleModules.Text

/-- The next character that is not passed over has a case. -/
def nextIsCased (cs : List Char) : Bool :=
  match cs.dropWhile isCaseIgnorable with
  | [] => false
  | c :: _ => isCased c

/-- Lowers the characters after `before`, which is kept nearest first. -/
def lowerFrom (before : List Char) : List Char → List Char
  | [] => []
  | c :: cs =>
    let lowered :=
      if c = 'Σ' then (if nextIsCased before && !nextIsCased cs then ['ς'] else ['σ'])
      else if c = 'İ' then ['i', '\u0307']
      else [lowerChar c]
    lowered ++ lowerFrom (c :: before) cs

def lowercase (s : String) : String :=
  String.ofList (lowerFrom [] s.toList)

end StyleModules.Text
