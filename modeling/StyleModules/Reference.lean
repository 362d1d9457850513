/-!
# References

What a stylesheet writes to name another file.  A reference is either external, and then none of
our business, or relative to the file it is written in, or it names a namespace in front of a
double colon.
-/

namespace StyleModules.Reference

/-- A letter of a scheme.  Besides the plain letters these are the two characters whose other case
is one of them: the long s and the Kelvin sign. -/
def isSchemeLetter (c : Char) : Bool :=
  ('a' ≤ c && c ≤ 'z') || ('A' ≤ c && c ≤ 'Z') || c == '\u017f' || c == '\u212a'

/-- The text starts with letters, a colon and two slashes. -/
def hasScheme (reference : List Char) : Bool :=
  !(reference.takeWhile isSchemeLetter).isEmpty
    && [':', '/', '/'].isPrefixOf (reference.dropWhile isSchemeLetter)

/-- The reference must be left as it is: an absolute path, inline data, a fragment, or anything
with a scheme. -/
def isExternal (reference : String) : Bool :=
  reference.startsWith "/" || reference.startsWith "data:" || reference.startsWith "#"
    || hasScheme reference.toList

def splitAtMark : List Char → Option (List Char × List Char)
  | ':' :: ':' :: rest => some ([], rest)
  | c :: cs => (splitAtMark cs).map (fun parts ↦ (c :: parts.1, parts.2))
  | [] => none

/-- The namespace of a reference and the path inside it, if there is one. -/
def splitNamespace? (reference : String) : Option (String × String) :=
  (splitAtMark reference.toList).map (fun parts ↦ (String.ofList parts.1, String.ofList parts.2))

def isNamespaced (reference : String) : Bool := (splitNamespace? reference).isSome

end StyleModules.Reference
