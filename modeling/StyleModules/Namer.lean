import StyleModules.BuildMode
import StyleModules.Digest.Sha1
import StyleModules.Text.Base36

/-!
# Scoped class names

A class gets a name derived from the digest of its file and its local name.  The first segment is
one letter, so a name is never empty and never starts with a digit, and no escaping is needed.
-/

namespace StyleModules

/-- Gives class names for one build mode. -/
structure Namer where
  mode : BuildMode
deriving DecidableEq, Repr

namespace Namer

def identity (file selector : String) : String := file ++ selector

/-- The three segments of a name: a letter, at most four digits and at most six digits, cut from
the first 80 bits of the digest. -/
def segments (digest : Sha1.State) : List (List Char) :=
  [Base36.numeral (digest.window 0 8 % 25 + 10),
   (Base36.numeral (digest.window 8 32)).take 4,
   (Base36.numeral (digest.window 40 40)).take 6]

/-- The segments joined by hyphens. -/
def unique (digest : Sha1.State) : String :=
  String.ofList (List.intercalate ['-'] (segments digest))

/-- The scoped name of a class of a file.  In development the local name comes first. -/
def name (namer : Namer) (file selector : String) : String :=
  let generated := unique (Sha1.digest (identity file selector).toUTF8.toList)
  if namer.mode.isDevelopment then selector ++ "--" ++ generated else generated

end Namer

/-- How many hexadecimal digits of a digest name an output file. -/
def contentDigestLength : Nat := 12

def contentDigest (contents : String) : String :=
  String.ofList ((Sha1.digest contents.toUTF8.toList).hex.take contentDigestLength)

/-- The file name of a bundle, derived from its contents. -/
def hashedBundleName (contents : String) : String :=
  contentDigest contents ++ ".css"

end StyleModules
