/-!
# SHA-1

The digest of a byte string as five 32-bit words, after FIPS 180-4.  A digest is read in two ways:
as a number of 160 bits, from which bit windows are cut, and as forty hexadecimal digits.
-/

namespace StyleModules.Sha1

/-- The chaining state, and at the end the digest. -/
structure State where
  a : UInt32
  b : UInt32
  c : UInt32
  d : UInt32
  e : UInt32
deriving DecidableEq, Repr

def initial : State :=
  ⟨0x67452301, 0xEFCDAB89, 0x98BADCFE, 0x10325476, 0xC3D2E1F0⟩

def rotateLeft (x n : UInt32) : UInt32 :=
  (x <<< n) ||| (x >>> (32 - n))

/-- The number of message bits in eight bytes, most significant first. -/
def lengthBytes (size : Nat) : List UInt8 :=
  (List.range 8).map fun i ↦ UInt8.ofNat (size * 8 / Nat.pow 256 (7 - i))

/-- A closing one bit, the fewest zeros that complete a block, and the length. -/
def pad (message : List UInt8) : List UInt8 :=
  message ++ 0x80 :: List.replicate ((119 - message.length % 64) % 64) 0
    ++ lengthBytes message.length

/-- Big-endian words of four bytes. -/
def words : List UInt8 → List UInt32
  | w :: x :: y :: z :: rest =>
    ((w.toUInt32 <<< 24) ||| (x.toUInt32 <<< 16) ||| (y.toUInt32 <<< 8) ||| z.toUInt32)
      :: words rest
  | _ => []

/-- Extends a schedule, newest word first, by `count` words. -/
def extend : Nat → List UInt32 → List UInt32
  | 0, ws => ws
  | count + 1, ws =>
    extend count
      (rotateLeft (ws.getD 2 0 ^^^ ws.getD 7 0 ^^^ ws.getD 13 0 ^^^ ws.getD 15 0) 1 :: ws)

/-- The eighty words that a block of sixteen words stands for. -/
def schedule (block : List UInt32) : List UInt32 :=
  (extend 64 block.reverse).reverse

/-- The mixing function and the constant of a round. -/
def roundFunction (round : Nat) (s : State) : UInt32 × UInt32 :=
  if round < 20 then ((s.b &&& s.c) ||| ((~~~ s.b) &&& s.d), 0x5A827999)
  else if round < 40 then (s.b ^^^ s.c ^^^ s.d, 0x6ED9EBA1)
  else if round < 60 then ((s.b &&& s.c) ||| (s.b &&& s.d) ||| (s.c &&& s.d), 0x8F1BBCDC)
  else (s.b ^^^ s.c ^^^ s.d, 0xCA62C1D6)

def round (s : State) (word : UInt32 × Nat) : State :=
  let (mixed, constant) := roundFunction word.2 s
  ⟨rotateLeft s.a 5 + mixed + s.e + constant + word.1, s.a, rotateLeft s.b 30, s.c, s.d⟩

def compress (s : State) (block : List UInt32) : State :=
  let t := (schedule block).zipIdx.foldl round s
  ⟨s.a + t.a, s.b + t.b, s.c + t.c, s.d + t.d, s.e + t.e⟩

def blocks (ws : List UInt32) : List (List UInt32) :=
  (List.range (ws.length / 16)).map fun i ↦ (ws.drop (16 * i)).take 16

def digest (message : List UInt8) : State :=
  (blocks (words (pad message))).foldl compress initial

/-- The digest as a number of 160 bits. -/
def State.value (s : State) : Nat :=
  [s.a, s.b, s.c, s.d, s.e].foldl (fun n w ↦ n * Nat.pow 2 32 + w.toNat) 0

/-- The `count` bits after the first `start` bits, as a number. -/
def State.window (s : State) (start count : Nat) : Nat :=
  s.value / Nat.pow 2 (160 - start - count) % Nat.pow 2 count

def hexDigit (n : Nat) : Char :=
  if n < 10 then Char.ofNat ('0'.toNat + n) else Char.ofNat ('a'.toNat + (n - 10))

def State.hex (s : State) : List Char :=
  (List.range 40).map fun i ↦ hexDigit (s.window (4 * i) 4)

end StyleModules.Sha1
