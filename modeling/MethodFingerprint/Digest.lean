import MethodFingerprint.Text.Hex

/-!
# SHA-256 digests

A run is kept with the digest of the corpus file it was computed on, so that it can be told later
whether it still applies. A message is padded to whole blocks of sixteen words; every block stirs
the state in sixty-four rounds, each with a constant and a word of the block's schedule. The
schedule is kept as a window of the next sixteen words: a round takes the first and appends the one
that the recurrence of the schedule gives.
-/

namespace MethodFingerprint.Digest

/-! ### Words -/

/-- Moves the bits of a word to the right; those that fall out come in at the left. -/
def rotate (n x : UInt32) : UInt32 := (x >>> n) ||| (x <<< (32 - n))

/-- The words that bytes spell, most significant byte first. -/
def wordsOfBytes : List UInt8 → List UInt32
  | a :: b :: c :: d :: rest =>
    ((a.toUInt32 <<< 24) ||| (b.toUInt32 <<< 16) ||| (c.toUInt32 <<< 8) ||| d.toUInt32) ::
      wordsOfBytes rest
  | _ => []

/-- The bytes of a number below `256 ^ n`, most significant byte first. -/
def bytesOfNat : (n : Nat) → Nat → List UInt8
  | 0, _ => []
  | n + 1, x => .ofNat (x / Nat.pow 256 n) :: bytesOfNat n (x % Nat.pow 256 n)

/-! ### Constants

The first 32 bits of the fractional parts of the cube roots of the first sixty-four primes, and of
the square roots of the first eight.
-/

/-- The constants of the rounds. -/
def roundConstants : List UInt32 :=
  [0x428a2f98, 0x71374491, 0xb5c0fbcf, 0xe9b5dba5, 0x3956c25b, 0x59f111f1, 0x923f82a4, 0xab1c5ed5,
    0xd807aa98, 0x12835b01, 0x243185be, 0x550c7dc3, 0x72be5d74, 0x80deb1fe, 0x9bdc06a7, 0xc19bf174,
    0xe49b69c1, 0xefbe4786, 0x0fc19dc6, 0x240ca1cc, 0x2de92c6f, 0x4a7484aa, 0x5cb0a9dc, 0x76f988da,
    0x983e5152, 0xa831c66d, 0xb00327c8, 0xbf597fc7, 0xc6e00bf3, 0xd5a79147, 0x06ca6351, 0x14292967,
    0x27b70a85, 0x2e1b2138, 0x4d2c6dfc, 0x53380d13, 0x650a7354, 0x766a0abb, 0x81c2c92e, 0x92722c85,
    0xa2bfe8a1, 0xa81a664b, 0xc24b8b70, 0xc76c51a3, 0xd192e819, 0xd6990624, 0xf40e3585, 0x106aa070,
    0x19a4c116, 0x1e376c08, 0x2748774c, 0x34b0bcb5, 0x391c0cb3, 0x4ed8aa4a, 0x5b9cca4f, 0x682e6ff3,
    0x748f82ee, 0x78a5636f, 0x84c87814, 0x8cc70208, 0x90befffa, 0xa4506ceb, 0xbef9a3f7, 0xc67178f2]

/-- The eight words that are stirred. -/
structure State where
  a : UInt32 := 0x6a09e667
  b : UInt32 := 0xbb67ae85
  c : UInt32 := 0x3c6ef372
  d : UInt32 := 0xa54ff53a
  e : UInt32 := 0x510e527f
  f : UInt32 := 0x9b05688c
  g : UInt32 := 0x1f83d9ab
  h : UInt32 := 0x5be0cd19

namespace State

/-- Adds two states word by word. -/
def add (s t : State) : State :=
  ⟨s.a + t.a, s.b + t.b, s.c + t.c, s.d + t.d, s.e + t.e, s.f + t.f, s.g + t.g, s.h + t.h⟩

/-- The words of a state. -/
def toList (s : State) : List UInt32 := [s.a, s.b, s.c, s.d, s.e, s.f, s.g, s.h]

/-- One round; `x` is the sum of its constant and its word. -/
def round (s : State) (x : UInt32) : State :=
  let choice := (s.e &&& s.f) ^^^ (~~~s.e &&& s.g)
  let majority := (s.a &&& s.b) ^^^ (s.a &&& s.c) ^^^ (s.b &&& s.c)
  let t := s.h + (rotate 6 s.e ^^^ rotate 11 s.e ^^^ rotate 25 s.e) + choice + x
  let u := (rotate 2 s.a ^^^ rotate 13 s.a ^^^ rotate 22 s.a) + majority
  ⟨t + u, s.a, s.b, s.c, s.d + t, s.e, s.f, s.g⟩

end State

/-! ### Blocks -/

/-- The word sixteen places behind `w`, where `window` holds the words between them. -/
def nextWord (w : UInt32) (window : List UInt32) : UInt32 :=
  let x := window.getD 0 0
  let y := window.getD 13 0
  w + (rotate 7 x ^^^ rotate 18 x ^^^ (x >>> 3)) + window.getD 8 0 +
    (rotate 17 y ^^^ rotate 19 y ^^^ (y >>> 10))

/-- The rounds with the given constants. -/
def rounds : List UInt32 → (window : List UInt32) → State → State
  | k :: ks, w :: window, s => rounds ks (window ++ [nextWord w window]) (s.round (k + w))
  | _, _, s => s

/-- Stirs a state with a block. -/
def compress (s : State) (block : List UInt32) : State := s.add (rounds roundConstants block s)

/-- Stirs a state with all blocks of a message. -/
def absorb (s : State) (words : List UInt32) : State :=
  match _h : words.drop 15 with
  | [] => s
  | _ :: rest => absorb (compress s (words.take 16)) rest
termination_by words.length
decreasing_by
  have := congrArg List.length _h
  simp only [List.length_drop, List.length_cons] at this
  omega

/-- A message with what fills it up to whole blocks: a one bit, zeros, and the number of its bits.
-/
def padded (message : List UInt8) : List UInt8 :=
  let length := message.length
  message ++ 0x80 :: List.replicate ((119 - length % 64) % 64) 0 ++ bytesOfNat 8 (8 * length)

/-- **The digest of a message**, thirty-two bytes. -/
def sha256 (message : List UInt8) : List UInt8 :=
  (absorb {} (wordsOfBytes (padded message))).toList.flatMap fun w ↦ bytesOfNat 4 w.toNat

/-- The digest in hexadecimal digits. -/
def sha256Hex (message : List UInt8) : String := String.ofList (Text.hexOfBytes (sha256 message))

/-- What is reported when the file to be digested cannot be opened. -/
def unreadableMessage (path : String) : String :=
  "Failed to open corpus for hashing: " ++ path

end MethodFingerprint.Digest
