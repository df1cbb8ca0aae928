/-!
Random numbers. Words of 64 bits come from a list or from a ChaCha stream with twelve rounds;
`uniform` draws a number from a range so that each is equally likely.
-/
namespace ManifestUpkeep.Random

/-- The sixteen words of a ChaCha state. -/
abbrev State := Vector UInt32 16

def rotateLeft (x n : UInt32) : UInt32 := (x <<< n) ||| (x >>> (32 - n))

def quarterRound (s : State) (a b c d : Fin 16) : State :=
  let s := s.set a (s[a] + s[b])
  let s := s.set d (rotateLeft (s[d] ^^^ s[a]) 16)
  let s := s.set c (s[c] + s[d])
  let s := s.set b (rotateLeft (s[b] ^^^ s[c]) 12)
  let s := s.set a (s[a] + s[b])
  let s := s.set d (rotateLeft (s[d] ^^^ s[a]) 8)
  let s := s.set c (s[c] + s[d])
  s.set b (rotateLeft (s[b] ^^^ s[c]) 7)

/-- Two rounds: one along the columns and one along the diagonals. -/
def doubleRound (s : State) : State :=
  let s := quarterRound s 0 4 8 12
  let s := quarterRound s 1 5 9 13
  let s := quarterRound s 2 6 10 14
  let s := quarterRound s 3 7 11 15
  let s := quarterRound s 0 5 10 15
  let s := quarterRound s 1 6 11 12
  let s := quarterRound s 2 7 8 13
  quarterRound s 3 4 9 14

/-- The state before the rounds: four constants, the key, the number of the block in two words
and the number of the stream, which is zero. -/
def initialState (key : Vector UInt32 8) (block : UInt64) : State :=
  #v[0x61707865, 0x3320646e, 0x79622d32, 0x6b206574,
    key[0], key[1], key[2], key[3], key[4], key[5], key[6], key[7],
    block.toUInt32, (block >>> 32).toUInt32, 0, 0]

/-- One block of the stream. -/
def block (key : Vector UInt32 8) (number : UInt64) : State :=
  let start := initialState key number
  (Nat.repeat doubleRound 6 start).zipWith (· + ·) start

/-- Joins each two words of 32 bits, the low one first. -/
def joinWords : List UInt32 → List UInt64
  | low :: high :: rest => (low.toUInt64 ||| high.toUInt64 <<< 32) :: joinWords rest
  | _ => []

/-- Where random words come from: a list that is followed by zeros, or a stream of blocks of which
some words are still at hand. -/
inductive Source where
  | words (list : List UInt64)
  | stream (key : Vector UInt32 8) (next : UInt64) (ready : List UInt64)

namespace Source

/-- The next word and the source after it. -/
def next : Source → UInt64 × Source
  | words [] => (0, words [])
  | words (w :: rest) => (w, words rest)
  | stream key n (w :: rest) => (w, stream key n rest)
  | stream key n [] =>
    match joinWords (block key n).toList with
    | w :: rest => (w, stream key (n + 1) rest)
    | [] => (0, stream key (n + 1) [])

/-- How many words may be refused in a row. A list is used up before; a stream offers a good word
at every other try at least. -/
def patience : Source → Nat
  | words list => list.length
  | stream .. => 1024

end Source

/-- One step of the generator that spreads a seed over a key. -/
def spread (s : UInt64) : UInt64 × UInt32 :=
  let s := s * 6364136223846793005 + 11634580027462260723
  let mixed := (((s >>> 18) ^^^ s) >>> 27).toUInt32
  let turn := (s >>> 59).toUInt32
  (s, (mixed >>> turn) ||| (mixed <<< ((32 - turn) % 32)))

/-- The given number of words from a seed. -/
def spreadWords : Nat → UInt64 → List UInt32
  | 0, _ => []
  | n + 1, s =>
    let (s, word) := spread s
    word :: spreadWords n s

/-- The stream that belongs to a seed. -/
def ofSeed (seed : UInt64) : Source :=
  let ws := spreadWords 8 seed
  .stream (Vector.ofFn fun i => ws.getD i.val 0) 0 []

/-- The number of different words. -/
def wordCount : Nat := 1 <<< 64

/-- Refuses words until the low half of the product with the range falls into the zone; the
high half of it is the number. -/
def drawBelow (range zone : Nat) : (tries : Nat) → Source → Nat × Source
  | 0, s => (0, s)
  | tries + 1, s =>
    let (w, s) := s.next
    let product := w.toNat * range
    if product % wordCount ≤ zone then (product / wordCount, s)
    else drawBelow range zone tries s

/-- The greatest multiple of the range by a power of two within 64 bits, less one. -/
def zoneOf (range : Nat) : Nat := range <<< (63 - range.log2) - 1

/-- Draws a number between two bounds, both included. -/
def uniform (low high : Nat) (s : Source) : Nat × Source :=
  let range := high - low + 1
  let (n, s) := drawBelow range (zoneOf range) (s.patience + 1) s
  (low + n, s)

end ManifestUpkeep.Random
