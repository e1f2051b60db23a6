import Randomizer.Binary32.Arithmetic

/-!
Random numbers. An attempt draws from a generator that starts from a seed. The generator of words
is a block cipher of twelve rounds run over a counter, with a key spread from the seed, and the
words of its blocks are used in order.
-/

namespace Randomizer

/-- A source of random numbers: what it starts from and what it draws. -/
structure Generator where
  State : Type
  ofSeed : UInt64 → State
  nextKey : State → UInt64 × State
  /-- A priority for a location. -/
  nextFraction : State → Binary32 × State

/-- One draw for each element of a list, in order. -/
def Generator.drawEach {α β τ : Type} (draw : τ → β × τ) : List α → τ → List (α × β) × τ
  | [], state => ([], state)
  | element :: rest, state =>
    let (drawn, state) := draw state
    let (others, state) := drawEach draw rest state
    ((element, drawn) :: others, state)

namespace Cipher

abbrev Block := Vector UInt32 16

def rotateLeft (word amount : UInt32) : UInt32 :=
  (word <<< amount) ||| (word >>> ((32 - amount) % 32))

def rotateRight (word amount : UInt32) : UInt32 :=
  (word >>> amount) ||| (word <<< ((32 - amount) % 32))

/-- One word is increased by a second, and a third takes the difference of both, rotated. -/
def mix (block : Block) (first second third : Fin 16) (amount : UInt32) : Block :=
  let summed := block.set first (block[first] + block[second])
  summed.set third (rotateLeft (summed[third] ^^^ summed[first]) amount)

def quarterRound (block : Block) (a b c d : Fin 16) : Block :=
  mix (mix (mix (mix block a b d 16) c d b 12) a b d 8) c d b 7

/-- The columns, then the diagonals. -/
def doubleRound (block : Block) : Block :=
  let block := quarterRound block 0 4 8 12
  let block := quarterRound block 1 5 9 13
  let block := quarterRound block 2 6 10 14
  let block := quarterRound block 3 7 11 15
  let block := quarterRound block 0 5 10 15
  let block := quarterRound block 1 6 11 12
  let block := quarterRound block 2 7 8 13
  quarterRound block 3 4 9 14

/-- The block before the rounds: four constants, the key and the counter. -/
def initialBlock (key : Vector UInt32 8) (counter : UInt64) : Block :=
  #v[0x61707865, 0x3320646E, 0x79622D32, 0x6B206574,
    key[0], key[1], key[2], key[3], key[4], key[5], key[6], key[7],
    counter.toUInt32, (counter >>> 32).toUInt32, 0, 0]

def block (key : Vector UInt32 8) (counter : UInt64) : Block :=
  let start := initialBlock key counter
  (Nat.repeat doubleRound 6 start).zipWith (· + ·) start

/-- The next state of the generator that spreads a seed over a key. -/
def spreadStep (state : UInt64) : UInt64 := state * 6364136223846793005 + 11634580027462260723

def spreadWord (state : UInt64) : UInt32 :=
  rotateRight (((state >>> 18) ^^^ state) >>> 27).toUInt32 (state >>> 59).toUInt32

/-- The key of a seed: one word for each of the states that follow it. -/
def keyOfSeed (seed : UInt64) : Vector UInt32 8 :=
  Vector.ofFn fun index => spreadWord (Nat.repeat spreadStep (index.val + 1) seed)

end Cipher

structure WordStream where
  key : Vector UInt32 8
  /-- The counter of the next block. -/
  counter : UInt64
  /-- The words of the last block that are not used yet. -/
  ready : List UInt32

namespace WordStream

def ofSeed (seed : UInt64) : WordStream := ⟨Cipher.keyOfSeed seed, 0, []⟩

def next (stream : WordStream) : UInt32 × WordStream :=
  match stream.ready with
  | word :: ready => (word, { stream with ready })
  | [] =>
    let words := (Cipher.block stream.key stream.counter).toList
    (words.headD 0, { stream with counter := stream.counter + 1, ready := words.tail })

/-- Two words as one number, the low one first. -/
def nextKey (stream : WordStream) : UInt64 × WordStream :=
  let (low, stream) := stream.next
  let (high, stream) := stream.next
  (high.toUInt64 <<< 32 ||| low.toUInt64, stream)

/-- A multiple of 2^-24 below one, from the upper bits of a word. -/
def nextFraction (stream : WordStream) : Binary32 × WordStream :=
  let (word, stream) := stream.next
  (.ofRatio false ((word >>> 8).toNat * Binary32.unit) (Nat.pow 2 24), stream)

end WordStream

/-- The generator of words. -/
def Generator.words : Generator :=
  ⟨WordStream, WordStream.ofSeed, WordStream.nextKey, WordStream.nextFraction⟩

end Randomizer
