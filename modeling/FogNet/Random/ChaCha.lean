/-!
# A seeded stream of random words

The words are those of the ChaCha stream with eight rounds, a zero nonce and a block counter from
zero. A generator is its key and the number of words taken so far, so it is an ordinary value:
taking a word gives the word and the next generator.
-/

namespace FogNet.Random

/-- The sixteen words the rounds work on. -/
abbrev Block := Vector UInt32 16

/-- Rotate the bits of a word to the left. -/
def rotateLeft (x n : UInt32) : UInt32 := (x <<< n) ||| (x >>> (32 - n))

/-- Mix four words of a block. -/
def quarterRound (a b c d : Fin 16) (v : Block) : Block :=
  let half (r s : UInt32) (v : Block) : Block :=
    let v := v.set a (v[a] + v[b])
    let v := v.set d (rotateLeft (v[d] ^^^ v[a]) r)
    let v := v.set c (v[c] + v[d])
    v.set b (rotateLeft (v[b] ^^^ v[c]) s)
  half 8 7 (half 16 12 v)

/-- One round over the columns and one over the diagonals. -/
def doubleRound (v : Block) : Block :=
  let v := quarterRound 0 4 8 12 v
  let v := quarterRound 1 5 9 13 v
  let v := quarterRound 2 6 10 14 v
  let v := quarterRound 3 7 11 15 v
  let v := quarterRound 0 5 10 15 v
  let v := quarterRound 1 6 11 12 v
  let v := quarterRound 2 7 8 13 v
  quarterRound 3 4 9 14 v

/-- The block of output words with the given number. -/
def block (key : Vector UInt32 8) (counter : Nat) : Block :=
  let low := UInt32.ofNat counter
  let high := UInt32.ofNat (counter / 0x100000000)
  let start : Block :=
    #v[0x61707865, 0x3320646e, 0x79622d32, 0x6b206574,
      key[0], key[1], key[2], key[3], key[4], key[5], key[6], key[7], low, high, 0, 0]
  let mixed := doubleRound (doubleRound (doubleRound (doubleRound start)))
  Vector.zipWith (· + ·) mixed start

/-- The state that spreads a seed over a key, one step on. -/
def spread (state : UInt64) : UInt64 := state * 6364136223846793005 + 11634580027462260723

/-- The key word that a spreading state stands for. -/
def keyWord (state : UInt64) : UInt32 :=
  let mixed := (((state >>> 18) ^^^ state) >>> 27).toUInt32
  let turn := (state >>> 59).toUInt32
  (mixed >>> turn) ||| (mixed <<< ((32 - turn) % 32))

/-- A position in the stream of a key. -/
structure Generator where
  /-- The key of the stream. -/
  key : Vector UInt32 8
  /-- How many words have been taken. -/
  taken : Nat

namespace Generator

/-- The stream of a seed, from its start. -/
def ofSeed (seed : Nat) : Generator :=
  let s1 := spread (UInt64.ofNat seed)
  let s2 := spread s1
  let s3 := spread s2
  let s4 := spread s3
  let s5 := spread s4
  let s6 := spread s5
  let s7 := spread s6
  let s8 := spread s7
  ⟨#v[s1, s2, s3, s4, s5, s6, s7, s8].map keyWord, 0⟩

/-- The word at a position of the stream. -/
def wordAt (g : Generator) (position : Nat) : UInt32 :=
  (block g.key (position / 16)).get ⟨position % 16, Nat.mod_lt _ (by decide)⟩

/-- The next two words as one, the first one low, and the generator after them. -/
def next (g : Generator) : UInt64 × Generator :=
  let low := (g.wordAt g.taken).toUInt64
  let high := (g.wordAt (g.taken + 1)).toUInt64
  (low ||| (high <<< 32), { g with taken := g.taken + 2 })

end Generator

end FogNet.Random
