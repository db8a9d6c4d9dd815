/-!
# The random stream

A stream of 32-bit words that is fixed by a 64-bit seed. The seed is expanded into
a key of eight words by a linear congruential generator, each of whose states
gives one word. The words of the stream are those of the blocks that the key
yields under a 64-bit block counter: a block starts from four constants, the key,
the counter and two zeros, is mixed in twelve rounds, and has the start added to
it word by word.
-/

namespace LiveTable.Random

abbrev Block := Vector UInt32 16

namespace Block

/-- The word turned left by `n` bits; amounts are taken modulo 32. -/
def rotate (w n : UInt32) : UInt32 := (w <<< n) ||| (w >>> (32 - n))

def quarter (b : Block) (i j k l : Fin 16) : Block :=
  let step (b : Block) (x y z : Fin 16) (n : UInt32) : Block :=
    let b := b.set x (b[x] + b[y])
    b.set z (rotate (b[z] ^^^ b[x]) n)
  step (step (step (step b i j l 16) k l j 12) i j l 8) k l j 7

def doubleRound (b : Block) : Block :=
  let b := quarter b 0 4 8 12
  let b := quarter b 1 5 9 13
  let b := quarter b 2 6 10 14
  let b := quarter b 3 7 11 15
  let b := quarter b 0 5 10 15
  let b := quarter b 1 6 11 12
  let b := quarter b 2 7 8 13
  quarter b 3 4 9 14

def mix (b : Block) : Block := Nat.repeat doubleRound 6 b

/-- The block under a key and a counter. -/
def keyed (key : Vector UInt32 8) (counter : UInt64) : Block :=
  let constants : Vector UInt32 4 := #v[0x61707865, 0x3320646e, 0x79622d32, 0x6b206574]
  let rest : Vector UInt32 4 := #v[counter.toUInt32, (counter >>> 32).toUInt32, 0, 0]
  let start : Block := constants ++ key ++ rest
  Vector.zipWith (· + ·) start.mix start

end Block

/-- A key, the counter of the next block, and the words left over from the last one. -/
structure Stream where
  key : Vector UInt32 8
  counter : UInt64
  pending : List UInt32

namespace Stream

def advanceSeed (s : UInt64) : UInt64 := s * 6364136223846793005 + 11634580027462260723

/-- The word of a state: its high bits, turned right by the highest five. -/
def seedWord (s : UInt64) : UInt32 :=
  let turn : UInt32 := (s >>> 59).toUInt32
  Block.rotate (((s >>> 18) ^^^ s) >>> 27).toUInt32 (32 - turn)

/-- The key that a seed is expanded into. -/
def keyOf (seed : UInt64) : Vector UInt32 8 :=
  Vector.ofFn fun i => seedWord (Nat.repeat advanceSeed (i.val + 1) seed)

def ofSeed (seed : UInt64) : Stream := ⟨keyOf seed, 0, []⟩

def word (s : Stream) : UInt32 × Stream :=
  match s.pending with
  | w :: rest => (w, { s with pending := rest })
  | [] =>
    let block := Block.keyed s.key s.counter
    (block[0], ⟨s.key, s.counter + 1, block.toList.tail⟩)

end Stream

end LiveTable.Random
