/-!
Contract: the hash that spreads key texts over the buckets of a table.

The hash is a fixed function of the UTF-8 bytes of the text, so bucket order is the same in
every run.  Arithmetic is on 64-bit words and wraps.

The program takes its hasher from a library (`ahash`, all seeds zero).  This module reproduces the
portable form of it.

Owns: the hash of a text and the bucket of a text in a table of a given size.
-/

namespace CountedHeap.Text

/-- The multiplier that spreads the bits of a word. -/
def spread : UInt64 := 6364136223846793005

/-- The low and the high half of a 128-bit product, combined. -/
def foldedProduct (left right : UInt64) : UInt64 :=
  let product := left.toNat * right.toNat
  UInt64.ofNat product ^^^ UInt64.ofNat (product / Nat.pow 2 64)

/-- Rotate a word to the left. -/
def rotateLeft (word : UInt64) (distance : UInt64) : UInt64 :=
  let distance := distance % 64
  if distance = 0 then word else word <<< distance ||| word >>> (64 - distance)

/-- A word from bytes, least significant first. -/
def littleEndian (bytes : List UInt8) : UInt64 :=
  bytes.foldr (fun byte word => word * 256 + byte.toUInt64) 0

/-- Mix two words into the state of the hash. -/
def absorb (state low high : UInt64) : UInt64 :=
  rotateLeft
    ((state + 0x452821e638d01377) ^^^
      foldedProduct (low ^^^ 0xc0ac29b7c97c50dd) (high ^^^ 0x3f84d5b5b5470917))
    23

/-- Mix the 16-byte blocks at the front of a text of more than 16 bytes.  The last 16 bytes
or fewer are left alone: they were mixed before. -/
def absorbBlocks (state : UInt64) (bytes : List UInt8) : UInt64 :=
  match _behind : bytes.drop 16 with
  | [] => state
  | next :: rest =>
      absorbBlocks
        (absorb state (littleEndian (bytes.take 8)) (littleEndian ((bytes.drop 8).take 8)))
        (next :: rest)
termination_by bytes.length
decreasing_by
  have remaining := congrArg List.length _behind
  simp only [List.length_drop, List.length_cons] at remaining ⊢
  omega

/-- The last `count` bytes of a text. -/
def lastBytes (count : Nat) (bytes : List UInt8) : List UInt8 :=
  bytes.drop (bytes.length - count)

/-- Mix all bytes of a text.  A short text is read as two words that overlap; of a longer
one the last 16 bytes come first and the blocks follow. -/
def absorbAll (state : UInt64) (bytes : List UInt8) : UInt64 :=
  let length := bytes.length
  if 16 < length then
    let tail := lastBytes 16 bytes
    absorbBlocks
      (absorb state (littleEndian (tail.take 8)) (littleEndian (tail.drop 8))) bytes
  else if 8 < length then
    absorb state (littleEndian (bytes.take 8)) (littleEndian (lastBytes 8 bytes))
  else if 4 ≤ length then
    absorb state (littleEndian (bytes.take 4)) (littleEndian (lastBytes 4 bytes))
  else if 2 ≤ length then
    absorb state (littleEndian (bytes.take 2)) (littleEndian (lastBytes 1 bytes))
  else
    absorb state (littleEndian bytes) (littleEndian bytes)

/-- The hash of a text. -/
def keyHash (text : String) : UInt64 :=
  let bytes := text.toUTF8.data.toList
  let start := (0xbe5466cf34e90c6c + UInt64.ofNat bytes.length) * spread
  let mixed := foldedProduct (0xff ^^^ absorbAll start bytes) spread
  rotateLeft (foldedProduct mixed 0x452821e638d01377) mixed

/-- The bucket of a text in a table of `buckets` buckets. -/
def bucketOf (text : String) (buckets : Nat) : Nat :=
  (keyHash text).toNat % buckets

/-- In a table that has buckets, the bucket of a text is one of them. -/
theorem bucketOf_lt (text : String) {buckets : Nat} (nonempty : 0 < buckets) :
    bucketOf text buckets < buckets :=
  Nat.mod_lt _ nonempty

end CountedHeap.Text
