/-!
# BLAKE2b

The 256-bit digest of a byte string, without a key. The message is read in blocks of 128 bytes as
little-endian words of 64 bits; each block is mixed into eight words of state by twelve rounds.
-/

namespace SignalLang.Digest

/-- The words the state starts from. -/
def initialWords : Array UInt64 := #[
  0x6a09e667f3bcc908, 0xbb67ae8584caa73b, 0x3c6ef372fe94f82b, 0xa54ff53a5f1d36f1,
  0x510e527fade682d1, 0x9b05688c2b3e6c1f, 0x1f83d9abfb41bd6b, 0x5be0cd19137e2179]

/-- The order in which a round takes the words of a block; the eleventh round starts over. -/
def schedules : Array (Array Nat) := #[
  #[0, 1, 2, 3, 4, 5, 6, 7, 8, 9, 10, 11, 12, 13, 14, 15],
  #[14, 10, 4, 8, 9, 15, 13, 6, 1, 12, 0, 2, 11, 7, 5, 3],
  #[11, 8, 12, 0, 5, 2, 15, 13, 10, 14, 3, 6, 7, 1, 9, 4],
  #[7, 9, 3, 1, 13, 12, 11, 14, 2, 6, 5, 10, 4, 0, 15, 8],
  #[9, 0, 5, 7, 2, 4, 10, 15, 14, 1, 11, 12, 6, 8, 3, 13],
  #[2, 12, 6, 10, 0, 11, 8, 3, 4, 13, 7, 5, 15, 14, 1, 9],
  #[12, 5, 1, 15, 14, 13, 4, 10, 0, 7, 6, 3, 9, 2, 8, 11],
  #[13, 11, 7, 14, 12, 1, 3, 9, 5, 0, 15, 4, 8, 6, 2, 10],
  #[6, 15, 14, 9, 11, 3, 0, 8, 12, 2, 13, 7, 1, 4, 10, 5],
  #[10, 2, 8, 4, 7, 6, 1, 5, 15, 11, 9, 14, 3, 12, 13, 0]]

/-- The words of the working state that each of the eight mixings of a round touches: columns, then
diagonals. -/
def lanes : List (Nat × Nat × Nat × Nat) := [
  (0, 4, 8, 12), (1, 5, 9, 13), (2, 6, 10, 14), (3, 7, 11, 15),
  (0, 5, 10, 15), (1, 6, 11, 12), (2, 7, 8, 13), (3, 4, 9, 14)]

/-- Turns a word to the right. -/
def turn (w : UInt64) (n : UInt64) : UInt64 := (w >>> n) ||| (w <<< (64 - n))

/-- The word at a place. -/
def word (ws : Array UInt64) (i : Nat) : UInt64 := ws.getD i 0

/-- Mixes two words of a block into four words of the working state. -/
def mix (v : Array UInt64) (lane : Nat × Nat × Nat × Nat) (x y : UInt64) : Array UInt64 :=
  let (i, j, k, l) := lane
  let a := word v i + word v j + x
  let d := turn (word v l ^^^ a) 32
  let c := word v k + d
  let b := turn (word v j ^^^ c) 24
  let a := a + b + y
  let d := turn (d ^^^ a) 16
  let c := c + d
  let b := turn (b ^^^ c) 63
  (((v.setIfInBounds i a).setIfInBounds j b).setIfInBounds k c).setIfInBounds l d

/-- One round over a block. -/
def round (block : Array UInt64) (v : Array UInt64) (r : Nat) : Array UInt64 :=
  let order := schedules.getD (r % 10) #[]
  lanes.zipIdx.foldl (fun v (lane, i) =>
    mix v lane (word block (order.getD (2 * i) 0)) (word block (order.getD (2 * i + 1) 0))) v

/-- Mixes a block into the state. `count` is the number of message bytes up to its end. -/
def compress (state block : Array UInt64) (count : Nat) (last : Bool) : Array UInt64 :=
  let v := state ++ initialWords
  let v := v.setIfInBounds 12 (word v 12 ^^^ count.toUInt64)
  let v := v.setIfInBounds 13 (word v 13 ^^^ (count / 18446744073709551616).toUInt64)
  let v := if last then v.setIfInBounds 14 (~~~ word v 14) else v
  let v := (List.range 12).foldl (round block) v
  Array.ofFn fun (i : Fin 8) => word state i ^^^ word v i ^^^ word v (i + 8)

/-- The word of bytes, the lowest first. -/
def wordOfBytes (bytes : List UInt8) : UInt64 :=
  bytes.foldr (fun b w => (w <<< 8) ||| b.toUInt64) 0

/-- The bytes of a word, the lowest first. -/
def bytesOfWord (w : UInt64) : List UInt8 :=
  (List.range 8).map fun i => (w >>> (8 * i).toUInt64).toUInt8

/-- The words of a block; missing bytes are zero. -/
def blockWords (bytes : List UInt8) : Array UInt64 :=
  Array.ofFn fun (i : Fin 16) => wordOfBytes ((bytes.drop (8 * i)).take 8)

/-- Takes in a message block by block; `count` bytes came before. The last block is never empty, except
for the empty message. -/
def absorb (state : Array UInt64) (count : Nat) (bytes : List UInt8) : Array UInt64 :=
  if bytes.length ≤ 128 then compress state (blockWords bytes) (count + bytes.length) true
  else
    absorb (compress state (blockWords (bytes.take 128)) (count + 128) false) (count + 128)
      (bytes.drop 128)
termination_by bytes.length
decreasing_by simp only [List.length_drop]; omega

/-- The 32 bytes of the digest. -/
def blake2b (bytes : List UInt8) : List UInt8 :=
  let start := initialWords.setIfInBounds 0 (word initialWords 0 ^^^ 0x01010020)
  ((absorb start 0 bytes).toList.flatMap bytesOfWord).take 32

end SignalLang.Digest
