/-!
# The XXH64 digest

A digest of 64 bits over a list of bytes. Whole stripes of 32 bytes are folded into four lanes,
which are then merged; what is left is taken eight bytes, four bytes and one byte at a time; a final
mix spreads every bit. All arithmetic is modulo `2 ^ 64`.
-/

namespace GraphPlan.Xxh64

/-- First multiplier. -/
def prime1 : UInt64 := 0x9E3779B185EBCA87

/-- Second multiplier. -/
def prime2 : UInt64 := 0xC2B2AE3D27D4EB4F

/-- Third multiplier. -/
def prime3 : UInt64 := 0x165667B19E3779F9

/-- Fourth multiplier. -/
def prime4 : UInt64 := 0x85EBCA77C2B2AE63

/-- Fifth multiplier. -/
def prime5 : UInt64 := 0x27D4EB2F165667C5

/-- Rotation to the left by `n` bits, `0 < n < 64`. -/
def rotate (x : UInt64) (n : UInt64) : UInt64 :=
  (x <<< n) ||| (x >>> (64 - n))

/-- The number that up to eight bytes denote, the least significant first. -/
def littleEndian (bytes : List UInt8) : UInt64 :=
  bytes.foldr (fun b n => n * 256 + b.toUInt64) 0

/-- The eight bytes of a number, the least significant first. -/
def littleEndianBytes (n : UInt64) : List UInt8 :=
  (List.range 8).map fun i => (n >>> (8 * i).toUInt64).toUInt8

/-- Folds eight bytes into a lane. -/
def round (lane input : UInt64) : UInt64 :=
  rotate (lane + input * prime2) 31 * prime1

/-- The four lanes. -/
structure Lanes where
  /-- First lane. -/
  a : UInt64
  /-- Second lane. -/
  b : UInt64
  /-- Third lane. -/
  c : UInt64
  /-- Fourth lane. -/
  d : UInt64

/-- Folds a stripe of 32 bytes, which stands at the head of the list, into the lanes. -/
def Lanes.step (s : Lanes) (bytes : List UInt8) : Lanes where
  a := round s.a (littleEndian (bytes.take 8))
  b := round s.b (littleEndian ((bytes.drop 8).take 8))
  c := round s.c (littleEndian ((bytes.drop 16).take 8))
  d := round s.d (littleEndian ((bytes.drop 24).take 8))

/-- Folds `n` stripes into the lanes; also gives the bytes that are left. -/
def stripes : Nat → List UInt8 → Lanes → Lanes × List UInt8
  | 0, bytes, s => (s, bytes)
  | n + 1, bytes, s => stripes n (bytes.drop 32) (s.step bytes)

/-- Merges a lane into the sum of the lanes. -/
def merge (sum lane : UInt64) : UInt64 :=
  (sum ^^^ round 0 lane) * prime1 + prime4

/-- The value of the four lanes. -/
def Lanes.value (s : Lanes) : UInt64 :=
  let sum := rotate s.a 1 + rotate s.b 7 + rotate s.c 12 + rotate s.d 18
  merge (merge (merge (merge sum s.a) s.b) s.c) s.d

/-- Takes in fewer than four bytes, one at a time. -/
def finishBytes (acc : UInt64) (bytes : List UInt8) : UInt64 :=
  bytes.foldl (fun acc b => rotate (acc ^^^ b.toUInt64 * prime5) 11 * prime1) acc

/-- Takes in fewer than eight bytes. -/
def finishWords (acc : UInt64) : List UInt8 → UInt64
  | b₀ :: b₁ :: b₂ :: b₃ :: rest =>
    let word := littleEndian [b₀, b₁, b₂, b₃]
    finishBytes (rotate (acc ^^^ word * prime1) 23 * prime2 + prime3) rest
  | bytes => finishBytes acc bytes

/-- Takes in the bytes after the last whole stripe. -/
def finish (acc : UInt64) : List UInt8 → UInt64
  | b₀ :: b₁ :: b₂ :: b₃ :: b₄ :: b₅ :: b₆ :: b₇ :: rest =>
    let word := littleEndian [b₀, b₁, b₂, b₃, b₄, b₅, b₆, b₇]
    finish (rotate (acc ^^^ round 0 word) 27 * prime1 + prime4) rest
  | bytes => finishWords acc bytes

/-- The final mix. -/
def avalanche (acc : UInt64) : UInt64 :=
  let x := (acc ^^^ (acc >>> 33)) * prime2
  let y := (x ^^^ (x >>> 29)) * prime3
  y ^^^ (y >>> 32)

/-- The digest of a list of bytes. -/
def digest (seed : UInt64) (bytes : List UInt8) : UInt64 :=
  let length := bytes.length
  let (start, rest) :=
    if length < 32 then
      (seed + prime5, bytes)
    else
      let (lanes, rest) :=
        stripes (length / 32) bytes ⟨seed + prime1 + prime2, seed + prime2, seed, seed - prime1⟩
      (lanes.value, rest)
  avalanche (finish (start + length.toUInt64) rest)

end GraphPlan.Xxh64
