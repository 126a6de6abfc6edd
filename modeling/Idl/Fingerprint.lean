/-!
Fingerprints of file contents: the 64-bit xxHash, seed 0, of the UTF-8 bytes.

The bytes are taken as words of eight, least byte first. Four words at a time go through four
separate lanes, which are then folded into one; the words, the half word and the bytes that are
left over follow one by one.
-/

namespace Idl

namespace Fingerprint

def prime1 : UInt64 := 0x9E3779B185EBCA87
def prime2 : UInt64 := 0xC2B2AE3D27D4EB4F
def prime3 : UInt64 := 0x165667B19E3779F9
def prime4 : UInt64 := 0x85EBCA77C2B2AE63
def prime5 : UInt64 := 0x27D4EB2F165667C5

def rotateLeft (word amount : UInt64) : UInt64 :=
  (word <<< amount) ||| (word >>> (64 - amount))

/-- A word from its bytes, least byte first. -/
def wordOf (bytes : List UInt8) : UInt64 :=
  bytes.foldr (fun byte word => (word <<< 8) ||| byte.toUInt64) 0

/-- The full words at the start of a text, and the bytes that are left over. -/
def words : List UInt8 → List UInt64 × List UInt8
  | a :: b :: c :: d :: e :: f :: g :: h :: rest =>
    let later := words rest
    (wordOf [a, b, c, d, e, f, g, h] :: later.1, later.2)
  | rest => ([], rest)

def mix (lane word : UInt64) : UInt64 :=
  rotateLeft (lane + word * prime2) 31 * prime1

structure Lanes where
  first : UInt64 := prime1 + prime2
  second : UInt64 := prime2
  third : UInt64 := 0
  fourth : UInt64 := 0 - prime1

namespace Lanes

/-- Sends words through the lanes, four at a time, and gives back those left over. -/
def absorb (lanes : Lanes) : List UInt64 → Lanes × List UInt64
  | a :: b :: c :: d :: rest =>
    absorb ⟨mix lanes.first a, mix lanes.second b, mix lanes.third c, mix lanes.fourth d⟩ rest
  | rest => (lanes, rest)

def foldLane (hash lane : UInt64) : UInt64 :=
  (hash ^^^ mix 0 lane) * prime1 + prime4

def merge (lanes : Lanes) : UInt64 :=
  let sum := rotateLeft lanes.first 1 + rotateLeft lanes.second 7 +
    rotateLeft lanes.third 12 + rotateLeft lanes.fourth 18
  [lanes.first, lanes.second, lanes.third, lanes.fourth].foldl foldLane sum

end Lanes

def addWord (hash word : UInt64) : UInt64 :=
  rotateLeft (hash ^^^ mix 0 word) 27 * prime1 + prime4

def addHalf (hash half : UInt64) : UInt64 :=
  rotateLeft (hash ^^^ (half * prime1)) 23 * prime2 + prime3

def addByte (hash : UInt64) (byte : UInt8) : UInt64 :=
  rotateLeft (hash ^^^ (byte.toUInt64 * prime5)) 11 * prime1

def addBytes (hash : UInt64) : List UInt8 → UInt64
  | a :: b :: c :: d :: rest => rest.foldl addByte (addHalf hash (wordOf [a, b, c, d]))
  | rest => rest.foldl addByte hash

/-- Spreads each bit of a hash over the whole word. -/
def avalanche (hash : UInt64) : UInt64 :=
  let hash := (hash ^^^ (hash >>> 33)) * prime2
  let hash := (hash ^^^ (hash >>> 29)) * prime3
  hash ^^^ (hash >>> 32)

def ofBytes (bytes : List UInt8) : UInt64 :=
  let (all, tail) := words bytes
  let (start, left) :=
    if bytes.length < 32 then (prime5, all)
    else
      let (lanes, left) := Lanes.absorb {} all
      (lanes.merge, left)
  avalanche (addBytes (left.foldl addWord (start + bytes.length.toUInt64)) tail)

end Fingerprint

def fingerprint (text : String) : UInt64 :=
  Fingerprint.ofBytes (text.toList.flatMap String.utf8EncodeChar)

end Idl
