import EsLite.Foundation.Bytes

/-!
# SHA-256

The hash function of FIPS 180-4 over byte strings, as an executable definition on 32-bit words kept as
natural numbers below `2 ^ 32`. Nothing in the development looks inside it: the results that need
collision-freeness assume it for the byte strings at hand.
-/

namespace EsLite

namespace Sha256

/-- The round constants: the fractional parts of the cube roots of the first 64 primes. -/
def roundConstants : List Nat := [
  0x428a2f98, 0x71374491, 0xb5c0fbcf, 0xe9b5dba5, 0x3956c25b, 0x59f111f1, 0x923f82a4, 0xab1c5ed5,
  0xd807aa98, 0x12835b01, 0x243185be, 0x550c7dc3, 0x72be5d74, 0x80deb1fe, 0x9bdc06a7, 0xc19bf174,
  0xe49b69c1, 0xefbe4786, 0x0fc19dc6, 0x240ca1cc, 0x2de92c6f, 0x4a7484aa, 0x5cb0a9dc, 0x76f988da,
  0x983e5152, 0xa831c66d, 0xb00327c8, 0xbf597fc7, 0xc6e00bf3, 0xd5a79147, 0x06ca6351, 0x14292967,
  0x27b70a85, 0x2e1b2138, 0x4d2c6dfc, 0x53380d13, 0x650a7354, 0x766a0abb, 0x81c2c92e, 0x92722c85,
  0xa2bfe8a1, 0xa81a664b, 0xc24b8b70, 0xc76c51a3, 0xd192e819, 0xd6990624, 0xf40e3585, 0x106aa070,
  0x19a4c116, 0x1e376c08, 0x2748774c, 0x34b0bcb5, 0x391c0cb3, 0x4ed8aa4a, 0x5b9cca4f, 0x682e6ff3,
  0x748f82ee, 0x78a5636f, 0x84c87814, 0x8cc70208, 0x90befffa, 0xa4506ceb, 0xbef9a3f7, 0xc67178f2]

/-- Addition of 32-bit words. -/
def add32 (x y : Nat) : Nat := (x + y) % 2 ^ 32

/-- Rotation of a 32-bit word to the right. -/
def rotr (x n : Nat) : Nat := (x >>> n) ||| ((x <<< (32 - n)) % 2 ^ 32)

/-- The eight working variables. -/
structure Registers where
  (a b c d e f g h : Nat)
deriving DecidableEq

/-- The initial hash value: the fractional parts of the square roots of the first 8 primes. -/
def initial : Registers :=
  ⟨0x6a09e667, 0xbb67ae85, 0x3c6ef372, 0xa54ff53a, 0x510e527f, 0x9b05688c, 0x1f83d9ab, 0x5be0cd19⟩

/-- One round with constant `k` and message word `w`. -/
def round (r : Registers) (k w : Nat) : Registers :=
  let sum1 := rotr r.e 6 ^^^ rotr r.e 11 ^^^ rotr r.e 25
  let choose := (r.e &&& r.f) ^^^ ((2 ^ 32 - 1 - r.e) &&& r.g)
  let t1 := add32 r.h (add32 sum1 (add32 choose (add32 k w)))
  let sum0 := rotr r.a 2 ^^^ rotr r.a 13 ^^^ rotr r.a 22
  let majority := (r.a &&& r.b) ^^^ (r.a &&& r.c) ^^^ (r.b &&& r.c)
  ⟨add32 t1 (add32 sum0 majority), r.a, r.b, r.c, add32 r.d t1, r.e, r.f, r.g⟩

/-- The rounds for the given constants; `ws` is the window of the next 16 message words, extended by
one word of the schedule each round. -/
def rounds : List Nat → List Nat → Registers → Registers
  | k :: ks, w :: ws, r =>
    let w1 := ws.getD 0 0
    let w14 := ws.getD 13 0
    let small0 := rotr w1 7 ^^^ rotr w1 18 ^^^ (w1 >>> 3)
    let small1 := rotr w14 17 ^^^ rotr w14 19 ^^^ (w14 >>> 10)
    rounds ks (ws ++ [add32 small1 (add32 (ws.getD 8 0) (add32 small0 w))]) (round r k w)
  | _, _, r => r

/-- The compression of one block of 16 words. -/
def compress (r : Registers) (block : List Nat) : Registers :=
  let r' := rounds roundConstants block r
  ⟨add32 r.a r'.a, add32 r.b r'.b, add32 r.c r'.c, add32 r.d r'.d,
    add32 r.e r'.e, add32 r.f r'.f, add32 r.g r'.g, add32 r.h r'.h⟩

/-- The compression of `n` blocks, one after another. -/
def compressBlocks : Nat → Registers → List Nat → Registers
  | 0, r, _ => r
  | n + 1, r, ws => compressBlocks n (compress r (ws.take 16)) (ws.drop 16)

/-- The big-endian 32-bit words of a byte string. -/
def words : Bytes → List Nat
  | a :: b :: c :: d :: rest =>
    (((a.toNat * 256 + b.toNat) * 256 + c.toNat) * 256 + d.toNat) :: words rest
  | _ => []

/-- The padded message: a one bit, zeros, and the bit length in 64 bits, to a multiple of 64 bytes. -/
def pad (m : Bytes) : Bytes :=
  m ++ 0x80 :: (List.replicate ((119 - m.length % 64) % 64) 0 ++ bigEndian 8 (8 * m.length))

end Sha256

/-- The SHA-256 digest of a byte string. -/
def sha256 (m : Bytes) : FixedBytes 32 :=
  let ws := Sha256.words (Sha256.pad m)
  let r := Sha256.compressBlocks (ws.length / 16) Sha256.initial ws
  ⟨bigEndian 4 r.a ++ bigEndian 4 r.b ++ bigEndian 4 r.c ++ bigEndian 4 r.d ++
    bigEndian 4 r.e ++ bigEndian 4 r.f ++ bigEndian 4 r.g ++ bigEndian 4 r.h, by simp⟩

set_option maxRecDepth 20000 in
/-- The test vector of the standard for the message `abc`. -/
example : (sha256 (str "abc")).bytes =
    bigEndian 32 0xba7816bf8f01cfea414140de5dae2223b00361a396177a9cb410ff61f20015ad := by
  decide +kernel

end EsLite
