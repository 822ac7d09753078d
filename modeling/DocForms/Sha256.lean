namespace DocForms.Sha256

/-- Fraction bits of the cube roots of the first sixty-four primes. -/
def roundConstants : Array UInt32 :=
  #[0x428a2f98, 0x71374491, 0xb5c0fbcf, 0xe9b5dba5, 0x3956c25b, 0x59f111f1, 0x923f82a4, 0xab1c5ed5,
   0xd807aa98, 0x12835b01, 0x243185be, 0x550c7dc3, 0x72be5d74, 0x80deb1fe, 0x9bdc06a7, 0xc19bf174,
   0xe49b69c1, 0xefbe4786, 0x0fc19dc6, 0x240ca1cc, 0x2de92c6f, 0x4a7484aa, 0x5cb0a9dc, 0x76f988da,
   0x983e5152, 0xa831c66d, 0xb00327c8, 0xbf597fc7, 0xc6e00bf3, 0xd5a79147, 0x06ca6351, 0x14292967,
   0x27b70a85, 0x2e1b2138, 0x4d2c6dfc, 0x53380d13, 0x650a7354, 0x766a0abb, 0x81c2c92e, 0x92722c85,
   0xa2bfe8a1, 0xa81a664b, 0xc24b8b70, 0xc76c51a3, 0xd192e819, 0xd6990624, 0xf40e3585, 0x106aa070,
   0x19a4c116, 0x1e376c08, 0x2748774c, 0x34b0bcb5, 0x391c0cb3, 0x4ed8aa4a, 0x5b9cca4f, 0x682e6ff3,
   0x748f82ee, 0x78a5636f, 0x84c87814, 0x8cc70208, 0x90befffa, 0xa4506ceb, 0xbef9a3f7, 0xc67178f2]

/-- Fraction bits of the square roots of the first eight primes. -/
def start : Vector UInt32 8 :=
  #v[0x6a09e667, 0xbb67ae85, 0x3c6ef372, 0xa54ff53a, 0x510e527f, 0x9b05688c, 0x1f83d9ab, 0x5be0cd19]

/-- Bits turned right; the amount is at least one and below thirty-two. -/
def rotate (x : UInt32) (amount : UInt32) : UInt32 :=
  (x >>> amount) ||| (x <<< (32 - amount))

/-- The message, a one bit, and zeros up to eight bytes before the end of a block, then the length in
bits. -/
def padded (message : ByteArray) : ByteArray :=
  let zeros := (119 - message.size % 64) % 64
  let bits := message.size * 8
  let length : List UInt8 := (List.range 8).map fun i => UInt8.ofNat (bits >>> (8 * (7 - i)) % 256)
  message ++ ⟨(0x80 :: (List.replicate zeros 0 ++ length)).toArray⟩

/-- The big-endian word at a position. -/
def wordAt (b : ByteArray) (i : Nat) : UInt32 :=
  let byte (k : Nat) : UInt32 := (b[i + k]?.getD 0).toUInt32
  byte 0 <<< 24 ||| byte 1 <<< 16 ||| byte 2 <<< 8 ||| byte 3

def nextWord (w : Array UInt32) : UInt32 :=
  let i := w.size
  let a := w.getD (i - 15) 0
  let b := w.getD (i - 2) 0
  let s0 := rotate a 7 ^^^ rotate a 18 ^^^ (a >>> 3)
  let s1 := rotate b 17 ^^^ rotate b 19 ^^^ (b >>> 10)
  w.getD (i - 16) 0 + s0 + w.getD (i - 7) 0 + s1

/-- The sixty-four words of the block at a position. -/
def schedule (b : ByteArray) (i : Nat) : Array UInt32 :=
  let first := (Array.range 16).map fun k => wordAt b (i + 4 * k)
  (List.range 48).foldl (fun w _ => w.push (nextWord w)) first

/-- One round with its constant and its word. -/
def round (h : Vector UInt32 8) (k w : UInt32) : Vector UInt32 8 :=
  let s1 := rotate h[4] 6 ^^^ rotate h[4] 11 ^^^ rotate h[4] 25
  let choice := (h[4] &&& h[5]) ^^^ (~~~h[4] &&& h[6])
  let t1 := h[7] + s1 + choice + k + w
  let s0 := rotate h[0] 2 ^^^ rotate h[0] 13 ^^^ rotate h[0] 22
  let majority := (h[0] &&& h[1]) ^^^ (h[0] &&& h[2]) ^^^ (h[1] &&& h[2])
  #v[t1 + s0 + majority, h[0], h[1], h[2], h[3] + t1, h[4], h[5], h[6]]

def compress (b : ByteArray) (h : Vector UInt32 8) (block : Nat) : Vector UInt32 8 :=
  let worked := (roundConstants.zip (schedule b (64 * block))).foldl (fun h (k, w) => round h k w) h
  Vector.zipWith (· + ·) h worked

/-- The SHA-256 digest of a message. -/
def digest (message : ByteArray) : Vector UInt8 32 :=
  let b := padded message
  let h := (List.range (b.size / 64)).foldl (compress b) start
  Vector.ofFn fun i : Fin 32 => ((h.get ⟨i.val / 4, by omega⟩) >>> (24 - 8 * UInt32.ofNat (i.val % 4))).toUInt8

end DocForms.Sha256
