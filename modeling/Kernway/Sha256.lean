import Kernway.Utf8

namespace Kernway

namespace Sha256

/-- The round constants of FIPS 180-4 §4.2.2. -/
def k : List UInt32 := [
  0x428a2f98, 0x71374491, 0xb5c0fbcf, 0xe9b5dba5, 0x3956c25b, 0x59f111f1, 0x923f82a4, 0xab1c5ed5,
  0xd807aa98, 0x12835b01, 0x243185be, 0x550c7dc3, 0x72be5d74, 0x80deb1fe, 0x9bdc06a7, 0xc19bf174,
  0xe49b69c1, 0xefbe4786, 0x0fc19dc6, 0x240ca1cc, 0x2de92c6f, 0x4a7484aa, 0x5cb0a9dc, 0x76f988da,
  0x983e5152, 0xa831c66d, 0xb00327c8, 0xbf597fc7, 0xc6e00bf3, 0xd5a79147, 0x06ca6351, 0x14292967,
  0x27b70a85, 0x2e1b2138, 0x4d2c6dfc, 0x53380d13, 0x650a7354, 0x766a0abb, 0x81c2c92e, 0x92722c85,
  0xa2bfe8a1, 0xa81a664b, 0xc24b8b70, 0xc76c51a3, 0xd192e819, 0xd6990624, 0xf40e3585, 0x106aa070,
  0x19a4c116, 0x1e376c08, 0x2748774c, 0x34b0bcb5, 0x391c0cb3, 0x4ed8aa4a, 0x5b9cca4f, 0x682e6ff3,
  0x748f82ee, 0x78a5636f, 0x84c87814, 0x8cc70208, 0x90befffa, 0xa4506ceb, 0xbef9a3f7, 0xc67178f2]

def h0 : List UInt32 := [
  0x6a09e667, 0xbb67ae85, 0x3c6ef372, 0xa54ff53a, 0x510e527f, 0x9b05688c, 0x1f83d9ab, 0x5be0cd19]

def block : Nat := 64

def rotateRight (x n : UInt32) : UInt32 := (x >>> n) ||| (x <<< (32 - n))

def beBytes (w : UInt32) : Bytes :=
  [(w >>> 24).toUInt8, (w >>> 16).toUInt8, (w >>> 8).toUInt8, w.toUInt8]

def fromBe (b : Bytes) : UInt32 := b.foldl (fun n x => (n <<< 8) ||| x.toUInt32) 0

/-- The message padded to whole blocks: `0x80`, zeros, the length in bits as a `u64`. -/
def pad (msg : Bytes) : Bytes :=
  let bitLen := UInt64.ofNat msg.length * 8
  let zeros := (119 - msg.length % block) % block
  msg ++ (0x80 : UInt8) :: List.replicate zeros 0 ++
    beBytes (bitLen >>> 32).toUInt32 ++ beBytes bitLen.toUInt32

/-- The words `w` of a block, the first sixteen read from it. -/
def schedule (data : Bytes) : List UInt32 :=
  (List.range' 16 48).foldl (fun w i =>
    let w15 := w.getD (i - 15) 0
    let w2 := w.getD (i - 2) 0
    let s0 := rotateRight w15 7 ^^^ rotateRight w15 18 ^^^ (w15 >>> 3)
    let s1 := rotateRight w2 17 ^^^ rotateRight w2 19 ^^^ (w2 >>> 10)
    w ++ [w.getD (i - 16) 0 + s0 + w.getD (i - 7) 0 + s1])
    ((List.range 16).map fun i => fromBe ((data.drop (4 * i)).take 4))

def round (w : List UInt32) (v : List UInt32) (i : Nat) : List UInt32 :=
  let a := fun j => v.getD j 0
  let s1 := rotateRight (a 4) 6 ^^^ rotateRight (a 4) 11 ^^^ rotateRight (a 4) 25
  let ch := (a 4 &&& a 5) ^^^ (~~~(a 4) &&& a 6)
  let t1 := a 7 + s1 + ch + k.getD i 0 + w.getD i 0
  let s0 := rotateRight (a 0) 2 ^^^ rotateRight (a 0) 13 ^^^ rotateRight (a 0) 22
  let maj := (a 0 &&& a 1) ^^^ (a 0 &&& a 2) ^^^ (a 1 &&& a 2)
  let t2 := s0 + maj
  [t1 + t2, a 0, a 1, a 2, a 3 + t1, a 4, a 5, a 6]

def compress (h : List UInt32) (data : Bytes) : List UInt32 :=
  List.zipWith (· + ·) h ((List.range 64).foldl (round (schedule data)) h)

end Sha256

def sha256 (msg : Bytes) : Bytes :=
  let data := Sha256.pad msg
  let blocks := (List.range (data.length / Sha256.block)).map fun i =>
    (data.drop (Sha256.block * i)).take Sha256.block
  (blocks.foldl Sha256.compress Sha256.h0).flatMap Sha256.beBytes

/-- HMAC-SHA256 of `msg` under `key`, which is hashed down where it is longer than a block. -/
def hmacSha256 (key msg : Bytes) : Bytes :=
  let key := if key.length > Sha256.block then sha256 key else key
  let k := key ++ List.replicate (Sha256.block - key.length) 0
  let ipad := k.map (· ^^^ 0x36)
  let opad := k.map (· ^^^ 0x5c)
  sha256 (opad ++ sha256 (ipad ++ msg))

end Kernway
