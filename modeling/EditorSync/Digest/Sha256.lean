import EditorSync.Text.Bytes

namespace EditorSync.Digest.Sha256

open Text (Bytes)

def constants : Array UInt32 := #[
  0x428a2f98, 0x71374491, 0xb5c0fbcf, 0xe9b5dba5, 0x3956c25b, 0x59f111f1, 0x923f82a4, 0xab1c5ed5,
  0xd807aa98, 0x12835b01, 0x243185be, 0x550c7dc3, 0x72be5d74, 0x80deb1fe, 0x9bdc06a7, 0xc19bf174,
  0xe49b69c1, 0xefbe4786, 0x0fc19dc6, 0x240ca1cc, 0x2de92c6f, 0x4a7484aa, 0x5cb0a9dc, 0x76f988da,
  0x983e5152, 0xa831c66d, 0xb00327c8, 0xbf597fc7, 0xc6e00bf3, 0xd5a79147, 0x06ca6351, 0x14292967,
  0x27b70a85, 0x2e1b2138, 0x4d2c6dfc, 0x53380d13, 0x650a7354, 0x766a0abb, 0x81c2c92e, 0x92722c85,
  0xa2bfe8a1, 0xa81a664b, 0xc24b8b70, 0xc76c51a3, 0xd192e819, 0xd6990624, 0xf40e3585, 0x106aa070,
  0x19a4c116, 0x1e376c08, 0x2748774c, 0x34b0bcb5, 0x391c0cb3, 0x4ed8aa4a, 0x5b9cca4f, 0x682e6ff3,
  0x748f82ee, 0x78a5636f, 0x84c87814, 0x8cc70208, 0x90befffa, 0xa4506ceb, 0xbef9a3f7, 0xc67178f2]

def initial : Vector UInt32 8 := #v[
  0x6a09e667, 0xbb67ae85, 0x3c6ef372, 0xa54ff53a, 0x510e527f, 0x9b05688c, 0x1f83d9ab, 0x5be0cd19]

def rotate (x : UInt32) (n : UInt32) : UInt32 := (x >>> n) ||| (x <<< (32 - n))

def pad (message : Bytes) : Bytes :=
  let zeros := (119 - message.length % 64) % 64
  let bits := 8 * message.length
  message ++ 0x80 :: List.replicate zeros 0 ++
    (List.range 8).map fun i => (bits / Nat.pow 256 (7 - i)).toUInt8

def wordsOf : Bytes → List UInt32
  | a :: b :: c :: d :: rest =>
    ((a.toUInt32 <<< 24) ||| (b.toUInt32 <<< 16) ||| (c.toUInt32 <<< 8) ||| d.toUInt32) ::
      wordsOf rest
  | _ => []

def schedule (block : List UInt32) : Array UInt32 :=
  (List.range 48).foldl (fun w i =>
    let at' (j : Nat) : UInt32 := w.getD (i + j) 0
    let s0 := rotate (at' 1) 7 ^^^ rotate (at' 1) 18 ^^^ (at' 1 >>> 3)
    let s1 := rotate (at' 14) 17 ^^^ rotate (at' 14) 19 ^^^ (at' 14 >>> 10)
    w.push (at' 0 + s0 + at' 9 + s1)) block.toArray

def round (v : Vector UInt32 8) (k w : UInt32) : Vector UInt32 8 :=
  let s1 := rotate v[4] 6 ^^^ rotate v[4] 11 ^^^ rotate v[4] 25
  let ch := (v[4] &&& v[5]) ^^^ (~~~v[4] &&& v[6])
  let t1 := v[7] + s1 + ch + k + w
  let s0 := rotate v[0] 2 ^^^ rotate v[0] 13 ^^^ rotate v[0] 22
  let maj := (v[0] &&& v[1]) ^^^ (v[0] &&& v[2]) ^^^ (v[1] &&& v[2])
  #v[t1 + (s0 + maj), v[0], v[1], v[2], v[3] + t1, v[4], v[5], v[6]]

def compress (state : Vector UInt32 8) (block : List UInt32) : Vector UInt32 8 :=
  let w := schedule block
  let mixed := (List.range 64).foldl (fun v i => round v (constants.getD i 0) (w.getD i 0)) state
  state.zipWith (· + ·) mixed

def blocks (words : List UInt32) : List (List UInt32) :=
  (List.range (words.length / 16)).map fun i => (words.drop (16 * i)).take 16

def digest (message : Bytes) : Vector UInt32 8 :=
  (blocks (wordsOf (pad message))).foldl compress initial

def hexWord (w : UInt32) : List Char :=
  (List.range 8).map fun i => Nat.digitChar (w.toNat / Nat.pow 16 (7 - i) % 16)

def hex (text : String) : String :=
  String.ofList ((digest (Text.encode text)).toList.flatMap hexWord)

end EditorSync.Digest.Sha256
