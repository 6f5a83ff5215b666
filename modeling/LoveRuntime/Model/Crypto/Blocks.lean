import Mathlib.Algebra.Ring.Nat
import Mathlib.Data.Nat.Notation

/-! The compression functions of `crypto/hash.c`: each takes the state's words and a block. -/

namespace LoveRuntime.Digest

abbrev Bytes := List UInt8

/-- SHA-512's round constants; SHA-256's are their high halves. -/
def k512 : Array UInt64 := List.toArray
  [0x428a2f98d728ae22, 0x7137449123ef65cd, 0xb5c0fbcfec4d3b2f, 0xe9b5dba58189dbbc,
    0x3956c25bf348b538, 0x59f111f1b605d019, 0x923f82a4af194f9b, 0xab1c5ed5da6d8118,
    0xd807aa98a3030242, 0x12835b0145706fbe, 0x243185be4ee4b28c, 0x550c7dc3d5ffb4e2,
    0x72be5d74f27b896f, 0x80deb1fe3b1696b1, 0x9bdc06a725c71235, 0xc19bf174cf692694,
    0xe49b69c19ef14ad2, 0xefbe4786384f25e3, 0x0fc19dc68b8cd5b5, 0x240ca1cc77ac9c65,
    0x2de92c6f592b0275, 0x4a7484aa6ea6e483, 0x5cb0a9dcbd41fbd4, 0x76f988da831153b5,
    0x983e5152ee66dfab, 0xa831c66d2db43210, 0xb00327c898fb213f, 0xbf597fc7beef0ee4,
    0xc6e00bf33da88fc2, 0xd5a79147930aa725, 0x06ca6351e003826f, 0x142929670a0e6e70,
    0x27b70a8546d22ffc, 0x2e1b21385c26c926, 0x4d2c6dfc5ac42aed, 0x53380d139d95b3df,
    0x650a73548baf63de, 0x766a0abb3c77b2a8, 0x81c2c92e47edaee6, 0x92722c851482353b,
    0xa2bfe8a14cf10364, 0xa81a664bbc423001, 0xc24b8b70d0f89791, 0xc76c51a30654be30,
    0xd192e819d6ef5218, 0xd69906245565a910, 0xf40e35855771202a, 0x106aa07032bbd1b8,
    0x19a4c116b8d2d0c8, 0x1e376c085141ab53, 0x2748774cdf8eeb99, 0x34b0bcb5e19b48a8,
    0x391c0cb3c5c95a63, 0x4ed8aa4ae3418acb, 0x5b9cca4f7763e373, 0x682e6ff3d6b2b8a3,
    0x748f82ee5defb2fc, 0x78a5636f43172f60, 0x84c87814a1f0ab72, 0x8cc702081a6439ec,
    0x90befffa23631e28, 0xa4506cebde82bde9, 0xbef9a3f7b2c67915, 0xc67178f2e372532b,
    0xca273eceea26619c, 0xd186b8c721c0c207, 0xeada7dd6cde0eb1e, 0xf57d4f7fee6ed178,
    0x06f067aa72176fba, 0x0a637dc5a2c898a6, 0x113f9804bef90dae, 0x1b710b35131c471b,
    0x28db77f523047d84, 0x32caab7b40c72493, 0x3c9ebe0a15c9bebc, 0x431d67c49c100d4c,
    0x4cc5d4becb3e42b6, 0x597f299cfc657e2a, 0x5fcb6fab3ad6faec, 0x6c44198c4a475817]

def sha512H0 : Array UInt32 := List.toArray
  [0x6a09e667, 0xf3bcc908, 0xbb67ae85, 0x84caa73b, 0x3c6ef372, 0xfe94f82b, 0xa54ff53a, 0x5f1d36f1,
    0x510e527f, 0xade682d1, 0x9b05688c, 0x2b3e6c1f, 0x1f83d9ab, 0xfb41bd6b, 0x5be0cd19, 0x137e2179]

def sha384H0 : Array UInt32 := List.toArray
  [0xcbbb9d5d, 0xc1059ed8, 0x629a292a, 0x367cd507, 0x9159015a, 0x3070dd17, 0x152fecd8, 0xf70e5939,
    0x67332667, 0xffc00b31, 0x8eb44a87, 0x68581511, 0xdb0c2e0d, 0x64f98fa7, 0x47b5481d, 0xbefa4fa4]

def sha1H0 : Array UInt32 := List.toArray
  [0x67452301, 0xefcdab89, 0x98badcfe, 0x10325476, 0xc3d2e1f0]

def md5K : Array UInt32 := List.toArray
  [0xd76aa478, 0xe8c7b756, 0x242070db, 0xc1bdceee, 0xf57c0faf, 0x4787c62a, 0xa8304613, 0xfd469501,
    0x698098d8, 0x8b44f7af, 0xffff5bb1, 0x895cd7be, 0x6b901122, 0xfd987193, 0xa679438e, 0x49b40821,
    0xf61e2562, 0xc040b340, 0x265e5a51, 0xe9b6c7aa, 0xd62f105d, 0x02441453, 0xd8a1e681, 0xe7d3fbc8,
    0x21e1cde6, 0xc33707d6, 0xf4d50d87, 0x455a14ed, 0xa9e3e905, 0xfcefa3f8, 0x676f02d9, 0x8d2a4c8a,
    0xfffa3942, 0x8771f681, 0x6d9d6122, 0xfde5380c, 0xa4beea44, 0x4bdecfa9, 0xf6bb4b60, 0xbebfbc70,
    0x289b7ec6, 0xeaa127fa, 0xd4ef3085, 0x04881d05, 0xd9d4d039, 0xe6db99e5, 0x1fa27cf8, 0xc4ac5665,
    0xf4292244, 0x432aff97, 0xab9423a7, 0xfc93a039, 0x655b59c3, 0x8f0ccc92, 0xffeff47d, 0x85845dd1,
    0x6fa87e4f, 0xfe2ce6e0, 0xa3014314, 0x4e0811a1, 0xf7537e82, 0xbd3af235, 0x2ad7d2bb, 0xeb86d391]

def md5S : Array UInt32 := List.toArray
  [7, 12, 17, 22, 7, 12, 17, 22, 7, 12, 17, 22, 7, 12, 17, 22, 5, 9, 14, 20, 5, 9, 14, 20, 5, 9,
    14, 20, 5, 9, 14, 20, 4, 11, 16, 23, 4, 11, 16, 23, 4, 11, 16, 23, 4, 11, 16, 23, 6, 10, 15,
    21, 6, 10, 15, 21, 6, 10, 15, 21, 6, 10, 15, 21]

def rr (x n : UInt32) : UInt32 := x >>> n ||| x <<< (32 - n)

def rl (x n : UInt32) : UInt32 := x <<< n ||| x >>> (32 - n)

def rr64 (x n : UInt64) : UInt64 := x >>> n ||| x <<< (64 - n)

def ld32be (p : Bytes) (i : ℕ) : UInt32 :=
  (p.getD i 0).toUInt32 <<< 24 ||| (p.getD (i + 1) 0).toUInt32 <<< 16 |||
    (p.getD (i + 2) 0).toUInt32 <<< 8 ||| (p.getD (i + 3) 0).toUInt32

def ld32le (p : Bytes) (i : ℕ) : UInt32 :=
  (p.getD i 0).toUInt32 ||| (p.getD (i + 1) 0).toUInt32 <<< 8 |||
    (p.getD (i + 2) 0).toUInt32 <<< 16 ||| (p.getD (i + 3) 0).toUInt32 <<< 24

def ld64be (p : Bytes) (i : ℕ) : UInt64 :=
  (ld32be p i).toUInt64 <<< 32 ||| (ld32be p (i + 4)).toUInt64

def ld64le (p : Bytes) (i : ℕ) : UInt64 :=
  (ld32le p (i + 4)).toUInt64 <<< 32 ||| (ld32le p i).toUInt64

def shaW (p : Bytes) : Array UInt32 :=
  (List.range 48).foldl (fun w j =>
    let i := j + 16
    let s0 := rr (w.getD (i - 15) 0) 7 ^^^ rr (w.getD (i - 15) 0) 18 ^^^ w.getD (i - 15) 0 >>> 3
    let s1 := rr (w.getD (i - 2) 0) 17 ^^^ rr (w.getD (i - 2) 0) 19 ^^^ w.getD (i - 2) 0 >>> 10
    w.push (w.getD (i - 16) 0 + s0 + w.getD (i - 7) 0 + s1))
    ((List.range 16).map fun i => ld32be p (4 * i)).toArray

def shaBlock (h : Vector UInt32 8) (p : Bytes) : Vector UInt32 8 :=
  let w := shaW p
  let v := (List.range 64).foldl (fun (v : Vector UInt32 8) i =>
    let a := v[0]
    let e := v[4]
    let t1 := v[7] + (rr e 6 ^^^ rr e 11 ^^^ rr e 25) + ((e &&& v[5]) ^^^ (~~~e &&& v[6])) +
      (k512.getD i 0 >>> 32).toUInt32 + w.getD i 0
    let t2 := (rr a 2 ^^^ rr a 13 ^^^ rr a 22) + ((a &&& v[1]) ^^^ (a &&& v[2]) ^^^ (v[1] &&& v[2]))
    #v[t1 + t2, a, v[1], v[2], v[3] + t1, e, v[5], v[6]]) h
  Vector.zipWith (· + ·) h v

def sha512W (p : Bytes) : Array UInt64 :=
  (List.range 64).foldl (fun w j =>
    let i := j + 16
    let s0 := rr64 (w.getD (i - 15) 0) 1 ^^^ rr64 (w.getD (i - 15) 0) 8 ^^^ w.getD (i - 15) 0 >>> 7
    let s1 := rr64 (w.getD (i - 2) 0) 19 ^^^ rr64 (w.getD (i - 2) 0) 61 ^^^ w.getD (i - 2) 0 >>> 6
    w.push (w.getD (i - 16) 0 + s0 + w.getD (i - 7) 0 + s1))
    ((List.range 16).map fun i => ld64be p (8 * i)).toArray

/-- Two words as one, the high one first. -/
def join64 (hi lo : UInt32) : UInt64 := hi.toUInt64 <<< 32 ||| lo.toUInt64

/-- Words of 64 bits as their halves. -/
def halves {n : ℕ} (v : Vector UInt64 n) : Vector UInt32 (2 * n) :=
  Vector.ofFn fun i => if i.val % 2 = 0 then (v[i.val / 2] >>> 32).toUInt32 else v[i.val / 2].toUInt32

def wholes {n : ℕ} (h : Vector UInt32 (2 * n)) : Vector UInt64 n :=
  Vector.ofFn fun i => join64 h[2 * i.val] h[2 * i.val + 1]

def sha512Block (h : Vector UInt32 16) (p : Bytes) : Vector UInt32 16 :=
  let w := sha512W p
  let v0 : Vector UInt64 8 := wholes h
  let v := (List.range 80).foldl (fun (v : Vector UInt64 8) i =>
    let a := v[0]
    let e := v[4]
    let t1 := v[7] + (rr64 e 14 ^^^ rr64 e 18 ^^^ rr64 e 41) + ((e &&& v[5]) ^^^ (~~~e &&& v[6])) +
      k512.getD i 0 + w.getD i 0
    let t2 := (rr64 a 28 ^^^ rr64 a 34 ^^^ rr64 a 39) +
      ((a &&& v[1]) ^^^ (a &&& v[2]) ^^^ (v[1] &&& v[2]))
    #v[t1 + t2, a, v[1], v[2], v[3] + t1, e, v[5], v[6]]) v0
  halves (Vector.zipWith (· + ·) v0 v)

def sha1W (p : Bytes) : Array UInt32 :=
  (List.range 64).foldl (fun w j =>
    let i := j + 16
    w.push (rl (w.getD (i - 3) 0 ^^^ w.getD (i - 8) 0 ^^^ w.getD (i - 14) 0 ^^^ w.getD (i - 16) 0) 1))
    ((List.range 16).map fun i => ld32be p (4 * i)).toArray

def sha1Block (h : Vector UInt32 5) (p : Bytes) : Vector UInt32 5 :=
  let w := sha1W p
  let v := (List.range 80).foldl (fun (v : Vector UInt32 5) i =>
    let b := v[1]
    let c := v[2]
    let d := v[3]
    let fk : UInt32 × UInt32 :=
      if i < 20 then ((b &&& c) ||| (~~~b &&& d), 0x5a827999)
      else if i < 40 then (b ^^^ c ^^^ d, 0x6ed9eba1)
      else if i < 60 then ((b &&& c) ||| (b &&& d) ||| (c &&& d), 0x8f1bbcdc)
      else (b ^^^ c ^^^ d, 0xca62c1d6)
    #v[rl v[0] 5 + fk.1 + v[4] + fk.2 + w.getD i 0, v[0], rl b 30, c, d]) h
  Vector.zipWith (· + ·) h v

def md5Block (h : Vector UInt32 4) (p : Bytes) : Vector UInt32 4 :=
  let m := ((List.range 16).map fun i => ld32le p (4 * i)).toArray
  let v := (List.range 64).foldl (fun (v : Vector UInt32 4) i =>
    let b := v[1]
    let c := v[2]
    let d := v[3]
    let fg : UInt32 × ℕ :=
      if i < 16 then ((b &&& c) ||| (~~~b &&& d), i)
      else if i < 32 then ((d &&& b) ||| (~~~d &&& c), (5 * i + 1) % 16)
      else if i < 48 then (b ^^^ c ^^^ d, (3 * i + 5) % 16)
      else (c ^^^ (b ||| ~~~d), 7 * i % 16)
    let f := fg.1 + v[0] + md5K.getD i 0 + m.getD fg.2 0
    #v[d, b + rl f (md5S.getD i 0), b, c]) h
  Vector.zipWith (· + ·) h v

/-! ### blake2b -/

def b2S : Array ℕ := List.toArray
  [0, 1, 2, 3, 4, 5, 6, 7, 8, 9, 10, 11, 12, 13, 14, 15, 14, 10, 4, 8, 9, 15, 13, 6, 1, 12, 0, 2,
    11, 7, 5, 3, 11, 8, 12, 0, 5, 2, 15, 13, 10, 14, 3, 6, 7, 1, 9, 4, 7, 9, 3, 1, 13, 12, 11, 14,
    2, 6, 5, 10, 4, 0, 15, 8, 9, 0, 5, 7, 2, 4, 10, 15, 14, 1, 11, 12, 6, 8, 3, 13, 2, 12, 6, 10,
    0, 11, 8, 3, 4, 13, 7, 5, 15, 14, 1, 9, 12, 5, 1, 15, 14, 13, 4, 10, 0, 7, 6, 3, 9, 2, 8, 11,
    13, 11, 7, 14, 12, 1, 3, 9, 5, 0, 15, 4, 8, 6, 2, 10, 6, 15, 14, 9, 11, 3, 0, 8, 12, 2, 13, 7,
    1, 4, 10, 5, 10, 2, 8, 4, 7, 6, 1, 5, 15, 11, 9, 14, 3, 12, 13, 0]

def b2G : List (Fin 16 × Fin 16 × Fin 16 × Fin 16) :=
  [(0, 4, 8, 12), (1, 5, 9, 13), (2, 6, 10, 14), (3, 7, 11, 15), (0, 5, 10, 15), (1, 6, 11, 12),
    (2, 7, 8, 13), (3, 4, 9, 14)]

def b2iv (k : ℕ) : UInt64 := join64 (sha512H0.getD (2 * k) 0) (sha512H0.getD (2 * k + 1) 0)

/-- One mixing of four of the sixteen words. -/
def b2Mix (m : Array UInt64) (r j : ℕ) (g : Fin 16 × Fin 16 × Fin 16 × Fin 16) (v : Vector UInt64 16) :
    Vector UInt64 16 :=
  let (a, b, c, d) := g
  let v := v.set a (v[a] + (v[b] + m.getD (b2S.getD (16 * (r % 10) + 2 * j) 0) 0))
  let v := v.set d (rr64 (v[d] ^^^ v[a]) 32)
  let v := v.set c (v[c] + v[d])
  let v := v.set b (rr64 (v[b] ^^^ v[c]) 24)
  let v := v.set a (v[a] + (v[b] + m.getD (b2S.getD (16 * (r % 10) + 2 * j + 1) 0) 0))
  let v := v.set d (rr64 (v[d] ^^^ v[a]) 16)
  let v := v.set c (v[c] + v[d])
  v.set b (rr64 (v[b] ^^^ v[c]) 63)

def b2Block (h : Vector UInt64 8) (p : Bytes) (t : UInt64) (last : Bool) : Vector UInt64 8 :=
  let m := ((List.range 16).map fun i => ld64le p (8 * i)).toArray
  let v : Vector UInt64 16 := Vector.ofFn fun i =>
    if hi : i.val < 8 then h[i.val]
    else if i.val = 12 then b2iv 4 ^^^ t
    else if i.val = 14 ∧ last then ~~~b2iv 6
    else b2iv (i.val - 8)
  let v := (List.range 12).foldl (fun v r =>
    b2G.zipIdx.foldl (fun v g => b2Mix m r g.2 g.1 v) v) v
  Vector.ofFn fun i => h[i.val] ^^^ (v[i.val] ^^^ v[i.val + 8])

/-! ### Keccak -/

def rho : Array UInt64 := List.toArray
  [0, 1, 62, 28, 27, 36, 44, 6, 55, 20, 3, 10, 43, 25, 39, 41, 45, 15, 21, 8, 18, 2, 61, 56, 14]

def pi : Array ℕ := List.toArray
  [0, 10, 20, 5, 15, 16, 1, 11, 21, 6, 7, 17, 2, 12, 22, 23, 8, 18, 3, 13, 14, 24, 9, 19, 4]

/-- The round constant off the shift register `rc`, and the register after it. -/
def roundConstant (rc : ℕ) : UInt64 × ℕ :=
  (List.range 7).foldl (fun s j =>
    (if s.2 % 2 = 1 then s.1 ||| (1 : UInt64) <<< UInt64.ofNat (2 ^ j - 1) else s.1,
      if s.2 &&& 0x80 ≠ 0 then (s.2 <<< 1) ^^^ 0x171 else s.2 <<< 1)) (0, rc)

def keccakRound (s : Array UInt64 × ℕ) : Array UInt64 × ℕ :=
  let a := s.1
  let c := ((List.range 5).map fun x =>
    a.getD x 0 ^^^ a.getD (x + 5) 0 ^^^ a.getD (x + 10) 0 ^^^ a.getD (x + 15) 0 ^^^ a.getD (x + 20) 0).toArray
  let d := fun x => c.getD ((x + 4) % 5) 0 ^^^
    (c.getD ((x + 1) % 5) 0 <<< 1 ||| c.getD ((x + 1) % 5) 0 >>> 63)
  let a := ((List.range 25).map fun i => a.getD i 0 ^^^ d (i % 5)).toArray
  let b := (List.range 25).foldl (fun b i => b.setIfInBounds (pi.getD i 0)
    (if rho.getD i 0 = 0 then a.getD i 0
      else a.getD i 0 <<< rho.getD i 0 ||| a.getD i 0 >>> (64 - rho.getD i 0))) (Array.replicate 25 0)
  let a := ((List.range 25).map fun i =>
    let y := i / 5 * 5
    let x := i % 5
    b.getD i 0 ^^^ (~~~b.getD (y + (x + 1) % 5) 0 &&& b.getD (y + (x + 2) % 5) 0)).toArray
  let k := roundConstant s.2
  (a.setIfInBounds 0 (a.getD 0 0 ^^^ k.1), k.2)

def keccak (a : Array UInt64) : Array UInt64 :=
  ((List.range 24).foldl (fun s _ => keccakRound s) (a, 1)).1

/-- The permutation of the sponge's 200 bytes. -/
def kPerm (st : Bytes) : Bytes :=
  let a := keccak ((List.range 25).map fun i => ld64le st (8 * i)).toArray
  (List.range 200).map fun k => (a.getD (k / 8) 0 >>> UInt64.ofNat (8 * (k % 8))).toUInt8

end LoveRuntime.Digest
