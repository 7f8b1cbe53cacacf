import AcCore.Gov.Hasher

/-!
# The two hash functions

`sha256` and `ripemd160` with their transformations. The source names the words of a round
anew at every call, each time one place further; here the words change their places
instead.
-/

namespace AcCore.Gov

open Lib

/-- Sixteen words of a chunk. -/
def readWords (read : List UInt8 → UInt32) (chunk : List UInt8) : List UInt32 :=
  (blocks 4 16 chunk).map read

/-! ## SHA-256 -/

/-- `ReadBE32` and `WriteBE32`. -/
def be32 : FixedCodec UInt32 4 := uint32Codec.reverse

/-- `ReadBE64` and `WriteBE64`. -/
def be64 : FixedCodec UInt64 8 := uint64Codec.reverse

namespace Sha256

/-- The eight words of a `sha256`. -/
@[ext] structure Words where
  a : UInt32
  b : UInt32
  c : UInt32
  d : UInt32
  e : UInt32
  f : UInt32
  g : UInt32
  h : UInt32
  deriving DecidableEq, Repr

/-- `initialize`. -/
def initialWords : Words :=
  ⟨0x6a09e667, 0xbb67ae85, 0x3c6ef372, 0xa54ff53a, 0x510e527f, 0x9b05688c, 0x1f83d9ab, 0x5be0cd19⟩

/-- `Ch`. -/
def ch (x y z : UInt32) : UInt32 := z ^^^ (x &&& (y ^^^ z))

/-- `Maj`. -/
def maj (x y z : UInt32) : UInt32 := (x &&& y) ||| (z &&& (x ||| y))

/-- `Sigma0`. -/
def bigSigma0 (x : UInt32) : UInt32 :=
  (x >>> 2 ||| x <<< 30) ^^^ (x >>> 13 ||| x <<< 19) ^^^ (x >>> 22 ||| x <<< 10)

/-- `Sigma1`. -/
def bigSigma1 (x : UInt32) : UInt32 :=
  (x >>> 6 ||| x <<< 26) ^^^ (x >>> 11 ||| x <<< 21) ^^^ (x >>> 25 ||| x <<< 7)

/-- `sigma0`. -/
def sigma0 (x : UInt32) : UInt32 :=
  (x >>> 7 ||| x <<< 25) ^^^ (x >>> 18 ||| x <<< 14) ^^^ (x >>> 3)

/-- `sigma1`. -/
def sigma1 (x : UInt32) : UInt32 :=
  (x >>> 17 ||| x <<< 15) ^^^ (x >>> 19 ||| x <<< 13) ^^^ (x >>> 10)

/-- `Round`, and the words in the order in which the next call takes them. -/
def round (s : Words) (k w : UInt32) : Words :=
  let t1 := s.h + bigSigma1 s.e + ch s.e s.f s.g + k + w
  let t2 := bigSigma0 s.a + maj s.a s.b s.c
  ⟨t1 + t2, s.a, s.b, s.c, s.d + t1, s.e, s.f, s.g⟩

/-- The constants of the 64 rounds. -/
def constants : List UInt32 :=
  [0x428a2f98, 0x71374491, 0xb5c0fbcf, 0xe9b5dba5, 0x3956c25b, 0x59f111f1, 0x923f82a4, 0xab1c5ed5,
   0xd807aa98, 0x12835b01, 0x243185be, 0x550c7dc3, 0x72be5d74, 0x80deb1fe, 0x9bdc06a7, 0xc19bf174,
   0xe49b69c1, 0xefbe4786, 0x0fc19dc6, 0x240ca1cc, 0x2de92c6f, 0x4a7484aa, 0x5cb0a9dc, 0x76f988da,
   0x983e5152, 0xa831c66d, 0xb00327c8, 0xbf597fc7, 0xc6e00bf3, 0xd5a79147, 0x06ca6351, 0x14292967,
   0x27b70a85, 0x2e1b2138, 0x4d2c6dfc, 0x53380d13, 0x650a7354, 0x766a0abb, 0x81c2c92e, 0x92722c85,
   0xa2bfe8a1, 0xa81a664b, 0xc24b8b70, 0xc76c51a3, 0xd192e819, 0xd6990624, 0xf40e3585, 0x106aa070,
   0x19a4c116, 0x1e376c08, 0x2748774c, 0x34b0bcb5, 0x391c0cb3, 0x4ed8aa4a, 0x5b9cca4f, 0x682e6ff3,
   0x748f82ee, 0x78a5636f, 0x84c87814, 0x8cc70208, 0x90befffa, 0xa4506ceb, 0xbef9a3f7, 0xc67178f2]

/-- The words `w0` to `w15` as they are in the `i`-th round: from the seventeenth on, the
word of the round is replaced before it is used. -/
def schedule (w : List UInt32) (i : ℕ) : List UInt32 :=
  if i < 16 then w
  else w.modify (i % 16) fun x =>
    x + (sigma1 (w.getD ((i + 14) % 16) 0) + w.getD ((i + 9) % 16) 0 +
      sigma0 (w.getD ((i + 1) % 16) 0))

/-- The rounds, from the `i`-th on. -/
def rounds : List UInt32 → ℕ → List UInt32 → Words → Words
  | [], _, _, s => s
  | k :: ks, i, w, s =>
    rounds ks (i + 1) (schedule w i) (round s k ((schedule w i).getD (i % 16) 0))

/-- `transform`. -/
def transform (s : Words) (chunk : List UInt8) : Words :=
  let t := rounds constants 0 (readWords be32.dec chunk) s
  ⟨s.a + t.a, s.b + t.b, s.c + t.c, s.d + t.d, s.e + t.e, s.f + t.f, s.g + t.g, s.h + t.h⟩

/-- How `finalize` writes the words. -/
def output (s : Words) : List UInt8 :=
  be32.encAll [s.a, s.b, s.c, s.d, s.e, s.f, s.g, s.h]

/-- `sha256`. -/
def algorithm : HashAlgorithm Words := ⟨initialWords, transform, be64.enc, output⟩

/-- The length and the digest that are written can be read back. -/
theorem readable : algorithm.Readable where
  length_sizedesc := be64.length_enc
  sizedesc_injective := be64.enc_injective
  output_injective s t h := by
    have hwords : [s.a, s.b, s.c, s.d, s.e, s.f, s.g, s.h] =
        [t.a, t.b, t.c, t.d, t.e, t.f, t.g, t.h] := be32.encAll_inj rfl h
    simp only [List.cons.injEq, and_true] at hwords
    obtain ⟨ha, hb, hc, hd, he, hf, hg, hh⟩ := hwords
    exact Words.ext ha hb hc hd he hf hg hh

end Sha256

/-! ## RIPEMD-160 -/

namespace Ripemd160

/-- The five words of a `ripemd160`. -/
@[ext] structure Words where
  a : UInt32
  b : UInt32
  c : UInt32
  d : UInt32
  e : UInt32
  deriving DecidableEq, Repr

/-- `Initialize`. -/
def initialWords : Words := ⟨0x67452301, 0xEFCDAB89, 0x98BADCFE, 0x10325476, 0xC3D2E1F0⟩

/-- `f1`. -/
def f1 (x y z : UInt32) : UInt32 := x ^^^ y ^^^ z

/-- `f2`. -/
def f2 (x y z : UInt32) : UInt32 := (x &&& y) ||| (~~~x &&& z)

/-- `f3`. -/
def f3 (x y z : UInt32) : UInt32 := (x ||| ~~~y) ^^^ z

/-- `f4`. -/
def f4 (x y z : UInt32) : UInt32 := (x &&& z) ||| (y &&& ~~~z)

/-- `f5`. -/
def f5 (x y z : UInt32) : UInt32 := x ^^^ (y ||| ~~~z)

/-- `rol`. -/
def rol (x : UInt32) (i : UInt32) : UInt32 := (x <<< i) ||| (x >>> (32 - i))

/-- A function of `R11` to `R52`: its `f` and its constant. -/
structure Group where
  f : UInt32 → UInt32 → UInt32 → UInt32
  k : UInt32
  /-- The numbers of the words, and the rotations, of its sixteen calls. -/
  table : List (ℕ × UInt32)

/-- `Round`, called by one of the group, and the words in the order in which the next call
takes them. -/
def Group.round (g : Group) (s : Words) (x r : UInt32) : Words :=
  ⟨s.e, rol (s.a + g.f s.b s.c s.d + x + g.k) r + s.e, s.b, rol s.c 10, s.d⟩

/-- The sixteen calls of a group. -/
def Group.rounds (g : Group) (w : List UInt32) (s : Words) : Words :=
  g.table.foldl (fun s p => g.round s (w.getD p.1 0) p.2) s

/-- `R11`. -/
def r11 : Group where
  f := f1
  k := 0
  table := [(0, 11), (1, 14), (2, 15), (3, 12), (4, 5), (5, 8), (6, 7), (7, 9), (8, 11), (9, 13),
    (10, 14), (11, 15), (12, 6), (13, 7), (14, 9), (15, 8)]

/-- `R21`. -/
def r21 : Group where
  f := f2
  k := 0x5A827999
  table := [(7, 7), (4, 6), (13, 8), (1, 13), (10, 11), (6, 9), (15, 7), (3, 15), (12, 7), (0, 12),
    (9, 15), (5, 9), (2, 11), (14, 7), (11, 13), (8, 12)]

/-- `R31`. -/
def r31 : Group where
  f := f3
  k := 0x6ED9EBA1
  table := [(3, 11), (10, 13), (14, 6), (4, 7), (9, 14), (15, 9), (8, 13), (1, 15), (2, 14), (7, 8),
    (0, 13), (6, 6), (13, 5), (11, 12), (5, 7), (12, 5)]

/-- `R41`. -/
def r41 : Group where
  f := f4
  k := 0x8F1BBCDC
  table := [(1, 11), (9, 12), (11, 14), (10, 15), (0, 14), (8, 15), (12, 9), (4, 8), (13, 9),
    (3, 14), (7, 5), (15, 6), (14, 8), (5, 6), (6, 5), (2, 12)]

/-- `R51`. -/
def r51 : Group where
  f := f5
  k := 0xA953FD4E
  table := [(4, 9), (0, 15), (5, 5), (9, 11), (7, 6), (12, 8), (2, 13), (10, 12), (14, 5), (1, 12),
    (3, 13), (8, 14), (11, 11), (6, 8), (15, 5), (13, 6)]

/-- `R12`. -/
def r12 : Group where
  f := f5
  k := 0x50A28BE6
  table := [(5, 8), (14, 9), (7, 9), (0, 11), (9, 13), (2, 15), (11, 15), (4, 5), (13, 7), (6, 7),
    (15, 8), (8, 11), (1, 14), (10, 14), (3, 12), (12, 6)]

/-- `R22`. -/
def r22 : Group where
  f := f4
  k := 0x5C4DD124
  table := [(6, 9), (11, 13), (3, 15), (7, 7), (0, 12), (13, 8), (5, 9), (10, 11), (14, 7), (15, 7),
    (8, 12), (12, 7), (4, 6), (9, 15), (1, 13), (2, 11)]

/-- `R32`. -/
def r32 : Group where
  f := f3
  k := 0x6D703EF3
  table := [(15, 9), (5, 7), (1, 15), (3, 11), (7, 8), (14, 6), (6, 6), (9, 14), (11, 12), (8, 13),
    (12, 5), (2, 14), (10, 13), (0, 13), (4, 7), (13, 5)]

/-- `R42`. -/
def r42 : Group where
  f := f2
  k := 0x7A6D76E9
  table := [(8, 15), (6, 5), (4, 8), (1, 11), (3, 14), (11, 14), (15, 6), (0, 14), (5, 6), (12, 9),
    (2, 12), (13, 9), (9, 12), (7, 5), (10, 15), (14, 8)]

/-- `R52`. -/
def r52 : Group where
  f := f1
  k := 0
  table := [(12, 8), (15, 5), (10, 12), (4, 9), (1, 12), (5, 5), (8, 14), (7, 6), (6, 8), (2, 13),
    (13, 6), (14, 5), (0, 15), (3, 13), (9, 11), (11, 11)]

/-- `Transform`. The calls for the two copies of the words alternate in the source, and
each looks at its own copy only. -/
def transform (s : Words) (chunk : List UInt8) : Words :=
  let w := readWords uint32Codec.dec chunk
  let s1 := [r11, r21, r31, r41, r51].foldl (fun t g => g.rounds w t) s
  let s2 := [r12, r22, r32, r42, r52].foldl (fun t g => g.rounds w t) s
  ⟨s.b + s1.c + s2.d, s.c + s1.d + s2.e, s.d + s1.e + s2.a, s.e + s1.a + s2.b, s.a + s1.b + s2.c⟩

/-- How `finalize` writes the words. -/
def output (s : Words) : List UInt8 := uint32Codec.encAll [s.a, s.b, s.c, s.d, s.e]

/-- `ripemd160`. -/
def algorithm : HashAlgorithm Words := ⟨initialWords, transform, uint64Codec.enc, output⟩

/-- The length and the digest that are written can be read back. -/
theorem readable : algorithm.Readable where
  length_sizedesc := uint64Codec.length_enc
  sizedesc_injective := uint64Codec.enc_injective
  output_injective s t h := by
    have hwords : [s.a, s.b, s.c, s.d, s.e] = [t.a, t.b, t.c, t.d, t.e] :=
      uint32Codec.encAll_inj rfl h
    simp only [List.cons.injEq, and_true] at hwords
    obtain ⟨ha, hb, hc, hd, he⟩ := hwords
    exact Words.ext ha hb hc hd he

end Ripemd160

/-! ## What the classes compute -/

/-- **The digests.** For every sequence of calls, and whatever the buffer of a new object
holds, `finalize` gives the digest of all that was written since the object was created or
reset, the padding of earlier digests included. -/
theorem outputs_create {buf : List UInt8} (hbuf : buf.length = 64) (ops : List HashOp) :
    (HashObject.create Sha256.algorithm buf).outputs Sha256.algorithm ops =
        Sha256.algorithm.outputs [] ops ∧
      (HashObject.create Ripemd160.algorithm buf).outputs Ripemd160.algorithm ops =
        Ripemd160.algorithm.outputs [] ops :=
  ⟨HashObject.outputs_eq (HashObject.Holds.create hbuf) ops,
    HashObject.outputs_eq (HashObject.Holds.create hbuf) ops⟩

/-- A text in three pieces, the second one empty. -/
theorem outputs_create_pieces :
    (HashObject.create Sha256.algorithm (List.replicate 64 7)).outputs Sha256.algorithm
        [.write [97], .write [], .write [98, 99], .finalize] =
        Sha256.algorithm.outputs [] [.write [97], .write [], .write [98, 99], .finalize] ∧
      (HashObject.create Ripemd160.algorithm (List.replicate 64 7)).outputs Ripemd160.algorithm
        [.write [97], .write [], .write [98, 99], .finalize] =
        Ripemd160.algorithm.outputs [] [.write [97], .write [], .write [98, 99], .finalize] :=
  outputs_create (List.length_replicate ..) _

/-- The vector of the three letters. -/
example : Ripemd160.algorithm.digest [97, 98, 99] =
    [0x8e, 0xb2, 0x08, 0xf7, 0xe0, 0x5d, 0x98, 0x7a, 0x9b, 0x04, 0x4a, 0x8e, 0x98, 0xc6, 0xb0, 0x87,
     0xf1, 0x5a, 0x0b, 0xfc] := by
  decide +kernel

/-- **One digest for two messages.** Then the transformation gave one result for different
arguments, in calls made for these two messages. -/
theorem exists_collide_of_digest {m m' : List UInt8} (hm : m.length < 2 ^ 61)
    (hm' : m'.length < 2 ^ 61) (hne : m ≠ m') :
    (Sha256.algorithm.digest m = Sha256.algorithm.digest m' →
        ∃ c ∈ Sha256.algorithm.transforms m, ∃ c' ∈ Sha256.algorithm.transforms m',
          Collide Sha256.transform c c') ∧
      (Ripemd160.algorithm.digest m = Ripemd160.algorithm.digest m' →
        ∃ c ∈ Ripemd160.algorithm.transforms m, ∃ c' ∈ Ripemd160.algorithm.transforms m',
          Collide Ripemd160.transform c c') :=
  ⟨HashAlgorithm.exists_collide Sha256.readable hm hm' hne,
    HashAlgorithm.exists_collide Ripemd160.readable hm hm' hne⟩

/-- A message, and the message with a zero byte after it. -/
theorem exists_collide_of_digest_zero :
    (Sha256.algorithm.digest [] = Sha256.algorithm.digest [0] →
        ∃ c ∈ Sha256.algorithm.transforms [], ∃ c' ∈ Sha256.algorithm.transforms [0],
          Collide Sha256.transform c c') ∧
      (Ripemd160.algorithm.digest [] = Ripemd160.algorithm.digest [0] →
        ∃ c ∈ Ripemd160.algorithm.transforms [], ∃ c' ∈ Ripemd160.algorithm.transforms [0],
          Collide Ripemd160.transform c c') :=
  exists_collide_of_digest (by decide) (by decide) (by decide)

end AcCore.Gov
