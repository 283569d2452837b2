import Mathlib

/-!
# SHA-1

The SHA-1 hash of FIPS 180-4, on a list of bytes, with its 160-bit digest read as a big-endian
number. The message is padded to whole 64-byte blocks (`pad`); each block is read as sixteen
big-endian words, stretched to eighty (`schedule`), and mixed into the five-word state by eighty
rounds (`round`).

The digest is a number below `2 ^ 160` (`sum_lt`), and `sum` agrees with the standard's test
vector for `"abc"`.
-/

namespace WeaveNet.Lib.Sha1

/-- Rotate a word left. -/
def rotl (x n : UInt32) : UInt32 := (x <<< n) ||| (x >>> (32 - n))

/-- The message, a one bit, zeros up to 56 bytes past a multiple of 64, and the message's length
in bits as 8 big-endian bytes. -/
def pad (msg : List UInt8) : List UInt8 :=
  let len := msg.length
  msg ++ [(0x80 : UInt8)] ++ List.replicate ((119 - len % 64) % 64) (0 : UInt8) ++
    (List.range 8).reverse.map (fun i => ((len * 8) >>> (8 * i)).toUInt8)

/-- Bytes read four at a time as big-endian words. -/
def words : List UInt8 → List UInt32
  | b0 :: b1 :: b2 :: b3 :: rest =>
    ((b0.toUInt32 <<< 24) ||| (b1.toUInt32 <<< 16) ||| (b2.toUInt32 <<< 8) ||| b3.toUInt32) ::
      words rest
  | _ => []

/-- The message schedule: `n` more words, each the rotated sum of four before it. -/
def schedule (w : List UInt32) : Nat → List UInt32
  | 0 => w
  | n + 1 =>
    let t := w.length
    schedule (w ++ [rotl (w.getD (t - 3) 0 ^^^ w.getD (t - 8) 0 ^^^ w.getD (t - 14) 0 ^^^
      w.getD (t - 16) 0) 1]) n

/-- The five words of the hash's state. -/
abbrev State := UInt32 × UInt32 × UInt32 × UInt32 × UInt32

/-- Round `t` of a block, with its word of the schedule. -/
def round (h : State) (tw : UInt32 × Nat) : State :=
  let (a, b, c, d, e) := h
  let (wt, t) := tw
  let (f, k) : UInt32 × UInt32 :=
    if t < 20 then ((b &&& c) ||| (~~~b &&& d), 0x5A827999)
    else if t < 40 then (b ^^^ c ^^^ d, 0x6ED9EBA1)
    else if t < 60 then ((b &&& c) ||| (b &&& d) ||| (c &&& d), 0x8F1BBCDC)
    else (b ^^^ c ^^^ d, 0xCA62C1D6)
  (rotl a 5 + f + e + k + wt, a, rotl b 30, c, d)

/-- One 64-byte block: eighty rounds, added to the state. -/
def block (h : State) (chunk : List UInt8) : State :=
  let (a, b, c, d, e) := ((schedule (words chunk) 64).zipIdx).foldl round h
  let (h0, h1, h2, h3, h4) := h
  (h0 + a, h1 + b, h2 + c, h3 + d, h4 + e)

/-- The blocks of a padded message in turn, with a budget of turns: each takes 64 bytes, so
the message's length is enough. -/
def blocks : Nat → List UInt8 → State → State
  | 0, _, h => h
  | n + 1, msg, h => if msg.isEmpty then h else blocks n (msg.drop 64) (block h (msg.take 64))

/-- The SHA-1 sum of a message, as the number its 20 bytes spell big-endian. -/
def sum (msg : List UInt8) : Nat :=
  let p := pad msg
  let (h0, h1, h2, h3, h4) :=
    blocks p.length p (0x67452301, 0xEFCDAB89, 0x98BADCFE, 0x10325476, 0xC3D2E1F0)
  h0.toNat * 2 ^ 128 + h1.toNat * 2 ^ 96 + h2.toNat * 2 ^ 64 + h3.toNat * 2 ^ 32 + h4.toNat

/-- A digest has 160 bits. -/
theorem sum_lt (msg : List UInt8) : sum msg < 2 ^ 160 := by
  rw [sum]
  generalize blocks _ _ _ = h
  obtain ⟨h0, h1, h2, h3, h4⟩ := h
  have := h0.toNat_lt
  have := h1.toNat_lt
  have := h2.toNat_lt
  have := h3.toNat_lt
  have := h4.toNat_lt
  dsimp only
  omega

example : sum "abc".toUTF8.toList = 0xa9993e364706816aba3e25717850c26c9cd0d89d := by
  decide +kernel

end WeaveNet.Lib.Sha1
