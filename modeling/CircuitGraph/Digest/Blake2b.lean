/-
  The BLAKE2b digest.

  A message is cut into blocks of sixteen words of sixty-four
  bits, the last one filled with zeros.
-/

---- Words ----

namespace CircuitGraph

namespace Blake2b

/- Sixteen words: a block of the message or the working state. -/
structure Block where
  w0 : UInt64
  w1 : UInt64
  w2 : UInt64
  w3 : UInt64
  w4 : UInt64
  w5 : UInt64
  w6 : UInt64
  w7 : UInt64
  w8 : UInt64
  w9 : UInt64
  w10 : UInt64
  w11 : UInt64
  w12 : UInt64
  w13 : UInt64
  w14 : UInt64
  w15 : UInt64
  deriving Inhabited

/- The eight words that are carried from block to block. -/
structure Chain where
  h0 : UInt64
  h1 : UInt64
  h2 : UInt64
  h3 : UInt64
  h4 : UInt64
  h5 : UInt64
  h6 : UInt64
  h7 : UInt64
  deriving Inhabited

def rotate (w n : UInt64) : UInt64 :=
  (w >>> n) ||| (w <<< (64 - n))

/- Four words of the state after the mixing step with two words of the message. -/
structure Mixed where
  a : UInt64
  b : UInt64
  c : UInt64
  d : UInt64

@[inline] def mix (a b c d x y : UInt64) : Mixed :=
  let a := a + b + x
  let d := rotate (d ^^^ a) 32
  let c := c + d
  let b := rotate (b ^^^ c) 24
  let a := a + b + y
  let d := rotate (d ^^^ a) 16
  let c := c + d
  let b := rotate (b ^^^ c) 63
  ⟨a, b, c, d⟩

---- Rounds ----

/-
  One round: the mixing step on the four columns and then on
  the four diagonals of the state.
-/
def round (v : Block) (m : Block) : Block :=
  let p0 := mix v.w0 v.w4 v.w8 v.w12 m.w0 m.w1
  let p1 := mix v.w1 v.w5 v.w9 v.w13 m.w2 m.w3
  let p2 := mix v.w2 v.w6 v.w10 v.w14 m.w4 m.w5
  let p3 := mix v.w3 v.w7 v.w11 v.w15 m.w6 m.w7
  let q0 := mix p0.a p1.b p2.c p3.d m.w8 m.w9
  let q1 := mix p1.a p2.b p3.c p0.d m.w10 m.w11
  let q2 := mix p2.a p3.b p0.c p1.d m.w12 m.w13
  let q3 := mix p3.a p0.b p1.c p2.d m.w14 m.w15
  ⟨q0.a, q1.a, q2.a, q3.a, q3.b, q0.b, q1.b, q2.b, q2.c, q3.c, q0.c, q1.c, q1.d, q2.d, q3.d, q0.d⟩

/- The orders in which the twelve rounds take the words of a block. -/
def schedules (m : Block) : List Block :=
  [
    ⟨m.w0, m.w1, m.w2, m.w3, m.w4, m.w5, m.w6, m.w7, m.w8, m.w9, m.w10, m.w11, m.w12, m.w13,
      m.w14, m.w15⟩,
    ⟨m.w14, m.w10, m.w4, m.w8, m.w9, m.w15, m.w13, m.w6, m.w1, m.w12, m.w0, m.w2, m.w11,
      m.w7, m.w5, m.w3⟩,
    ⟨m.w11, m.w8, m.w12, m.w0, m.w5, m.w2, m.w15, m.w13, m.w10, m.w14, m.w3, m.w6, m.w7,
      m.w1, m.w9, m.w4⟩,
    ⟨m.w7, m.w9, m.w3, m.w1, m.w13, m.w12, m.w11, m.w14, m.w2, m.w6, m.w5, m.w10, m.w4, m.w0,
      m.w15, m.w8⟩,
    ⟨m.w9, m.w0, m.w5, m.w7, m.w2, m.w4, m.w10, m.w15, m.w14, m.w1, m.w11, m.w12, m.w6, m.w8,
      m.w3, m.w13⟩,
    ⟨m.w2, m.w12, m.w6, m.w10, m.w0, m.w11, m.w8, m.w3, m.w4, m.w13, m.w7, m.w5, m.w15,
      m.w14, m.w1, m.w9⟩,
    ⟨m.w12, m.w5, m.w1, m.w15, m.w14, m.w13, m.w4, m.w10, m.w0, m.w7, m.w6, m.w3, m.w9, m.w2,
      m.w8, m.w11⟩,
    ⟨m.w13, m.w11, m.w7, m.w14, m.w12, m.w1, m.w3, m.w9, m.w5, m.w0, m.w15, m.w4, m.w8, m.w6,
      m.w2, m.w10⟩,
    ⟨m.w6, m.w15, m.w14, m.w9, m.w11, m.w3, m.w0, m.w8, m.w12, m.w2, m.w13, m.w7, m.w1, m.w4,
      m.w10, m.w5⟩,
    ⟨m.w10, m.w2, m.w8, m.w4, m.w7, m.w6, m.w1, m.w5, m.w15, m.w11, m.w9, m.w14, m.w3, m.w12,
      m.w13, m.w0⟩,
    ⟨m.w0, m.w1, m.w2, m.w3, m.w4, m.w5, m.w6, m.w7, m.w8, m.w9, m.w10, m.w11, m.w12, m.w13,
      m.w14, m.w15⟩,
    ⟨m.w14, m.w10, m.w4, m.w8, m.w9, m.w15, m.w13, m.w6, m.w1, m.w12, m.w0, m.w2, m.w11,
      m.w7, m.w5, m.w3⟩
  ]

def start : Chain :=
  ⟨0x6a09e667f3bcc908, 0xbb67ae8584caa73b, 0x3c6ef372fe94f82b, 0xa54ff53a5f1d36f1,
    0x510e527fade682d1, 0x9b05688c2b3e6c1f, 0x1f83d9abfb41bd6b, 0x5be0cd19137e2179⟩

/-
  Mixes a block into the chain.  The count of the bytes so far
  and the mark of the last block enter the state too.
-/
def compress (c : Chain) (m : Block) (count : UInt64) (last : Bool) : Chain :=
  let s := start
  let v : Block :=
    ⟨c.h0, c.h1, c.h2, c.h3, c.h4, c.h5, c.h6, c.h7, s.h0, s.h1, s.h2, s.h3,
      s.h4 ^^^ count, s.h5, (if last then ~~~s.h6 else s.h6), s.h7⟩
  let v := (schedules m).foldl round v
  ⟨c.h0 ^^^ v.w0 ^^^ v.w8, c.h1 ^^^ v.w1 ^^^ v.w9, c.h2 ^^^ v.w2 ^^^ v.w10,
    c.h3 ^^^ v.w3 ^^^ v.w11, c.h4 ^^^ v.w4 ^^^ v.w12, c.h5 ^^^ v.w5 ^^^ v.w13,
    c.h6 ^^^ v.w6 ^^^ v.w14, c.h7 ^^^ v.w7 ^^^ v.w15⟩

---- Messages ----

def wordOf (bytes : List UInt8) : UInt64 :=
  bytes.foldr (fun b w => (w <<< 8) ||| b.toUInt64) 0

def bytesOf (w : UInt64) : List UInt8 :=
  (List.range 8).map (fun i => (w >>> (8 * i).toUInt64).toUInt8)

def wordAt (bytes : List UInt8) (i : Nat) : UInt64 :=
  wordOf ((bytes.drop (8 * i)).take 8)

def blockOf (bytes : List UInt8) : Block :=
  let w := wordAt bytes
  ⟨w 0, w 1, w 2, w 3, w 4, w 5, w 6, w 7, w 8, w 9, w 10, w 11, w 12, w 13, w 14, w 15⟩

def absorb (c : Chain) (count : Nat) (bytes : List UInt8) : Chain :=
  if h : 128 < bytes.length then
    absorb (compress c (blockOf (bytes.take 128)) (count + 128).toUInt64 false) (count + 128)
      (bytes.drop 128)
  else compress c (blockOf bytes) (count + bytes.length).toUInt64 true
termination_by bytes.length
decreasing_by simp; omega

def digest (size : Nat) (bytes : List UInt8) : List UInt8 :=
  let s := start
  let c := absorb { s with h0 := s.h0 ^^^ 0x01010000 ^^^ size.toUInt64 } 0 bytes
  ([c.h0, c.h1, c.h2, c.h3, c.h4, c.h5, c.h6, c.h7].flatMap bytesOf).take size

end Blake2b

def digest16 (bytes : List UInt8) : List UInt8 :=
  Blake2b.digest 16 bytes

end CircuitGraph
