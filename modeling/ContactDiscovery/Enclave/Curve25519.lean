/-
  ContactDiscovery.Enclave.Curve25519 — the public key function (`curve25519_donna` and what it calls in
  `curve25519-donna-c64.c`).

  A field element is five limbs of 51 bits in words of 64, products and their sums are words of 128
  bits, and all arithmetic wraps. The C functions write to arrays of their caller; here they return
  them. A scratch array that a function leaves changed is never read again before it is written
  (`fmonty` destroys its inputs, which `cmult` then hands to the next call as outputs), so only what is
  read later is returned.
-/

import ContactDiscovery.Lib.Bytes

namespace ContactDiscovery.Enclave.Curve25519

open Lib

abbrev Limb := BitVec 64

abbrev Uint128 := BitVec 128

structure Felem where
  l0 : Limb
  l1 : Limb
  l2 : Limb
  l3 : Limb
  l4 : Limb
  deriving DecidableEq, Repr

/-- `output += in`. -/
def fsum (output input : Felem) : Felem :=
  ⟨output.l0 + input.l0, output.l1 + input.l1, output.l2 + input.l2, output.l3 + input.l3, output.l4 + input.l4⟩

def two54m152 : Limb := (1 <<< 54) - 152

def two54m8 : Limb := (1 <<< 54) - 8

/-- `out = in - out`. -/
def fdifferenceBackwards (out input : Felem) : Felem :=
  ⟨input.l0 + two54m152 - out.l0, input.l1 + two54m8 - out.l1, input.l2 + two54m8 - out.l2, input.l3 + two54m8 - out.l3,
    input.l4 + two54m8 - out.l4⟩

/-- The product of two limbs, in 128 bits. -/
def mul128 (r s : Limb) : Uint128 := r.setWidth 128 * s.setWidth 128

/-- `(limb)t`. -/
def toLimb (t : Uint128) : Limb := t.setWidth 64

/-- `(limb)t & 0x7ffffffffffff`. -/
def low51 (t : Uint128) : Limb := toLimb t &&& 0x7ffffffffffff

/-- `(limb)(t >> 51)`. -/
def high51 (t : Uint128) : Limb := toLimb (t >>> 51)

def fscalarProduct (input : Felem) (scalar : Limb) : Felem :=
  let a := mul128 input.l0 scalar
  let output0 := low51 a
  let a := mul128 input.l1 scalar + (high51 a).setWidth 128
  let output1 := low51 a
  let a := mul128 input.l2 scalar + (high51 a).setWidth 128
  let output2 := low51 a
  let a := mul128 input.l3 scalar + (high51 a).setWidth 128
  let output3 := low51 a
  let a := mul128 input.l4 scalar + (high51 a).setWidth 128
  let output4 := low51 a
  -- the multiplication is one of 128 bits, and its result is cut for the addition
  ⟨output0 + toLimb ((a >>> 51) * 19), output1, output2, output3, output4⟩

/-- The carries at the end of `fmul` and of every round of `fsquare_times`. -/
def carry (t0 t1 t2 t3 t4 : Uint128) : Felem :=
  let r0 := low51 t0
  let c := high51 t0
  let t1 := t1 + c.setWidth 128
  let r1 := low51 t1
  let c := high51 t1
  let t2 := t2 + c.setWidth 128
  let r2 := low51 t2
  let c := high51 t2
  let t3 := t3 + c.setWidth 128
  let r3 := low51 t3
  let c := high51 t3
  let t4 := t4 + c.setWidth 128
  let r4 := low51 t4
  let c := high51 t4
  let r0 := r0 + c * 19
  let c := r0 >>> 51
  let r0 := r0 &&& 0x7ffffffffffff
  let r1 := r1 + c
  let c := r1 >>> 51
  let r1 := r1 &&& 0x7ffffffffffff
  let r2 := r2 + c
  ⟨r0, r1, r2, r3, r4⟩

def fmul (input2 input : Felem) : Felem :=
  let r0 := input.l0
  let r1 := input.l1
  let r2 := input.l2
  let r3 := input.l3
  let r4 := input.l4
  let s0 := input2.l0
  let s1 := input2.l1
  let s2 := input2.l2
  let s3 := input2.l3
  let s4 := input2.l4
  let t0 := mul128 r0 s0
  let t1 := mul128 r0 s1 + mul128 r1 s0
  let t2 := mul128 r0 s2 + mul128 r2 s0 + mul128 r1 s1
  let t3 := mul128 r0 s3 + mul128 r3 s0 + mul128 r1 s2 + mul128 r2 s1
  let t4 := mul128 r0 s4 + mul128 r4 s0 + mul128 r3 s1 + mul128 r1 s3 + mul128 r2 s2
  let r4 := r4 * 19
  let r1 := r1 * 19
  let r2 := r2 * 19
  let r3 := r3 * 19
  let t0 := t0 + (mul128 r4 s1 + mul128 r1 s4 + mul128 r2 s3 + mul128 r3 s2)
  let t1 := t1 + (mul128 r4 s2 + mul128 r2 s4 + mul128 r3 s3)
  let t2 := t2 + (mul128 r4 s3 + mul128 r3 s4)
  let t3 := t3 + mul128 r4 s4
  carry t0 t1 t2 t3 t4

/-- A round of `fsquare_times`. -/
def fsquare (r : Felem) : Felem :=
  let d0 := r.l0 * 2
  let d1 := r.l1 * 2
  let d2 := r.l2 * 2 * 19
  let d419 := r.l4 * 19
  let d4 := d419 * 2
  let t0 := mul128 r.l0 r.l0 + mul128 d4 r.l1 + mul128 d2 r.l3
  let t1 := mul128 d0 r.l1 + mul128 d4 r.l2 + mul128 r.l3 (r.l3 * 19)
  let t2 := mul128 d0 r.l2 + mul128 r.l1 r.l1 + mul128 d4 r.l3
  let t3 := mul128 d0 r.l3 + mul128 d1 r.l2 + mul128 r.l4 d419
  let t4 := mul128 d0 r.l4 + mul128 d1 r.l3 + mul128 r.l2 r.l2
  carry t0 t1 t2 t3 t4

/-- The count is tested after a round: zero is the most rounds, not the fewest. -/
def fsquareTimes (input : Felem) (count : Limb) : Felem := fsquare^[(count - 1).toNat + 1] input

def byteAt (b : List Byte) (i : Nat) : Limb := (b.getD i 0).setWidth 64

/-- `load_limb(in + i)`. -/
def loadLimb (input : List Byte) (i : Nat) : Limb :=
  byteAt input i ||| (byteAt input (i + 1) <<< 8) ||| (byteAt input (i + 2) <<< 16) ||| (byteAt input (i + 3) <<< 24) |||
    (byteAt input (i + 4) <<< 32) ||| (byteAt input (i + 5) <<< 40) ||| (byteAt input (i + 6) <<< 48) |||
    (byteAt input (i + 7) <<< 56)

def storeLimb (input : Limb) : List Byte :=
  [input, input >>> 8, input >>> 16, input >>> 24, input >>> 32, input >>> 40, input >>> 48, input >>> 56].map
    fun w => (w &&& 0xff).setWidth 8

def fexpand (input : List Byte) : Felem :=
  ⟨loadLimb input 0 &&& 0x7ffffffffffff, (loadLimb input 6 >>> 3) &&& 0x7ffffffffffff,
    (loadLimb input 12 >>> 6) &&& 0x7ffffffffffff, (loadLimb input 19 >>> 1) &&& 0x7ffffffffffff,
    (loadLimb input 24 >>> 12) &&& 0x7ffffffffffff⟩

/-- `uint128_t t[5]`. -/
structure Wide where
  t0 : Uint128
  t1 : Uint128
  t2 : Uint128
  t3 : Uint128
  t4 : Uint128

/-- The carries of `fcontract`, from each word to the next. -/
def Wide.carryUp (t : Wide) : Wide :=
  let t1 := t.t1 + t.t0 >>> 51
  let t0 := t.t0 &&& 0x7ffffffffffff
  let t2 := t.t2 + t1 >>> 51
  let t1 := t1 &&& 0x7ffffffffffff
  let t3 := t.t3 + t2 >>> 51
  let t2 := t2 &&& 0x7ffffffffffff
  let t4 := t.t4 + t3 >>> 51
  let t3 := t3 &&& 0x7ffffffffffff
  ⟨t0, t1, t2, t3, t4⟩

/-- The same, and from the last word to the first. -/
def Wide.carryRound (t : Wide) : Wide :=
  let t := t.carryUp
  { t with t0 := t.t0 + (19 : Uint128) * (t.t4 >>> 51), t4 := t.t4 &&& 0x7ffffffffffff }

/-- The rest of `fcontract`'s arithmetic: 19 is added to see whether the number is below the prime, and
    subtracted again, both with carries. -/
def Wide.reduce (t : Wide) : Wide :=
  let t : Wide := { t with t0 := t.t0 + 19 }
  let t := t.carryRound
  let t : Wide := ⟨t.t0 + (0x8000000000000 - 19), t.t1 + (0x8000000000000 - 1), t.t2 + (0x8000000000000 - 1),
    t.t3 + (0x8000000000000 - 1), t.t4 + (0x8000000000000 - 1)⟩
  let t := t.carryUp
  { t with t4 := t.t4 &&& 0x7ffffffffffff }

def fcontract (input : Felem) : List Byte :=
  let t : Wide := ⟨input.l0.setWidth 128, input.l1.setWidth 128, input.l2.setWidth 128, input.l3.setWidth 128,
    input.l4.setWidth 128⟩
  let t := t.carryRound
  let t := t.carryRound
  let t := t.reduce
  storeLimb (toLimb (t.t0 ||| t.t1 <<< 51)) ++ storeLimb (toLimb (t.t1 >>> 13 ||| t.t2 <<< 38)) ++
    storeLimb (toLimb (t.t2 >>> 26 ||| t.t3 <<< 25)) ++ storeLimb (toLimb (t.t3 >>> 39 ||| t.t4 <<< 12))

structure Coords where
  x : Felem
  z : Felem

/-- `2Q` and `Q + Q'`, of `Q`, `Q'` and `Q - Q'`. -/
def fmonty (q q' : Coords) (qmqp : Felem) : Coords × Coords :=
  let origx := q.x
  let x := fsum q.x q.z
  let z := fdifferenceBackwards q.z origx
  let origxprime := q'.x
  let xprime := fsum q'.x q'.z
  let zprime := fdifferenceBackwards q'.z origxprime
  let xxprime := fmul xprime z
  let zzprime := fmul x zprime
  let origxprime := xxprime
  let xxprime := fsum xxprime zzprime
  let zzprime := fdifferenceBackwards zzprime origxprime
  let x3 := fsquareTimes xxprime 1
  let zzzprime := fsquareTimes zzprime 1
  let z3 := fmul zzzprime qmqp
  let xx := fsquareTimes x 1
  let zz := fsquareTimes z 1
  let x2 := fmul xx zz
  let zz := fdifferenceBackwards zz xx
  let zzz := fscalarProduct zz 121665
  let zzz := fsum zzz xx
  let z2 := fmul zz zzz
  (⟨x2, z2⟩, ⟨x3, z3⟩)

def swapLimb (swap a b : Limb) : Limb × Limb :=
  let x := swap &&& (a ^^^ b)
  (a ^^^ x, b ^^^ x)

def swapConditional (a b : Felem) (iswap : Limb) : Felem × Felem :=
  let swap := -iswap
  let s0 := swapLimb swap a.l0 b.l0
  let s1 := swapLimb swap a.l1 b.l1
  let s2 := swapLimb swap a.l2 b.l2
  let s3 := swapLimb swap a.l3 b.l3
  let s4 := swapLimb swap a.l4 b.l4
  (⟨s0.1, s1.1, s2.1, s3.1, s4.1⟩, ⟨s0.2, s1.2, s2.2, s3.2, s4.2⟩)

def swapCoords (nq nqpq : Coords) (bit : Limb) : Coords × Coords :=
  let x := swapConditional nq.x nqpq.x bit
  let z := swapConditional nq.z nqpq.z bit
  (⟨x.1, z.1⟩, ⟨x.2, z.2⟩)

/-- The inner loop's body: `nQ` and `(n + 1)Q`, and the byte that is shifted. -/
def cmultBit (q : Felem) (s : (Coords × Coords) × Byte) : (Coords × Coords) × Byte :=
  let bit : Limb := (s.2 >>> 7).setWidth 64
  let swapped := swapCoords s.1.1 s.1.2 bit
  let next := fmonty swapped.1 swapped.2 q
  (swapCoords next.1 next.2 bit, s.2 <<< 1)

def felemZero : Felem := ⟨0, 0, 0, 0, 0⟩

def felemOne : Felem := ⟨1, 0, 0, 0, 0⟩

/-- The outer loop takes the bytes of `n` from the last one on. -/
def cmult (n : List Byte) (q : Felem) : Coords :=
  (n.reverse.foldl (fun nq byte => ((cmultBit q)^[8] (nq, byte)).1) (⟨felemOne, felemZero⟩, ⟨q, felemOne⟩)).1

def crecip (z : Felem) : Felem :=
  let a := fsquareTimes z 1
  let t0 := fsquareTimes a 2
  let b := fmul t0 z
  let a := fmul b a
  let t0 := fsquareTimes a 1
  let b := fmul t0 b
  let t0 := fsquareTimes b 5
  let b := fmul t0 b
  let t0 := fsquareTimes b 10
  let c := fmul t0 b
  let t0 := fsquareTimes c 20
  let t0 := fmul t0 c
  let t0 := fsquareTimes t0 10
  let b := fmul t0 b
  let t0 := fsquareTimes b 50
  let c := fmul t0 b
  let t0 := fsquareTimes c 100
  let t0 := fmul t0 c
  let t0 := fsquareTimes t0 50
  let t0 := fmul t0 b
  let t0 := fsquareTimes t0 5
  fmul t0 a

def clamp (secret : List Byte) : List Byte :=
  let e := secret.modify 0 (· &&& 248)
  let e := e.modify 31 (· &&& 127)
  e.modify 31 (· ||| 64)

def curve25519Donna (secret basepoint : List Byte) : List Byte :=
  let e := clamp secret
  let bp := fexpand basepoint
  let xz := cmult e bp
  let zmone := crecip xz.z
  let z := fmul xz.x zmone
  fcontract z

end ContactDiscovery.Enclave.Curve25519
