/-
  ContactDiscovery.Lib.Bytes — bytes, the little-endian bytes of a 64-bit word, the cut of a
  buffer into chunks of a fixed size (`slice::chunks`), and numbers read from bytes. A list of
  fixed-size blocks laid end to end reads back block by block (`block_flatMap`), and a buffer of
  whole blocks is its blocks (`flatMap_block`); a word reads back from its bytes
  (`leWord_leBytes`) and they from the word (`leBytes_leWord`), and reversing them twice gives the
  word back (`bswap_bswap`). Bytes are known by their number (`leNat_inj`).
-/

import Mathlib

namespace ContactDiscovery.Lib

abbrev Byte := BitVec 8

abbrev Bytes (n : Nat) := { b : List Byte // b.length = n }

def zeros (n : Nat) : Bytes n := ⟨List.replicate n 0, List.length_replicate⟩

def repeated (n : Nat) (b : Byte) : Bytes n := ⟨List.replicate n b, List.length_replicate⟩

/-- `memcpy(dst + ptr, src, src.length)`. -/
def memcpy (dst : List Byte) (ptr : Nat) (src : List Byte) : List Byte := dst.take ptr ++ src ++ dst.drop (ptr + src.length)

theorem memcpy_length {dst src : List Byte} {ptr : Nat} (h : ptr + src.length ≤ dst.length) :
    (memcpy dst ptr src).length = dst.length := by
  rw [memcpy, List.length_append, List.length_append, List.length_take, List.length_drop]
  omega

theorem take_memcpy (dst src : List Byte) {ptr : Nat} (h : ptr ≤ dst.length) :
    (memcpy dst ptr src).take (ptr + src.length) = dst.take ptr ++ src := by
  rw [memcpy]
  exact List.take_left' (by rw [List.length_append, List.length_take, Nat.min_eq_left h])

def leBytes (w : BitVec 64) : List Byte := (List.range 8).map fun i => w.extractLsb' (8 * i) 8

@[simp] theorem length_leBytes (w : BitVec 64) : (leBytes w).length = 8 := by simp [leBytes]

@[simp] theorem leBytes_zero : leBytes 0 = List.replicate 8 0 := by decide

/-- The bytes of a word the other way round: `u64::to_be` on a little-endian machine. -/
def bswap (w : BitVec 64) : BitVec 64 := BitVec.ofFnLE fun i : Fin 64 => w.getLsbD (8 * (7 - i / 8) + i % 8)

theorem getLsbD_bswap (w : BitVec 64) {i : Nat} (h : i < 64) :
    (bswap w).getLsbD i = w.getLsbD (8 * (7 - i / 8) + i % 8) := by
  rw [bswap, BitVec.getLsbD_ofFnLE, dif_pos h]

@[simp] theorem bswap_bswap (w : BitVec 64) : bswap (bswap w) = w := by
  apply BitVec.eq_of_getLsbD_eq
  intro i hi
  have hj : 8 * (7 - i / 8) + i % 8 < 64 := by omega
  rw [getLsbD_bswap _ hi, getLsbD_bswap _ hj]
  congr 1; omega

theorem bswap_inj {v w : BitVec 64} : bswap v = bswap w ↔ v = w :=
  ⟨fun h => by rw [← bswap_bswap v, h, bswap_bswap], fun h => by rw [h]⟩

/-- The word with these bytes, lowest first; bytes that are missing are zero. -/
def leWord (b : List Byte) : BitVec 64 := BitVec.ofNat 64 (b.foldr (fun x n => x.toNat + 256 * n) 0)

theorem leWord_leBytes (w : BitVec 64) : leWord (leBytes w) = w := by
  have hw := w.isLt
  apply BitVec.eq_of_toNat_eq
  simp only [leWord, leBytes, List.range, List.range.loop, List.map_cons, List.map_nil, List.foldr_cons, List.foldr_nil,
    BitVec.toNat_ofNat, BitVec.extractLsb'_toNat, Nat.shiftRight_eq_div_pow]
  omega

theorem leBytes_leWord {b : List Byte} (h : b.length = 8) : leBytes (leWord b) = b := by
  match b, h with
  | [b₀, b₁, b₂, b₃, b₄, b₅, b₆, b₇], _ =>
    have h₀ := b₀.isLt
    have h₁ := b₁.isLt
    have h₂ := b₂.isLt
    have h₃ := b₃.isLt
    have h₄ := b₄.isLt
    have h₅ := b₅.isLt
    have h₆ := b₆.isLt
    have h₇ := b₇.isLt
    simp only [leWord, leBytes, List.range, List.range.loop, List.map_cons, List.map_nil, List.foldr_cons, List.foldr_nil,
      List.cons.injEq, and_true, ← BitVec.toNat_inj, BitVec.extractLsb'_toNat, BitVec.toNat_ofNat, Nat.shiftRight_eq_div_pow]
    omega

theorem leWord_append_zeros (b : List Byte) (n : Nat) : leWord (b ++ List.replicate n 0) = leWord b := by
  have hzeros : (List.replicate n (0 : Byte)).foldr (fun x n => x.toNat + 256 * n) 0 = 0 := by
    induction n with
    | zero => rfl
    | succ n ih => rw [List.replicate_succ, List.foldr_cons, ih]; rfl
  rw [leWord, leWord, List.foldr_append, hzeros]

theorem leBytes_bswap (w : BitVec 64) : leBytes (bswap w) = (leBytes w).reverse := by
  apply List.ext_getElem (by simp)
  intro i h₁ h₂
  rw [length_leBytes] at h₁
  rw [List.getElem_reverse]
  simp only [leBytes, List.getElem_map, List.getElem_range, List.length_map, List.length_range]
  apply BitVec.eq_of_getLsbD_eq
  intro j hj
  rw [BitVec.getLsbD_extractLsb', BitVec.getLsbD_extractLsb', getLsbD_bswap _ (by omega)]
  congr 2; omega

def beBytes (w : BitVec 64) : List Byte := (leBytes w).reverse

@[simp] theorem length_beBytes (w : BitVec 64) : (beBytes w).length = 8 := by simp [beBytes]

def beNat (b : List Byte) : Nat := b.foldl (fun n x => 256 * n + x.toNat) 0

/-- `u32::to_be_bytes`, of the low 32 bits. -/
def beBytes32 (n : Nat) : List Byte := [n / 2 ^ 24, n / 2 ^ 16, n / 2 ^ 8, n].map (BitVec.ofNat 8)

theorem beNat_beBytes32 (n : Nat) : beNat (beBytes32 n) = n % 2 ^ 32 := by
  simp only [beNat, beBytes32, List.map_cons, List.map_nil, List.foldl_cons, List.foldl_nil, BitVec.toNat_ofNat]
  omega

/-- `slice::chunks`: pieces of `n`, the last one what is left. -/
def chunks {α : Type} (n : Nat) (l : List α) : List (List α) :=
  if _h : n = 0 ∨ l = [] then [] else l.take n :: chunks n (l.drop n)
termination_by l.length
decreasing_by
  obtain ⟨hn, hl⟩ := not_or.mp _h
  have := List.length_pos_of_ne_nil hl
  simp only [List.length_drop]; omega

/-- The `i`-th block of `size` bytes of a buffer. -/
def block (size i : Nat) (buf : List Byte) : List Byte := (buf.drop (size * i)).take size

/-- Blocks of one size laid end to end: the `i`-th block is the `i`-th element's. -/
theorem block_flatMap {α : Type} {size : Nat} (f : α → List Byte) (hf : ∀ a, (f a).length = size) :
    ∀ (l : List α) (i : Nat) (h : i < l.length), block size i (l.flatMap f) = f l[i] := by
  intro l
  induction l with
  | nil => intro i h; cases h
  | cons a l ih =>
    intro i h
    cases i with
    | zero => simp [block, ← hf a]
    | succ i =>
      have hd : size * (i + 1) = (f a).length + size * i := by rw [hf a]; ring
      rw [block, List.flatMap_cons, hd, List.drop_append]
      simp only [Nat.add_sub_cancel_left, List.getElem_cons_succ]
      rw [List.drop_eq_nil_of_le (by omega), List.nil_append]
      exact ih i (by simpa using h)

/-- A buffer of whole blocks is its blocks laid end to end. -/
theorem flatMap_block {size : Nat} : ∀ (n : Nat) (buf : List Byte), buf.length = size * n →
    ((List.range n).flatMap fun i => block size i buf) = buf := by
  intro n
  induction n with
  | zero =>
    intro buf h
    exact (List.eq_nil_of_length_eq_zero h).symm
  | succ n ih =>
    intro buf h
    have hrest : (buf.drop size).length = size * n := by rw [List.length_drop, h, Nat.mul_succ]; omega
    have hnext : ∀ i, block size (i + 1) buf = block size i (buf.drop size) := by
      intro i
      rw [block, block, List.drop_drop, Nat.mul_succ, Nat.add_comm]
    rw [List.range_succ_eq_map, List.flatMap_cons, List.flatMap_map]
    simp only [Nat.succ_eq_add_one, hnext]
    rw [ih _ hrest, block, Nat.mul_zero, List.drop_zero, List.take_append_drop]

theorem take_drop_append_replicate {α : Type} (l : List α) (x : α) (k m n : Nat) :
    ∃ j, ((l ++ List.replicate k x).drop m).take n = (l.drop m).take n ++ List.replicate j x := by
  rw [List.drop_append, List.take_append, List.drop_replicate, List.take_replicate]
  exact ⟨_, rfl⟩

theorem block_append_left {size i : Nat} {a b : List Byte} (h : size * i + size ≤ a.length) :
    block size i (a ++ b) = block size i a := by
  rw [block, block, List.drop_append_of_le_length (by omega), List.take_append_of_le_length]
  rw [List.length_drop]; omega

theorem block_append_right {size i n : Nat} {a b : List Byte} (h : a.length = size * n) :
    block size (n + i) (a ++ b) = block size i b := by
  rw [block, block, Nat.mul_add, ← h, List.drop_append, List.drop_eq_nil_of_le (by omega), List.nil_append,
    Nat.add_sub_cancel_left]

theorem chunks_nil {α : Type} (n : Nat) : chunks n ([] : List α) = [] := by
  rw [chunks, dif_pos (Or.inr rfl)]

theorem chunks_ne_nil {α : Type} {n : Nat} {l : List α} (hn : n ≠ 0) (hl : l ≠ []) :
    chunks n l = l.take n :: chunks n (l.drop n) := by
  rw [chunks, dif_neg (not_or.mpr ⟨hn, hl⟩)]

/-- What is shifted in above a smaller number is added. -/
theorem toNat_or_shift {m n : Nat} {w v : BitVec m} (hw : w.toNat < 2 ^ n) (hv : v.toNat * 2 ^ n < 2 ^ m) :
    (w ||| v <<< n).toNat = w.toNat + v.toNat * 2 ^ n := by
  have hshift : (v <<< n).toNat = v.toNat <<< n := by
    rw [BitVec.toNat_shiftLeft, Nat.shiftLeft_eq, Nat.mod_eq_of_lt hv]
  rw [BitVec.toNat_or, hshift, Nat.or_comm, ← Nat.shiftLeft_add_eq_or_of_lt hw, Nat.shiftLeft_eq, Nat.add_comm]

def leNat (b : List Byte) : Nat := b.foldr (fun x n => x.toNat + 256 * n) 0

@[simp] theorem leNat_nil : leNat [] = 0 := rfl

@[simp] theorem leNat_cons (x : Byte) (b : List Byte) : leNat (x :: b) = x.toNat + 256 * leNat b := rfl

theorem leNat_append (a b : List Byte) : leNat (a ++ b) = leNat a + 256 ^ a.length * leNat b := by
  induction a with
  | nil => simp
  | cons x a ih =>
    rw [List.cons_append, leNat_cons, leNat_cons, ih, List.length_cons]
    ring

theorem leNat_lt (b : List Byte) : leNat b < 256 ^ b.length := by
  induction b with
  | nil => simp
  | cons x b ih =>
    have hx := x.isLt
    rw [leNat_cons, List.length_cons, Nat.pow_succ]
    omega

theorem leNat_drop (b : List Byte) (i : Nat) : leNat (b.drop i) = leNat b / 256 ^ i := by
  induction b generalizing i with
  | nil => simp
  | cons x b ih =>
    have hx := x.isLt
    cases i with
    | zero => simp
    | succ i =>
      rw [List.drop_succ_cons, ih, leNat_cons, Nat.pow_succ', ← Nat.div_div_eq_div_mul]
      congr 1
      omega

theorem leNat_inj {a b : List Byte} (hlen : a.length = b.length) (h : leNat a = leNat b) : a = b := by
  induction a generalizing b with
  | nil => exact (List.eq_nil_of_length_eq_zero hlen.symm).symm
  | cons x a ih =>
    cases b with
    | nil => cases hlen
    | cons y b =>
      have hx := x.isLt
      have hy := y.isLt
      rw [leNat_cons, leNat_cons] at h
      have hxy : x = y := BitVec.eq_of_toNat_eq (by omega)
      rw [hxy, ih (Nat.succ.inj hlen) (by omega)]

theorem beNat_concat (b : List Byte) (x : Byte) : beNat (b ++ [x]) = 256 * beNat b + x.toNat := by
  rw [beNat, List.foldl_append]
  rfl

theorem beNat_lt_pow (b : List Byte) : beNat b < 256 ^ b.length := by
  induction b using List.reverseRecOn with
  | nil => decide
  | append_singleton b x ih =>
    have hx := x.isLt
    rw [beNat_concat, List.length_append, List.length_singleton, Nat.pow_succ]
    omega

theorem beNat_eq_leNat_reverse (b : List Byte) : beNat b = leNat b.reverse := by
  induction b using List.reverseRecOn with
  | nil => rfl
  | append_singleton b x ih =>
    rw [beNat_concat, List.reverse_append, ih]
    exact Nat.add_comm _ _

theorem leNat_extract {m : Nat} (w : BitVec m) (n : Nat) :
    leNat ((List.range n).map fun i => w.extractLsb' (8 * i) 8) = w.toNat % 256 ^ n := by
  induction n with
  | zero => simp [Nat.mod_one]
  | succ n ih =>
    rw [List.range_succ, List.map_append, leNat_append, ih, List.length_map, List.length_range]
    simp only [List.map_cons, List.map_nil, leNat_cons, leNat_nil, BitVec.extractLsb'_toNat, Nat.shiftRight_eq_div_pow,
      Nat.mul_zero, Nat.add_zero]
    have hmod : w.toNat % 256 ^ (n + 1) = w.toNat % 256 ^ n + 256 ^ n * (w.toNat / 256 ^ n % 256) := Nat.mod_mul
    rw [show 2 ^ (8 * n) = 256 ^ n by rw [Nat.pow_mul], hmod]

end ContactDiscovery.Lib
