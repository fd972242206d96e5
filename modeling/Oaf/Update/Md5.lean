/-
# The digest of a download

`fwx_md5` is the MD5 of RFC 1321, with its four rounds as one loop: the words of the state move on by one place
with each step, and the number of the step gives the function, the word and the shift.  The end of the message
is padded in a block of 64 bytes, or in two when the length does not fit behind it.

* `md5Transform_eq`: the loop is the four rounds.
* `md5Blocks_eq`: the whole blocks, and what is left.
* `fwxMd5_eq`: **the digest is the one of the RFC**, for every message.
-/
import Oaf.Lib.Md5

namespace Oaf

open Md5 (Registers)

/-! ## 1. One block -/

def MD5_F (x y z : UInt32) : UInt32 := z ^^^ (x &&& (y ^^^ z))
def MD5_G (x y z : UInt32) : UInt32 := y ^^^ (z &&& (x ^^^ y))
def MD5_H (x y z : UInt32) : UInt32 := x ^^^ y ^^^ z
def MD5_I (x y z : UInt32) : UInt32 := y ^^^ (x ||| ~~~z)
def MD5_ROTL (x n : UInt32) : UInt32 := (x <<< n) ||| (x >>> (32 - n))

/-- `md5_k`. -/
def md5K : List UInt32 :=
  [0xd76aa478, 0xe8c7b756, 0x242070db, 0xc1bdceee,
   0xf57c0faf, 0x4787c62a, 0xa8304613, 0xfd469501,
   0x698098d8, 0x8b44f7af, 0xffff5bb1, 0x895cd7be,
   0x6b901122, 0xfd987193, 0xa679438e, 0x49b40821,
   0xf61e2562, 0xc040b340, 0x265e5a51, 0xe9b6c7aa,
   0xd62f105d, 0x02441453, 0xd8a1e681, 0xe7d3fbc8,
   0x21e1cde6, 0xc33707d6, 0xf4d50d87, 0x455a14ed,
   0xa9e3e905, 0xfcefa3f8, 0x676f02d9, 0x8d2a4c8a,
   0xfffa3942, 0x8771f681, 0x6d9d6122, 0xfde5380c,
   0xa4beea44, 0x4bdecfa9, 0xf6bb4b60, 0xbebfbc70,
   0x289b7ec6, 0xeaa127fa, 0xd4ef3085, 0x04881d05,
   0xd9d4d039, 0xe6db99e5, 0x1fa27cf8, 0xc4ac5665,
   0xf4292244, 0x432aff97, 0xab9423a7, 0xfc93a039,
   0x655b59c3, 0x8f0ccc92, 0xffeff47d, 0x85845dd1,
   0x6fa87e4f, 0xfe2ce6e0, 0xa3014314, 0x4e0811a1,
   0xf7537e82, 0xbd3af235, 0x2ad7d2bb, 0xeb86d391]

/-- `md5_s`. -/
def md5S : List UInt32 :=
  [7, 12, 17, 22, 7, 12, 17, 22, 7, 12, 17, 22, 7, 12, 17, 22,
   5, 9, 14, 20, 5, 9, 14, 20, 5, 9, 14, 20, 5, 9, 14, 20,
   4, 11, 16, 23, 4, 11, 16, 23, 4, 11, 16, 23, 4, 11, 16, 23,
   6, 10, 15, 21, 6, 10, 15, 21, 6, 10, 15, 21, 6, 10, 15, 21]

/-- `md5_load_le32`. -/
def md5LoadLe32 (p : List UInt8) : UInt32 :=
  (p.getD 0 0).toUInt32 ||| (p.getD 1 0).toUInt32 <<< 8 ||| (p.getD 2 0).toUInt32 <<< 16 |||
    (p.getD 3 0).toUInt32 <<< 24

/-- `md5_store_le32`: the four bytes that it stores. -/
def md5StoreLe32 (v : UInt32) : List UInt8 :=
  [v.toUInt8, (v >>> 8).toUInt8, (v >>> 16).toUInt8, (v >>> 24).toUInt8]

/-- The body of the loop of `md5_transform`. -/
def md5Step (x : List UInt32) (s : Registers) (i : Nat) : Registers :=
  let (f, g) :=
    if i < 16 then (MD5_F s.b s.c s.d, i)
    else if i < 32 then (MD5_G s.b s.c s.d, (5 * i + 1) &&& 15)
    else if i < 48 then (MD5_H s.b s.c s.d, (3 * i + 5) &&& 15)
    else (MD5_I s.b s.c s.d, (7 * i) &&& 15)
  let f := f + s.a + md5K.getD i 0 + x.getD g 0
  { a := s.d, d := s.c, c := s.b, b := s.b + MD5_ROTL f (md5S.getD i 0) }

/-- `md5_transform`. -/
def md5Transform (state : Registers) (block : List UInt8) : Registers :=
  let x := (List.range 16).map fun i => md5LoadLe32 (block.drop (i * 4))
  let s := (List.range 64).foldl (md5Step x) state
  ⟨state.a + s.a, state.b + s.b, state.c + s.c, state.d + s.d⟩

/-! ## 2. The message -/

/-- The loop over the whole blocks: the state, and the rest of the message. -/
def md5Blocks (state : Registers) (data : List UInt8) : Registers × List UInt8 :=
  if 64 ≤ data.length then md5Blocks (md5Transform state data) (data.drop 64) else (state, data)
termination_by data.length
decreasing_by
  rw [List.length_drop]
  omega

/-- `memcpy(block + i, src, n)`. -/
def copyInto (block : List UInt8) (i : Nat) (src : List UInt8) : List UInt8 :=
  block.take i ++ src ++ block.drop (i + src.length)

/-- What is behind the loop: the rest of the message in one block or in two, with the length at the end. -/
def md5Tail (state : Registers) (data : List UInt8) (bitLen : UInt64) : Registers :=
  let len := data.length
  let block := (copyInto (List.replicate 64 0) 0 data).set len 0x80
  let rem := len + 1
  let (state, block) :=
    if 56 < rem then (md5Transform state block, List.replicate 64 0) else (state, block)
  let block := copyInto block 56 (md5StoreLe32 bitLen.toUInt32)
  let block := copyInto block 60 (md5StoreLe32 (bitLen >>> 32).toUInt32)
  md5Transform state block

/-- `fwx_md5`. -/
def fwxMd5 (data : List UInt8) : List UInt8 :=
  let bitLen : UInt64 := UInt64.ofNat data.length * 8
  let (state, data) := md5Blocks ⟨0x67452301, 0xefcdab89, 0x98badcfe, 0x10325476⟩ data
  let state := md5Tail state data bitLen
  md5StoreLe32 state.a ++ md5StoreLe32 state.b ++ md5StoreLe32 state.c ++ md5StoreLe32 state.d

/-- The digest of `abc`. -/
example : fwxMd5 [97, 98, 99] =
    [0x90, 0x01, 0x50, 0x98, 0x3c, 0xd2, 0x4f, 0xb0, 0xd6, 0x96, 0x3f, 0x7d, 0x28, 0xe1, 0x7f, 0x72] := by
  decide +kernel

/-! ## 3. The rounds -/

theorem MD5_F_eq (x y z : UInt32) : MD5_F x y z = Md5.F x y z := by
  refine UInt32.toBitVec_inj.mp (BitVec.eq_of_getLsbD_eq fun i hi => ?_)
  simp only [MD5_F, Md5.F, UInt32.toBitVec_xor, UInt32.toBitVec_and, UInt32.toBitVec_or, UInt32.toBitVec_not,
    BitVec.getLsbD_xor, BitVec.getLsbD_and, BitVec.getLsbD_or, BitVec.getLsbD_not, hi]
  cases x.toBitVec.getLsbD i <;> cases y.toBitVec.getLsbD i <;> cases z.toBitVec.getLsbD i <;> rfl

theorem MD5_G_eq (x y z : UInt32) : MD5_G x y z = Md5.G x y z := by
  refine UInt32.toBitVec_inj.mp (BitVec.eq_of_getLsbD_eq fun i hi => ?_)
  simp only [MD5_G, Md5.G, UInt32.toBitVec_xor, UInt32.toBitVec_and, UInt32.toBitVec_or, UInt32.toBitVec_not,
    BitVec.getLsbD_xor, BitVec.getLsbD_and, BitVec.getLsbD_or, BitVec.getLsbD_not, hi]
  cases x.toBitVec.getLsbD i <;> cases y.toBitVec.getLsbD i <;> cases z.toBitVec.getLsbD i <;> rfl

theorem MD5_ROTL_eq (x : UInt32) {n : UInt32} (hpos : 0 < n.toNat) (hlt : n.toNat < 32) :
    MD5_ROTL x n = Md5.rotate x n.toNat := by
  have hleft : (n.toBitVec % 32).toNat = n.toNat := by
    rw [BitVec.toNat_umod]
    exact Nat.mod_eq_of_lt hlt
  have hright : ((32 - n).toBitVec % 32).toNat = 32 - n.toNat := by
    have hsub : (32 - n).toNat = 32 - n.toNat := UInt32.toNat_sub_of_le _ _ (UInt32.le_iff_toNat_le.mpr hlt.le)
    rw [BitVec.toNat_umod]
    show (32 - n).toNat % 32 = _
    omega
  refine UInt32.toBitVec_inj.mp ?_
  rw [MD5_ROTL, Md5.rotate, BitVec.rotateLeft_def, Nat.mod_eq_of_lt hlt, UInt32.toBitVec_or, UInt32.toBitVec_shiftLeft,
    UInt32.toBitVec_shiftRight, BitVec.shiftLeft_eq', BitVec.ushiftRight_eq', hleft, hright]

theorem md5K_eq {i : Nat} (h : i < 64) : md5K.getD i 0 = Md5.T (i + 1) := by
  have hcheck : ∀ i < 64, Sine.checkDigits (i + 1) (md5K.getD i 0).toNat = true := by decide +kernel
  exact (Md5.T_eq (Nat.succ_pos i) h (hcheck i h)).symm

/-- The operation of the RFC that a step of the loop is. -/
def md5Operation (i : Nat) : Md5.Operation where
  order := [Md5.Order.abcd, .dabc, .cdab, .bcda].getD (i % 4) .abcd
  k := if i < 16 then i else if i < 32 then (5 * i + 1) &&& 15 else if i < 48 then (3 * i + 5) &&& 15
    else (7 * i) &&& 15
  s := (md5S.getD i 0).toNat
  i := i + 1

variable {x : List UInt32}

/-- **One step** of the loop. -/
theorem md5Step_eq {f : UInt32 → UInt32 → UInt32 → UInt32} {i : Nat} (hi : i < 64) (s : Registers)
    (hf : (md5Step x s i).b = s.b + MD5_ROTL (f s.b s.c s.d + s.a + md5K.getD i 0 + x.getD (md5Operation i).k 0)
      (md5S.getD i 0)) :
    md5Step x s i = Md5.turn f x s (md5Operation i) := by
  have hshift : ∀ i < 64, 0 < (md5S.getD i 0).toNat ∧ (md5S.getD i 0).toNat < 32 := by decide
  have hsum : f s.b s.c s.d + s.a + md5K.getD i 0 + x.getD (md5Operation i).k 0 =
      s.a + f s.b s.c s.d + x.getD (md5Operation i).k 0 + md5K.getD i 0 := by ac_rfl
  rw [hsum, MD5_ROTL_eq _ (hshift i hi).1 (hshift i hi).2, md5K_eq hi] at hf
  have hstep : md5Step x s i = ⟨s.d, (md5Step x s i).b, s.b, s.c⟩ := rfl
  rw [hstep, hf]
  rfl

/-- **One round** of the loop. -/
theorem foldl_md5Step {f : UInt32 → UInt32 → UInt32 → UInt32} {os : List Md5.Operation} {first : Nat}
    (hos : os = (List.range' first 16).map md5Operation) (horder : Md5.Follows .abcd os = true)
    (hstep : ∀ s, ∀ i ∈ List.range' first 16, md5Step x s i = Md5.turn f x s (md5Operation i)) (s : Registers) :
    (List.range' first 16).foldl (md5Step x) s = os.foldl (Md5.Operation.apply f x) s := by
  have hlen : os.length = 16 := by rw [hos, List.length_map, List.length_range']
  have hturn := @Md5.foldl_turn f x os .abcd horder s
  rw [hlen] at hturn
  refine Eq.trans ?_ hturn
  rw [hos, List.foldl_map]
  exact List.foldl_ext _ _ _ hstep

theorem or_shiftLeft {low k : Nat} (h : low < 2 ^ k) (high : Nat) : low ||| high <<< k = low + 2 ^ k * high := by
  rw [Nat.or_comm, ← Nat.shiftLeft_add_eq_or_of_lt h, Nat.shiftLeft_eq, Nat.mul_comm, Nat.add_comm]

/-- Four bytes as a word. -/
theorem word_of_bytes (a b c d : UInt8) :
    a.toUInt32 ||| b.toUInt32 <<< 8 ||| c.toUInt32 <<< 16 ||| d.toUInt32 <<< 24 =
      .ofNat (Nat.ofDigits 256 [a.toNat, b.toNat, c.toNat, d.toNat]) := by
  have ha := a.toNat_lt
  have hb := b.toNat_lt
  have hc := c.toNat_lt
  have hd := d.toNat_lt
  have hvalue : Nat.ofDigits 256 [a.toNat, b.toNat, c.toNat, d.toNat] =
      a.toNat + 2 ^ 8 * b.toNat + 2 ^ 16 * c.toNat + 2 ^ 24 * d.toNat := by
    simp only [Nat.ofDigits_cons, Nat.ofDigits_nil]
    omega
  have hshift (v : UInt8) {k : Nat} (hk : k ≤ 24) : v.toNat <<< k % 2 ^ 32 = v.toNat <<< k := by
    have hv := v.toNat_lt
    have hpow : 2 ^ k ≤ 2 ^ 24 := Nat.pow_le_pow_right (by decide) hk
    rw [Nat.shiftLeft_eq]
    exact Nat.mod_eq_of_lt (lt_of_le_of_lt (Nat.mul_le_mul_left _ hpow) (by omega))
  have hsize : a.toNat + 2 ^ 8 * b.toNat + 2 ^ 16 * c.toNat + 2 ^ 24 * d.toNat < UInt32.size := by
    rw [UInt32.size]
    omega
  have htwo : a.toNat + 2 ^ 8 * b.toNat < 2 ^ 16 := by omega
  have hthree : a.toNat + 2 ^ 8 * b.toNat + 2 ^ 16 * c.toNat < 2 ^ 24 := by omega
  refine UInt32.toNat_inj.mp ?_
  rw [hvalue, UInt32.toNat_ofNat_of_lt' hsize]
  simp only [UInt32.toNat_or, UInt32.toNat_shiftLeft, UInt8.toNat_toUInt32]
  show a.toNat ||| b.toNat <<< 8 % 2 ^ 32 ||| c.toNat <<< 16 % 2 ^ 32 ||| d.toNat <<< 24 % 2 ^ 32 = _
  rw [hshift b (by decide), hshift c (by decide), hshift d (by decide), or_shiftLeft ha, or_shiftLeft htwo,
    or_shiftLeft hthree]

theorem md5LoadLe32_eq (p : List UInt8) :
    md5LoadLe32 p = .ofNat (Nat.ofDigits 256 ((p.take 4).map UInt8.toNat)) := by
  unfold md5LoadLe32
  rw [word_of_bytes]
  match p with
  | [] => rfl
  | [a] => rfl
  | [a, b] => rfl
  | [a, b, c] => rfl
  | a :: b :: c :: d :: p => rfl

theorem md5StoreLe32_eq (v : UInt32) : md5StoreLe32 v = Md5.bytes 4 v.toNat := by
  have hbyte (k : Nat) (n : UInt32) (hn : n.toNat % 32 = 8 * k) :
      (v >>> n).toUInt8 = UInt8.ofNat (v.toNat / 256 ^ k) := by
    refine UInt8.toNat_inj.mp ?_
    rw [UInt32.toNat_toUInt8, UInt32.toNat_shiftRight, hn, Nat.shiftRight_eq_div_pow, Nat.pow_mul,
      UInt8.toNat_ofNat']
  have hfirst : v.toUInt8 = UInt8.ofNat (v.toNat / 256 ^ 0) := by
    refine UInt8.toNat_inj.mp ?_
    rw [UInt32.toNat_toUInt8, UInt8.toNat_ofNat', Nat.pow_zero, Nat.div_one]
  rw [md5StoreLe32, hfirst, hbyte 1 8 (by decide), hbyte 2 16 (by decide), hbyte 3 24 (by decide)]
  rfl

/-- **The loop is the four rounds** of the RFC. -/
theorem md5Transform_eq (state : Registers) (block : List UInt8) :
    md5Transform state block = Md5.compress state (Md5.words block) := by
  have hwords : ((List.range 16).map fun i => md5LoadLe32 (block.drop (i * 4))) = Md5.words block := by
    refine List.map_congr_left fun i _ => ?_
    rw [md5LoadLe32_eq, Md5.word, Nat.mul_comm]
  have hrange : List.range 64 =
      List.range' 0 16 ++ List.range' 16 16 ++ List.range' 32 16 ++ List.range' 48 16 := by decide
  generalize hx : Md5.words block = x at hwords ⊢
  have h1 := @foldl_md5Step x Md5.F Md5.round1 0 (by decide) (by decide) fun s i hi => by
    have := List.mem_range'_1.mp hi
    refine md5Step_eq (by omega) s ?_
    simp only [md5Step, md5Operation, if_pos (by omega : i < 16), MD5_F_eq]
  have h2 := @foldl_md5Step x Md5.G Md5.round2 16 (by decide) (by decide) fun s i hi => by
    have := List.mem_range'_1.mp hi
    refine md5Step_eq (by omega) s ?_
    simp only [md5Step, md5Operation, if_neg (by omega : ¬ i < 16), if_pos (by omega : i < 32), MD5_G_eq]
  have h3 := @foldl_md5Step x Md5.H Md5.round3 32 (by decide) (by decide) fun s i hi => by
    have := List.mem_range'_1.mp hi
    refine md5Step_eq (by omega) s ?_
    simp only [md5Step, md5Operation, if_neg (by omega : ¬ i < 16), if_neg (by omega : ¬ i < 32),
      if_pos (by omega : i < 48)]
    rfl
  have h4 := @foldl_md5Step x Md5.I Md5.round4 48 (by decide) (by decide) fun s i hi => by
    have := List.mem_range'_1.mp hi
    refine md5Step_eq (by omega) s ?_
    simp only [md5Step, md5Operation, if_neg (by omega : ¬ i < 16), if_neg (by omega : ¬ i < 32),
      if_neg (by omega : ¬ i < 48)]
    rfl
  have hloop : (List.range 64).foldl (md5Step x) state = Md5.round4.foldl (Md5.Operation.apply Md5.I x)
      (Md5.round3.foldl (Md5.Operation.apply Md5.H x) (Md5.round2.foldl (Md5.Operation.apply Md5.G x)
        (Md5.round1.foldl (Md5.Operation.apply Md5.F x) state))) := by
    rw [hrange, List.foldl_append, List.foldl_append, List.foldl_append, h1, h2, h3, h4]
  rw [md5Transform, hwords]
  simp only [hloop]
  rfl

/-! ## 4. The blocks -/

/-- **The whole blocks**, and what is left. -/
theorem md5Blocks_eq (state : Registers) (data : List UInt8) :
    md5Blocks state data =
      ((Md5.blocks data).foldl (fun r block => Md5.compress r (Md5.words block)) state, Md5.rest data) := by
  fun_induction md5Blocks state data with
  | case1 state data h ih =>
    have hfirst : (data.take 64).length = 64 := by rw [List.length_take, Nat.min_eq_left h]
    have hblocks : Md5.blocks data = data.take 64 :: Md5.blocks (data.drop 64) := by
      have happend := @Md5.blocks_append (data.take 64) (by rw [hfirst]) (data.drop 64)
      rwa [List.take_append_drop, Md5.blocks_of_length hfirst] at happend
    have hrest : Md5.rest (data.drop 64) = Md5.rest data := by
      rw [Md5.rest, Md5.rest, List.drop_drop, List.length_drop]
      congr 1
      omega
    rw [ih, hblocks, List.foldl_cons, hrest, md5Transform_eq, Md5.words_take]
  | case2 state data h => rw [Md5.blocks_of_lt (by omega), Md5.rest, Nat.div_eq_of_lt (by omega)]; rfl

/-- The length in bits, in eight bytes. -/
theorem store_bitLen (n : Nat) :
    md5StoreLe32 (UInt64.ofNat n * 8).toUInt32 ++ md5StoreLe32 ((UInt64.ofNat n * 8) >>> 32).toUInt32 =
      Md5.bytes 8 (8 * n) := by
  have hlen : (UInt64.ofNat n * 8).toNat = 8 * n % 2 ^ 64 := by
    rw [UInt64.toNat_mul, UInt64.toNat_ofNat', Nat.mod_mul_mod, Nat.mul_comm]
    rfl
  have hlow : (UInt64.ofNat n * 8).toUInt32.toNat = 8 * n % 2 ^ 32 := by
    rw [UInt64.toNat_toUInt32, hlen]
    omega
  have hhigh : ((UInt64.ofNat n * 8) >>> 32).toUInt32.toNat = 8 * n / 2 ^ 32 % 2 ^ 32 := by
    rw [UInt64.toNat_toUInt32, UInt64.toNat_shiftRight, hlen]
    show (8 * n % 2 ^ 64) >>> 32 % 2 ^ 32 = _
    rw [Nat.shiftRight_eq_div_pow]
    omega
  rw [md5StoreLe32_eq, md5StoreLe32_eq, hlow, hhigh]
  exact (congrArg₂ _ (Md5.bytes_mod 4 _) (Md5.bytes_mod 4 _)).trans (Md5.bytes_add 4 4 _).symm

/-- The block with the length at its end. -/
theorem copyInto_length {block low high : List UInt8} (hblock : block.length = 64) (hlow : low.length = 4)
    (hhigh : high.length = 4) : copyInto (copyInto block 56 low) 60 high = block.take 56 ++ (low ++ high) := by
  have hfront : (block.take 56 ++ low).length = 60 := by
    rw [List.length_append, List.length_take, hblock, hlow]
    rfl
  have hfirst : copyInto block 56 low = (block.take 56 ++ low) ++ block.drop 60 := by rw [copyInto, hlow]
  have hbehind : ((block.take 56 ++ low) ++ block.drop 60).drop 64 = [] := List.drop_eq_nil_of_le (by
    rw [List.length_append, hfront, List.length_drop, hblock])
  rw [hfirst, copyInto, hhigh, List.take_left' hfront, hbehind, List.append_nil, List.append_assoc]

/-- The block with the end of the message. -/
theorem copyInto_data {data : List UInt8} (h : data.length < 64) :
    (copyInto (List.replicate 64 0) 0 data).set data.length 0x80 =
      data ++ 0x80 :: List.replicate (63 - data.length) 0 := by
  obtain ⟨n, hn⟩ : ∃ n, 64 - data.length = n + 1 := ⟨63 - data.length, by omega⟩
  rw [copyInto, List.take_zero, List.nil_append, Nat.zero_add, List.drop_replicate, hn,
    List.set_append_right _ _ (Nat.le_refl _), Nat.sub_self, List.replicate_succ, List.set_cons_zero,
    (by omega : 63 - data.length = n)]

/-- **The end of the message**: the padding of the RFC, in one block or in two. -/
theorem md5Tail_eq (state : Registers) {data : List UInt8} (h : data.length < 64) (n : Nat) :
    md5Tail state data (UInt64.ofNat n * 8) =
      (Md5.blocks (data ++ (0x80 :: List.replicate ((119 - data.length) % 64) 0 ++ Md5.bytes 8 (8 * n)))).foldl
        (fun r block => Md5.compress r (Md5.words block)) state := by
  have hstore {block : List UInt8} (hblock : block.length = 64) :
      copyInto (copyInto block 56 (md5StoreLe32 (UInt64.ofNat n * 8).toUInt32)) 60
        (md5StoreLe32 ((UInt64.ofNat n * 8) >>> 32).toUInt32) = block.take 56 ++ Md5.bytes 8 (8 * n) := by
    rw [copyInto_length hblock rfl rfl, store_bitLen]
  have hblock : (data ++ 0x80 :: List.replicate (63 - data.length) 0).length = 64 := by
    rw [List.length_append, List.length_cons, List.length_replicate]
    omega
  unfold md5Tail
  dsimp only
  rw [copyInto_data h]
  by_cases htwo : 56 < data.length + 1
  · have hzeros : (119 - data.length) % 64 = (63 - data.length) + 56 := by omega
    have hsplit : data ++ (0x80 :: List.replicate ((119 - data.length) % 64) 0 ++ Md5.bytes 8 (8 * n)) =
        (data ++ 0x80 :: List.replicate (63 - data.length) 0) ++ (List.replicate 56 0 ++ Md5.bytes 8 (8 * n)) := by
      rw [hzeros, ← List.replicate_append_replicate]
      simp
    have hlast : (List.replicate 56 0 ++ Md5.bytes 8 (8 * n)).length = 64 := by simp
    rw [if_pos htwo, hstore List.length_replicate, hsplit, Md5.blocks_append (by rw [hblock]),
      Md5.blocks_of_length hblock, Md5.blocks_of_length hlast, md5Transform_eq, md5Transform_eq]
    rfl
  · have hzeros : (119 - data.length) % 64 = 55 - data.length := by omega
    have htake : (data ++ 0x80 :: List.replicate (63 - data.length) 0).take 56 =
        data ++ 0x80 :: List.replicate (55 - data.length) 0 := by
      have hsplit : 63 - data.length = (55 - data.length) + 8 := by omega
      rw [hsplit, ← List.replicate_append_replicate, ← List.cons_append, ← List.append_assoc]
      refine List.take_left' ?_
      rw [List.length_append, List.length_cons, List.length_replicate]
      omega
    have hlast : (data ++ 0x80 :: List.replicate (55 - data.length) 0 ++ Md5.bytes 8 (8 * n)).length = 64 := by
      simp
      omega
    rw [if_neg htwo, hstore hblock, htake, md5Transform_eq, hzeros, ← List.append_assoc, Md5.blocks_of_length hlast]
    rfl

/-- **The digest of the RFC**, for every message; the padded message is in whole blocks. -/
theorem fwxMd5_eq (data : List UInt8) : fwxMd5 data = Md5.digest data ∧ 64 ∣ (Md5.pad data).length := by
  refine ⟨?_, Md5.pad_length data⟩
  have hlt : (Md5.rest data).length < 64 := by
    rw [Md5.length_rest]
    exact Nat.mod_lt _ (by decide)
  have hzeros : Md5.zeros data.length = (119 - (Md5.rest data).length) % 64 := by rw [Md5.length_rest]; rfl
  have hpad : Md5.blocks (Md5.pad data) = Md5.blocks data ++ Md5.blocks (Md5.rest data ++
      (0x80 :: List.replicate (Md5.zeros data.length) 0 ++ Md5.bytes 8 (8 * data.length))) := by
    rw [Md5.pad, List.append_assoc, Md5.blocks_append_rest]
  rw [Md5.digest, hpad, List.foldl_append, hzeros, ← md5Tail_eq _ hlt, fwxMd5, md5Blocks_eq]
  simp only [md5StoreLe32_eq]
  rfl

end Oaf
