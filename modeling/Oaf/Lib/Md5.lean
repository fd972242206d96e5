/-
# The MD5 message digest

The algorithm as RFC 1321 describes it: a message is padded with a bit 1, zeros and its length in bits, and
its blocks of sixteen words go through four rounds of sixteen operations.  The constants of the operations are
the first 32 binary digits of sines.

* `T_eq`: a constant can be checked by a computation.
* `view_apply`, `foldl_turn`: an operation that turns the registers instead of being written for each of them.
* `blocks_append_rest`, `pad_length`: the blocks of a message.
-/
import Mathlib.Data.Nat.Digits.Defs
import Oaf.Lib.Sine

namespace Md5

/-! ## 1. The operations -/

/-- The words A, B, C and D. -/
structure Registers where
  a : UInt32
  b : UInt32
  c : UInt32
  d : UInt32
deriving DecidableEq

def init : Registers := ⟨0x67452301, 0xefcdab89, 0x98badcfe, 0x10325476⟩

def F (x y z : UInt32) : UInt32 := (x &&& y) ||| (~~~x &&& z)
def G (x y z : UInt32) : UInt32 := (x &&& z) ||| (y &&& ~~~z)
def H (x y z : UInt32) : UInt32 := x ^^^ y ^^^ z
def I (x y z : UInt32) : UInt32 := y ^^^ (x ||| ~~~z)

/-- The circular shift `x <<< s`. -/
def rotate (x : UInt32) (s : ℕ) : UInt32 := ⟨x.toBitVec.rotateLeft s⟩

/-- The integer part of `4294967296` times the sine of `i` radians, without its sign. -/
noncomputable def T (i : ℕ) : UInt32 := .ofNat ⌊4294967296 * |Real.sin i|⌋₊

/-- Which word an operation sets, and which ones it takes in which order. -/
inductive Order where
  | abcd | dabc | cdab | bcda
deriving DecidableEq

/-- `[abcd k s i]`. -/
structure Operation where
  order : Order
  k : ℕ
  s : ℕ
  i : ℕ
deriving DecidableEq

/-- `a = b + ((a + F(b,c,d) + X[k] + T[i]) <<< s)`, for the words in their order. -/
noncomputable def Operation.apply (f : UInt32 → UInt32 → UInt32 → UInt32) (x : List UInt32) (r : Registers)
    (o : Operation) : Registers :=
  let value (a b c d : UInt32) : UInt32 := b + rotate (a + f b c d + x.getD o.k 0 + T o.i) o.s
  match o.order with
  | .abcd => { r with a := value r.a r.b r.c r.d }
  | .dabc => { r with d := value r.d r.a r.b r.c }
  | .cdab => { r with c := value r.c r.d r.a r.b }
  | .bcda => { r with b := value r.b r.c r.d r.a }

def round1 : List Operation :=
  [⟨.abcd, 0, 7, 1⟩, ⟨.dabc, 1, 12, 2⟩, ⟨.cdab, 2, 17, 3⟩, ⟨.bcda, 3, 22, 4⟩,
   ⟨.abcd, 4, 7, 5⟩, ⟨.dabc, 5, 12, 6⟩, ⟨.cdab, 6, 17, 7⟩, ⟨.bcda, 7, 22, 8⟩,
   ⟨.abcd, 8, 7, 9⟩, ⟨.dabc, 9, 12, 10⟩, ⟨.cdab, 10, 17, 11⟩, ⟨.bcda, 11, 22, 12⟩,
   ⟨.abcd, 12, 7, 13⟩, ⟨.dabc, 13, 12, 14⟩, ⟨.cdab, 14, 17, 15⟩, ⟨.bcda, 15, 22, 16⟩]

def round2 : List Operation :=
  [⟨.abcd, 1, 5, 17⟩, ⟨.dabc, 6, 9, 18⟩, ⟨.cdab, 11, 14, 19⟩, ⟨.bcda, 0, 20, 20⟩,
   ⟨.abcd, 5, 5, 21⟩, ⟨.dabc, 10, 9, 22⟩, ⟨.cdab, 15, 14, 23⟩, ⟨.bcda, 4, 20, 24⟩,
   ⟨.abcd, 9, 5, 25⟩, ⟨.dabc, 14, 9, 26⟩, ⟨.cdab, 3, 14, 27⟩, ⟨.bcda, 8, 20, 28⟩,
   ⟨.abcd, 13, 5, 29⟩, ⟨.dabc, 2, 9, 30⟩, ⟨.cdab, 7, 14, 31⟩, ⟨.bcda, 12, 20, 32⟩]

def round3 : List Operation :=
  [⟨.abcd, 5, 4, 33⟩, ⟨.dabc, 8, 11, 34⟩, ⟨.cdab, 11, 16, 35⟩, ⟨.bcda, 14, 23, 36⟩,
   ⟨.abcd, 1, 4, 37⟩, ⟨.dabc, 4, 11, 38⟩, ⟨.cdab, 7, 16, 39⟩, ⟨.bcda, 10, 23, 40⟩,
   ⟨.abcd, 13, 4, 41⟩, ⟨.dabc, 0, 11, 42⟩, ⟨.cdab, 3, 16, 43⟩, ⟨.bcda, 6, 23, 44⟩,
   ⟨.abcd, 9, 4, 45⟩, ⟨.dabc, 12, 11, 46⟩, ⟨.cdab, 15, 16, 47⟩, ⟨.bcda, 2, 23, 48⟩]

def round4 : List Operation :=
  [⟨.abcd, 0, 6, 49⟩, ⟨.dabc, 7, 10, 50⟩, ⟨.cdab, 14, 15, 51⟩, ⟨.bcda, 5, 21, 52⟩,
   ⟨.abcd, 12, 6, 53⟩, ⟨.dabc, 3, 10, 54⟩, ⟨.cdab, 10, 15, 55⟩, ⟨.bcda, 1, 21, 56⟩,
   ⟨.abcd, 8, 6, 57⟩, ⟨.dabc, 15, 10, 58⟩, ⟨.cdab, 6, 15, 59⟩, ⟨.bcda, 13, 21, 60⟩,
   ⟨.abcd, 4, 6, 61⟩, ⟨.dabc, 11, 10, 62⟩, ⟨.cdab, 2, 15, 63⟩, ⟨.bcda, 9, 21, 64⟩]

/-- The four rounds on the words `x`, and what they leave added to what was there. -/
noncomputable def compress (r : Registers) (x : List UInt32) : Registers :=
  let r1 := round1.foldl (Operation.apply F x) r
  let r2 := round2.foldl (Operation.apply G x) r1
  let r3 := round3.foldl (Operation.apply H x) r2
  let r4 := round4.foldl (Operation.apply I x) r3
  ⟨r.a + r4.a, r.b + r4.b, r.c + r4.c, r.d + r4.d⟩

/-! ## 2. The message -/

/-- The low-order bytes of a number, the lowest first. -/
def bytes (n v : ℕ) : List UInt8 := (List.range n).map fun j => .ofNat (v / 256 ^ j)

/-- The zeros behind a message of `n` bytes: as few as make whole blocks. -/
def zeros (n : ℕ) : ℕ := (119 - n % 64) % 64

/-- A bit 1, zeros, and the low-order 64 bits of the length in bits. -/
def pad (message : List UInt8) : List UInt8 :=
  message ++ (0x80 :: List.replicate (zeros message.length) 0) ++ bytes 8 (8 * message.length)

/-- The blocks of 64 bytes. -/
def blocks (l : List UInt8) : List (List UInt8) :=
  (List.range (l.length / 64)).map fun j => (l.drop (64 * j)).take 64

/-- The word `j` of a block, with its lowest byte first. -/
def word (block : List UInt8) (j : ℕ) : UInt32 :=
  .ofNat (Nat.ofDigits 256 (((block.drop (4 * j)).take 4).map UInt8.toNat))

def words (block : List UInt8) : List UInt32 := (List.range 16).map (word block)

/-- The digest of a message. -/
noncomputable def digest (message : List UInt8) : List UInt8 :=
  let r := (blocks (pad message)).foldl (fun r block => compress r (words block)) init
  bytes 4 r.a.toNat ++ bytes 4 r.b.toNat ++ bytes 4 r.c.toNat ++ bytes 4 r.d.toNat

/-! ## 3. Constants and registers -/

/-- A constant that passes the check. -/
theorem T_eq {i : ℕ} {t : UInt32} (hpos : 0 < i) (hi : i ≤ 64) (h : Sine.checkDigits i t.toNat = true) :
    T i = t := by
  rw [T, Sine.floor_sin_eq hpos hi h, UInt32.ofNat_toNat]

/-- The words in an order. -/
def view : Order → Registers → Registers
  | .abcd, r => r
  | .dabc, r => ⟨r.d, r.a, r.b, r.c⟩
  | .cdab, r => ⟨r.c, r.d, r.a, r.b⟩
  | .bcda, r => ⟨r.b, r.c, r.d, r.a⟩

/-- The order of the next operation. -/
def Order.next : Order → Order
  | .abcd => .dabc
  | .dabc => .cdab
  | .cdab => .bcda
  | .bcda => .abcd

/-- An operation on the words in the order `[abcd]`, which it then turns by one. -/
noncomputable def turn (f : UInt32 → UInt32 → UInt32 → UInt32) (x : List UInt32) (r : Registers)
    (o : Operation) : Registers :=
  ⟨r.d, r.b + rotate (r.a + f r.b r.c r.d + x.getD o.k 0 + T o.i) o.s, r.b, r.c⟩

variable {f : UInt32 → UInt32 → UInt32 → UInt32} {x : List UInt32}

/-- **One operation**, in the turned words. -/
theorem view_apply (r : Registers) (o : Operation) :
    view o.order.next (o.apply f x r) = turn f x (view o.order r) o := by
  obtain ⟨order, k, s, i⟩ := o
  cases order <;> rfl

/-- The operations come in their orders, from this one on. -/
def Follows : Order → List Operation → Bool
  | _, [] => true
  | order, o :: os => o.order = order && Follows order.next os

/-- **A round**, in the turned words. -/
theorem foldl_turn {os : List Operation} {order : Order} (h : Follows order os = true) (r : Registers) :
    os.foldl (turn f x) (view order r) = view (Order.next^[os.length] order) (os.foldl (Operation.apply f x) r) := by
  induction os generalizing order r with
  | nil => rfl
  | cons o os ih =>
    rw [Follows, Bool.and_eq_true, decide_eq_true_iff] at h
    obtain ⟨rfl, hos⟩ := h
    rw [List.foldl_cons, ← view_apply, ih hos]
    rfl

/-! ## 4. Bytes and blocks -/

@[simp] theorem length_bytes (n v : ℕ) : (bytes n v).length = n := by rw [bytes, List.length_map, List.length_range]

theorem bytes_mod (n v : ℕ) : bytes n (v % 256 ^ n) = bytes n v := by
  refine List.map_congr_left fun j hj => UInt8.toNat_inj.mp ?_
  have hj' := List.mem_range.mp hj
  have hpow : 256 ^ n = 256 ^ j * 256 ^ (n - j) := by rw [← Nat.pow_add, Nat.add_sub_cancel' hj'.le]
  have hdvd : 256 ∣ 256 ^ (n - j) := dvd_pow_self 256 (by omega)
  rw [UInt8.toNat_ofNat', UInt8.toNat_ofNat', hpow, Nat.mod_mul_right_div_self]
  exact Nat.mod_mod_of_dvd _ hdvd

theorem bytes_add (m n v : ℕ) : bytes (m + n) v = bytes m v ++ bytes n (v / 256 ^ m) := by
  rw [bytes, List.range_add, List.map_append, List.map_map, bytes, bytes]
  congr 1
  refine List.map_congr_left fun j _ => ?_
  show UInt8.ofNat (v / 256 ^ (m + j)) = _
  rw [Nat.pow_add, Nat.div_div_eq_div_mul]

theorem pad_length (message : List UInt8) : 64 ∣ (pad message).length := by
  have hlen : (pad message).length = message.length + (zeros message.length + 1) + 8 := by
    rw [pad, List.length_append, List.length_append, List.length_cons, List.length_replicate, length_bytes]
  rw [hlen, zeros]
  omega

theorem blocks_of_length {block : List UInt8} (h : block.length = 64) : blocks block = [block] := by
  have hone : List.range (block.length / 64) = [0] := by
    rw [h]
    rfl
  rw [blocks, hone, List.map_singleton, Nat.mul_zero, List.drop_zero, List.take_of_length_le h.le]

/-- Behind whole blocks. -/
theorem blocks_append {l : List UInt8} (h : 64 ∣ l.length) (l' : List UInt8) :
    blocks (l ++ l') = blocks l ++ blocks l' := by
  obtain ⟨n, hn⟩ := h
  have hcount : (l ++ l').length / 64 = n + l'.length / 64 := by
    rw [List.length_append, hn, Nat.mul_add_div (by decide)]
  have hcount' : l.length / 64 = n := by rw [hn, Nat.mul_div_cancel_left n (by decide)]
  rw [blocks, hcount, List.range_add, List.map_append, blocks, hcount', blocks, List.map_map]
  congr 1
  · refine List.map_congr_left fun j hj => ?_
    have := List.mem_range.mp hj
    rw [List.drop_append_of_le_length (by omega), List.take_append_of_le_length (by rw [List.length_drop]; omega)]
  · refine List.map_congr_left fun j _ => ?_
    show ((l ++ l').drop (64 * (n + j))).take 64 = _
    rw [Nat.mul_add, ← List.drop_drop, List.drop_left' hn]

theorem blocks_of_lt {l : List UInt8} (h : l.length < 64) : blocks l = [] := by
  rw [blocks, Nat.div_eq_of_lt h]
  rfl

/-- The bytes behind the whole blocks. -/
def rest (l : List UInt8) : List UInt8 := l.drop (64 * (l.length / 64))

theorem length_rest (l : List UInt8) : (rest l).length = l.length % 64 := by
  rw [rest, List.length_drop]
  omega

/-- Only what is behind the whole blocks changes with what comes behind it. -/
theorem blocks_append_rest (l l' : List UInt8) : blocks (l ++ l') = blocks l ++ blocks (rest l ++ l') := by
  have hwhole : 64 ∣ (l.take (64 * (l.length / 64))).length := by
    rw [List.length_take, Nat.min_eq_left (Nat.mul_div_le _ _)]
    exact Nat.dvd_mul_right ..
  have hsplit : l.take (64 * (l.length / 64)) ++ rest l = l := List.take_append_drop ..
  have hl : blocks l = blocks (l.take (64 * (l.length / 64))) := by
    have happend := blocks_append hwhole (rest l)
    have hnone : blocks (rest l) = [] := blocks_of_lt (by
      rw [length_rest]
      exact Nat.mod_lt _ (by decide))
    rwa [hsplit, hnone, List.append_nil] at happend
  have happend := blocks_append hwhole (rest l ++ l')
  rwa [← List.append_assoc, hsplit, ← hl] at happend

/-- The words of a block do not look behind it. -/
theorem words_take (block : List UInt8) : words (block.take 64) = words block := by
  refine List.map_congr_left fun j hj => ?_
  have := List.mem_range.mp hj
  rw [word, word, List.drop_take, List.take_take, Nat.min_eq_left (by omega)]

end Md5
