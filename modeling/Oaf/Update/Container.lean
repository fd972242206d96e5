/-
# The feature container

`fwx_feature.c` keeps the feature library in a container: a header of 24 bytes, then the text XORed
with the stream of XTEA in counter mode.  The header holds the CRC-32 of the text.

* `xteaCtrCrypt_eq`: the two loops XOR byte `i` with byte `i` of one stream, so that to encrypt twice
  is to do nothing.
* `featureCrc32_ne_of_burst`: the checksum sees every change within four bytes.
* `feature_container_integrity`: a container gives its text back, and a damaged one nothing.
-/
import Oaf.Lib.Crc
import Oaf.Lib.CStr
import Mathlib.Data.List.GetD

namespace Oaf

open CLib

/-! ## 1. Numbers in little-endian order -/

def FEATURE_HEADER_SIZE : Nat := 24
def FEATURE_FORMAT_VERSION : UInt8 := 1
def FEATURE_ALGORITHM_XTEA_CTR : UInt8 := 1
def FWX_FEATURE_MAX_SIZE : Nat := 20 * 1024 * 1024

def featureMagic : List UInt8 := ascii "FWXB"

def featureKey : List UInt32 := [0x8f4c29a1, 0x73b6d502, 0xc14e87f3, 0x2ad95b60]

/-- `get_le16` at `p + i`. -/
def getLe16 (p : List UInt8) (i : Nat) : UInt16 :=
  (p.getD i 0).toUInt16 ||| (p.getD (i + 1) 0).toUInt16 <<< 8

/-- `get_le32` at `p + i`. -/
def getLe32 (p : List UInt8) (i : Nat) : UInt32 :=
  (p.getD i 0).toUInt32 ||| (p.getD (i + 1) 0).toUInt32 <<< 8 |||
    (p.getD (i + 2) 0).toUInt32 <<< 16 ||| (p.getD (i + 3) 0).toUInt32 <<< 24

/-- `get_le64` at `p + i`. -/
def getLe64 (p : List UInt8) (i : Nat) : UInt64 :=
  (getLe32 p i).toUInt64 ||| (getLe32 p (i + 4)).toUInt64 <<< 32

def putLe16 (value : UInt16) : List UInt8 := [value.toUInt8, (value >>> 8).toUInt8]

def putLe32 (value : UInt32) : List UInt8 :=
  [value.toUInt8, (value >>> 8).toUInt8, (value >>> 16).toUInt8, (value >>> 24).toUInt8]

def putLe64 (value : UInt64) : List UInt8 :=
  putLe32 value.toUInt32 ++ putLe32 (value >>> 32).toUInt32

/-! ## 2. `feature_crc32` -/

/-- One turn of the inner loop. -/
def crcBit (crc : UInt32) : UInt32 := (crc >>> 1) ^^^ (0xedb88320 &&& (0 - (crc &&& 1)))

def crcByte (crc : UInt32) (b : UInt8) : UInt32 := crcBit^[8] (crc ^^^ b.toUInt32)

def featureCrc32 (data : List UInt8) : UInt32 := ~~~ data.foldl crcByte 0xffffffff

/-! ## 3. `xtea_ctr_crypt` -/

structure XteaState where
  v0 : UInt32
  v1 : UInt32
  sum : UInt32

def xteaRound (s : XteaState) : XteaState :=
  let v0 := s.v0 + ((((s.v1 <<< 4) ^^^ (s.v1 >>> 5)) + s.v1) ^^^
    (s.sum + featureKey.getD (s.sum &&& 3).toNat 0))
  let sum := s.sum + 0x9e3779b9
  let v1 := s.v1 + ((((v0 <<< 4) ^^^ (v0 >>> 5)) + v0) ^^^
    (sum + featureKey.getD ((sum >>> 11) &&& 3).toNat 0))
  ⟨v0, v1, sum⟩

def xteaEncryptBlock (block : UInt32 × UInt32) : UInt32 × UInt32 :=
  let s := xteaRound^[32] ⟨block.1, block.2, 0⟩
  (s.v0, s.v1)

/-- The eight bytes of `stream` at one value of the counter. -/
def xteaStream (counter : UInt64) : List UInt8 :=
  let block := xteaEncryptBlock (counter.toUInt32, (counter >>> 32).toUInt32)
  putLe32 block.1 ++ putLe32 block.2

/-- `xtea_ctr_crypt` from one turn of the outer loop on. -/
def xteaCtrCrypt (data : List UInt8) (counter : UInt64) : List UInt8 :=
  if data = [] then []
  else
    List.zipWith (· ^^^ ·) (data.take 8) (xteaStream counter) ++
      xteaCtrCrypt (data.drop 8) (counter + 1)
termination_by data.length
decreasing_by
  have := List.length_pos_of_ne_nil ‹¬ data = []›
  rw [List.length_drop]
  omega

/-! ## 4. `fwx_feature_decrypt_file` -/

/-- Which calls of `read_file` fail. -/
structure ReadFaults where
  fopen : Bool := false
  fseekEnd : Bool := false
  ftell : Bool := false
  fseekSet : Bool := false
  malloc : Bool := false
  fread : Bool := false

/-- `read_file` of a file that does not change; `none` is its `-1`. -/
def readFile (faults : ReadFaults) (maxLen : Nat) : Option (List UInt8) → Option (List UInt8)
  | none => none
  | some data =>
    if faults.fopen then none
    else if faults.fseekEnd ∨ faults.ftell ∨ data.length = 0 ∨ maxLen < data.length ∨
        faults.fseekSet then none
    else if faults.malloc then none
    else if faults.fread then none
    else some data

/-- The return value, `*data` and `*data_len`. -/
structure DecryptResult where
  ret : Int
  data : Option (List UInt8)
  dataLen : Nat
deriving DecidableEq

def DecryptResult.failed : DecryptResult := ⟨-1, none, 0⟩

structure DecryptFaults where
  read : ReadFaults := {}
  malloc : Bool := false

/-- The text of a container, behind the checks of its header. -/
def decryptFileData (mallocFails : Bool) (fileData : List UInt8) : DecryptResult :=
  if fileData.length < FEATURE_HEADER_SIZE ∨ fileData.take 4 ≠ featureMagic ∨
      fileData.getD 4 0 ≠ FEATURE_FORMAT_VERSION ∨
      fileData.getD 5 0 ≠ FEATURE_ALGORITHM_XTEA_CTR ∨
      (getLe16 fileData 6).toNat ≠ FEATURE_HEADER_SIZE then .failed
  else
    let plainLen := (getLe32 fileData 8).toNat
    let expectedCrc := getLe32 fileData 12
    let nonce := getLe64 fileData 16
    if plainLen = 0 ∨ FWX_FEATURE_MAX_SIZE < plainLen ∨
        fileData.length ≠ FEATURE_HEADER_SIZE + plainLen then .failed
    else if mallocFails then .failed
    else
      let plain := xteaCtrCrypt ((fileData.drop FEATURE_HEADER_SIZE).take plainLen) nonce
      if featureCrc32 plain ≠ expectedCrc then .failed
      else ⟨0, some (plain ++ [0]), plainLen⟩

/-- `fwx_feature_decrypt_file`. -/
def fwxFeatureDecryptFile (faults : DecryptFaults) (file : Option (List UInt8)) : DecryptResult :=
  match readFile faults.read (FEATURE_HEADER_SIZE + FWX_FEATURE_MAX_SIZE) file with
  | none => .failed
  | some fileData => decryptFileData faults.malloc fileData

/-! ## 5. Containers -/

/-- Byte `i` of the stream: the counter wraps, the stream goes on. -/
def keystream (nonce : UInt64) (i : Nat) : UInt8 :=
  (xteaStream (nonce + UInt64.ofNat (i / 8))).getD (i % 8) 0

def containerHeader (plain : List UInt8) (nonce : UInt64) : List UInt8 :=
  featureMagic ++ [FEATURE_FORMAT_VERSION, FEATURE_ALGORITHM_XTEA_CTR] ++
    putLe16 (UInt16.ofNat FEATURE_HEADER_SIZE) ++ putLe32 (UInt32.ofNat plain.length) ++
    putLe32 (featureCrc32 plain) ++ putLe64 nonce

/-- The text XORed with the stream. -/
def containerPayload (plain : List UInt8) (nonce : UInt64) : List UInt8 :=
  plain.mapIdx (fun i b => b ^^^ keystream nonce i)

def container (plain : List UInt8) (nonce : UInt64) : List UInt8 :=
  containerHeader plain nonce ++ containerPayload plain nonce

/-- `b` is `a` with some change, all of it within four consecutive bytes. -/
structure Burst (a b : List UInt8) : Prop where
  length : b.length = a.length
  changed : b ≠ a
  window : ∃ k, ∀ i, ¬ (k ≤ i ∧ i < k + 4) → b[i]? = a[i]?

/-! ## 6. The stream -/

theorem xteaStream_length (counter : UInt64) : (xteaStream counter).length = 8 := rfl

/-- One block of the stream, from its start. -/
theorem zipWith_xteaStream (nonce : UInt64) (k : Nat) {block : List UInt8} (h : block.length ≤ 8) :
    List.zipWith (· ^^^ ·) block (xteaStream (nonce + UInt64.ofNat k)) =
      block.mapIdx (fun i b => b ^^^ keystream nonce (8 * k + i)) := by
  refine List.ext_getElem ?_ (fun i h1 h2 => ?_)
  · simp [xteaStream_length, h]
  · have hi : i < 8 := by
      simp only [List.length_mapIdx] at h2
      omega
    have hdiv : (8 * k + i) / 8 = k := by omega
    have hmod : (8 * k + i) % 8 = i := by omega
    have hs : i < (xteaStream (nonce + UInt64.ofNat k)).length := hi
    rw [List.getElem_zipWith, List.getElem_mapIdx, keystream, hdiv, hmod,
      List.getD_eq_getElem _ _ hs]

theorem mapIdx_take_drop {α β : Type} (f : Nat → α → β) (n : Nat) (l : List α) :
    l.mapIdx f = (l.take n).mapIdx f ++ (l.drop n).mapIdx (fun i => f (i + n)) := by
  conv_lhs => rw [← List.take_append_drop n l, List.mapIdx_append]
  by_cases hn : n ≤ l.length
  · rw [List.length_take, Nat.min_eq_left hn]
  · rw [List.drop_of_length_le (by omega), List.mapIdx_nil, List.mapIdx_nil]

/-- **Both loops at once**: byte `i` of the data is XORed with byte `i` of the stream. -/
theorem xteaCtrCrypt_from (nonce : UInt64) (data : List UInt8) (k : Nat) :
    xteaCtrCrypt data (nonce + UInt64.ofNat k) =
      data.mapIdx (fun i b => b ^^^ keystream nonce (8 * k + i)) := by
  induction hn : data.length using Nat.strong_induction_on generalizing data k with
  | _ n ih =>
    subst hn
    unfold xteaCtrCrypt
    by_cases hnil : data = []
    · simp [hnil]
    · have hpos := List.length_pos_of_ne_nil hnil
      have hnext : nonce + UInt64.ofNat k + 1 = nonce + UInt64.ofNat (k + 1) := by
        rw [UInt64.ofNat_add, UInt64.add_assoc]
        rfl
      have hrest := ih (data.drop 8).length (by rw [List.length_drop]; omega) (data.drop 8) (k + 1)
        rfl
      have hshift : ∀ i, 8 * (k + 1) + i = 8 * k + (i + 8) := by
        intro i
        omega
      simp only [hshift] at hrest
      rw [if_neg hnil, hnext, hrest, zipWith_xteaStream nonce k (by simp),
        mapIdx_take_drop _ 8 data]

theorem xteaCtrCrypt_eq (data : List UInt8) (nonce : UInt64) :
    xteaCtrCrypt data nonce = containerPayload data nonce := by
  have h := xteaCtrCrypt_from nonce data 0
  rw [show UInt64.ofNat 0 = 0 from rfl, UInt64.add_zero] at h
  simpa only [containerPayload, Nat.mul_zero, Nat.zero_add] using h

/-- To encrypt twice is to do nothing. -/
theorem containerPayload_payload (plain : List UInt8) (nonce : UInt64) :
    containerPayload (containerPayload plain nonce) nonce = plain := by
  refine List.ext_getElem (by simp [containerPayload]) (fun i h1 h2 => ?_)
  simp only [containerPayload, List.getElem_mapIdx, UInt8.xor_assoc, UInt8.xor_self, UInt8.xor_zero]

theorem Burst.payload {a b : List UInt8} (h : Burst a b) (nonce : UInt64) :
    Burst (containerPayload a nonce) (containerPayload b nonce) := by
  obtain ⟨k, hk⟩ := h.window
  refine ⟨by simp [containerPayload, h.length], fun heq => h.changed ?_, k, fun i hi => ?_⟩
  · rw [← containerPayload_payload b nonce, heq, containerPayload_payload]
  · simp [containerPayload, hk i hi]

/-! ## 7. The checksum -/

def crcPoly : BitVec 32 := 0xedb88320

theorem crcBit_toBitVec (crc : UInt32) : (crcBit crc).toBitVec = Crc.step crcPoly crc.toBitVec := by
  have hlow : (crc &&& 1).toBitVec = BitVec.setWidth 32 (BitVec.ofBool (crc.toBitVec.getLsbD 0)) :=
    BitVec.and_one_eq_setWidth_ofBool_getLsbD
  rw [crcBit, Crc.step, UInt32.toBitVec_xor, UInt32.toBitVec_and, UInt32.toBitVec_sub, hlow]
  cases crc.toBitVec.getLsbD 0 <;> rfl

theorem crcBits_toBitVec (n : Nat) (crc : UInt32) :
    (crcBit^[n] crc).toBitVec = (Crc.step crcPoly)^[n] crc.toBitVec := by
  induction n generalizing crc with
  | zero => rfl
  | succ n ih => rw [Function.iterate_succ_apply, Function.iterate_succ_apply, ih, crcBit_toBitVec]

theorem foldl_crcByte (data : List UInt8) (crc : UInt32) :
    (data.foldl crcByte crc).toBitVec =
      Crc.feed crcPoly crc.toBitVec (data.map UInt8.toBitVec) := by
  induction data generalizing crc with
  | nil => rfl
  | cons b data ih =>
    have hb : (crcByte crc b).toBitVec =
        (Crc.step crcPoly)^[8] (crc.toBitVec ^^^ b.toBitVec.setWidth 32) := by
      rw [crcByte, crcBits_toBitVec, UInt32.toBitVec_xor]
      rfl
    rw [List.foldl_cons, ih, hb]
    rfl

/-- **The checksum sees every burst.** -/
theorem featureCrc32_ne_of_burst {a b : List UInt8} (h : Burst a b) :
    featureCrc32 b ≠ featureCrc32 a := by
  obtain ⟨k, hk⟩ := h.window
  have hfront : b.take k = a.take k := by
    refine List.ext_getElem? (fun i => ?_)
    rw [List.getElem?_take, List.getElem?_take]
    split
    · exact hk i (by omega)
    · rfl
  have hback : b.drop (k + 4) = a.drop (k + 4) := by
    refine List.ext_getElem? (fun i => ?_)
    rw [List.getElem?_drop, List.getElem?_drop]
    exact hk _ (by omega)
  have hcut : ∀ l : List UInt8, l = l.take k ++ (l.drop k).take 4 ++ l.drop (k + 4) := by
    intro l
    rw [List.append_assoc, ← List.drop_drop, List.take_append_drop, List.take_append_drop]
  have hmap : Function.Injective (List.map UInt8.toBitVec) :=
    List.map_injective_iff.mpr (fun x y hxy => UInt8.toBitVec_inj.mp hxy)
  have hne : ((b.drop k).take 4).map UInt8.toBitVec ≠ ((a.drop k).take 4).map UInt8.toBitVec := by
    intro hmid
    apply h.changed
    rw [hcut b, hcut a, hfront, hback, hmap hmid]
  intro heq
  have hreg : b.foldl crcByte 0xffffffff = a.foldl crcByte 0xffffffff := by
    rw [featureCrc32, featureCrc32] at heq
    exact UInt32.not_inj.mp heq
  have hfeed := congrArg UInt32.toBitVec hreg
  rw [foldl_crcByte, foldl_crcByte, hcut b, hcut a, hfront, hback] at hfeed
  simp only [List.map_append] at hfeed
  refine Crc.feed_ne_of_burst crcPoly rfl _ _ _ ?_ ?_ hne hfeed
  · simp [h.length]
  · simp
    omega

/-! ## 8. The header -/

/-- One piece of a word, moved back to its place. -/
theorem getLsbD_piece {w : Nat} (m : Nat) (x : BitVec w) (n i : Nat) (hi : i < w) :
    ((((x >>> n).setWidth m).setWidth w) <<< n).getLsbD i =
      (decide (n ≤ i ∧ i < n + m) && x.getLsbD i) := by
  simp only [BitVec.getLsbD_shiftLeft, BitVec.getLsbD_setWidth, BitVec.getLsbD_ushiftRight]
  by_cases hn : n ≤ i
  · have h1 : n + (i - n) = i := by omega
    have h2 : i - n < m ↔ i < n + m := by omega
    have h3 : i - n < w := by omega
    simp [hn, h1, h2, h3, hi, Nat.not_lt.mpr hn]
  · simp [hn, Nat.lt_of_not_le hn]

theorem le32_bytes (v : UInt32) :
    v.toUInt8.toUInt32 ||| (v >>> 8).toUInt8.toUInt32 <<< 8 |||
      (v >>> 16).toUInt8.toUInt32 <<< 16 ||| (v >>> 24).toUInt8.toUInt32 <<< 24 = v := by
  rw [← UInt32.toBitVec_inj]
  refine BitVec.eq_of_getLsbD_eq (fun i hi => ?_)
  have h0 := getLsbD_piece 8 v.toBitVec 0 i hi
  have h8 := getLsbD_piece 8 v.toBitVec 8 i hi
  have h16 := getLsbD_piece 8 v.toBitVec 16 i hi
  have h24 := getLsbD_piece 8 v.toBitVec 24 i hi
  simp only [BitVec.ushiftRight_zero, BitVec.shiftLeft_zero] at h0
  have hbits : (((v.toBitVec.setWidth 8).setWidth 32).getLsbD i ||
      ((((v.toBitVec >>> 8).setWidth 8).setWidth 32) <<< 8).getLsbD i ||
      ((((v.toBitVec >>> 16).setWidth 8).setWidth 32) <<< 16).getLsbD i ||
      ((((v.toBitVec >>> 24).setWidth 8).setWidth 32) <<< 24).getLsbD i) = v.toBitVec.getLsbD i := by
    have hall : (decide (0 ≤ i ∧ i < 0 + 8) || decide (8 ≤ i ∧ i < 8 + 8) ||
        decide (16 ≤ i ∧ i < 16 + 8) || decide (24 ≤ i ∧ i < 24 + 8)) = true := by
      simp only [Bool.or_eq_true, decide_eq_true_eq]
      omega
    rw [h0, h8, h16, h24, ← Bool.and_or_distrib_right, ← Bool.and_or_distrib_right,
      ← Bool.and_or_distrib_right, hall, Bool.true_and]
  simp only [UInt32.toBitVec_or, BitVec.getLsbD_or]
  exact hbits

theorem le64_halves (v : UInt64) :
    v.toUInt32.toUInt64 ||| (v >>> 32).toUInt32.toUInt64 <<< 32 = v := by
  rw [← UInt64.toBitVec_inj]
  refine BitVec.eq_of_getLsbD_eq (fun i hi => ?_)
  have h0 := getLsbD_piece 32 v.toBitVec 0 i hi
  have h32 := getLsbD_piece 32 v.toBitVec 32 i hi
  simp only [BitVec.ushiftRight_zero, BitVec.shiftLeft_zero] at h0
  have hbits : (((v.toBitVec.setWidth 32).setWidth 64).getLsbD i ||
      ((((v.toBitVec >>> 32).setWidth 32).setWidth 64) <<< 32).getLsbD i) =
        v.toBitVec.getLsbD i := by
    have hall : (decide (0 ≤ i ∧ i < 0 + 32) || decide (32 ≤ i ∧ i < 32 + 32)) = true := by
      simp only [Bool.or_eq_true, decide_eq_true_eq]
      omega
    rw [h0, h32, ← Bool.and_or_distrib_right, hall, Bool.true_and]
  simp only [UInt64.toBitVec_or, BitVec.getLsbD_or]
  exact hbits

theorem containerHeader_length (plain : List UInt8) (nonce : UInt64) :
    (containerHeader plain nonce).length = FEATURE_HEADER_SIZE := rfl

/-- What the header says, whatever stands behind it. -/
theorem containerHeader_fields (plain : List UInt8) (nonce : UInt64) (payload : List UInt8) :
    getLe32 (containerHeader plain nonce ++ payload) 8 = UInt32.ofNat plain.length ∧
      getLe32 (containerHeader plain nonce ++ payload) 12 = featureCrc32 plain ∧
      getLe64 (containerHeader plain nonce ++ payload) 16 = nonce := by
  refine ⟨le32_bytes _, le32_bytes _, ?_⟩
  have hlow : getLe32 (containerHeader plain nonce ++ payload) 16 = nonce.toUInt32 := le32_bytes _
  have hhigh : getLe32 (containerHeader plain nonce ++ payload) 20 = (nonce >>> 32).toUInt32 :=
    le32_bytes _
  rw [getLe64, hlow, hhigh]
  exact le64_halves nonce

/-- The header of a container before a payload of the right length. -/
theorem decryptFileData_header {plain : List UInt8} (nonce : UInt64) (hpos : 0 < plain.length)
    (hmax : plain.length ≤ FWX_FEATURE_MAX_SIZE) (mallocFails : Bool) {payload : List UInt8}
    (hlen : payload.length = plain.length) :
    decryptFileData mallocFails (containerHeader plain nonce ++ payload) =
      if mallocFails then .failed
      else if featureCrc32 (containerPayload payload nonce) ≠ featureCrc32 plain then .failed
      else ⟨0, some (containerPayload payload nonce ++ [0]), plain.length⟩ := by
  obtain ⟨hsize, hcrc, hnonce⟩ := containerHeader_fields plain nonce payload
  have hplain : (UInt32.ofNat plain.length).toNat = plain.length := by
    rw [UInt32.toNat_ofNat']
    refine Nat.mod_eq_of_lt ?_
    rw [FWX_FEATURE_MAX_SIZE] at hmax
    omega
  have htotal : (containerHeader plain nonce ++ payload).length =
      FEATURE_HEADER_SIZE + plain.length := by
    rw [List.length_append, containerHeader_length, hlen]
  have hmagic : (containerHeader plain nonce ++ payload).take 4 = featureMagic := rfl
  have hversion : (containerHeader plain nonce ++ payload).getD 4 0 = FEATURE_FORMAT_VERSION := rfl
  have halgorithm :
      (containerHeader plain nonce ++ payload).getD 5 0 = FEATURE_ALGORITHM_XTEA_CTR := rfl
  have hheader :
      (getLe16 (containerHeader plain nonce ++ payload) 6).toNat = FEATURE_HEADER_SIZE := by
    have hbytes : getLe16 (containerHeader plain nonce ++ payload) 6 = getLe16 [24, 0] 0 := rfl
    rw [hbytes]
    decide
  have hstart : ¬ (FEATURE_HEADER_SIZE + plain.length < FEATURE_HEADER_SIZE ∨
      featureMagic ≠ featureMagic ∨
      FEATURE_FORMAT_VERSION ≠ FEATURE_FORMAT_VERSION ∨
      FEATURE_ALGORITHM_XTEA_CTR ≠ FEATURE_ALGORITHM_XTEA_CTR ∨
      FEATURE_HEADER_SIZE ≠ FEATURE_HEADER_SIZE) := by
    simp
  have hsizes : ¬ (plain.length = 0 ∨ FWX_FEATURE_MAX_SIZE < plain.length ∨
      FEATURE_HEADER_SIZE + plain.length ≠ FEATURE_HEADER_SIZE + plain.length) := by
    omega
  have hpayload : ((containerHeader plain nonce ++ payload).drop FEATURE_HEADER_SIZE).take
      plain.length = payload := by
    rw [← containerHeader_length plain nonce, List.drop_left, ← hlen, List.take_length]
  rw [decryptFileData, htotal, hmagic, hversion, halgorithm, hheader, if_neg hstart]
  simp only [hsize, hcrc, hnonce, hplain, if_neg hsizes, hpayload, xteaCtrCrypt_eq]

theorem readFile_ok {maxLen : Nat} {data : List UInt8} (hpos : 0 < data.length)
    (hmax : data.length ≤ maxLen) : readFile {} maxLen (some data) = some data := by
  have h : ¬ (data.length = 0 ∨ maxLen < data.length) := by omega
  simp [readFile, List.ne_nil_of_length_pos hpos, hmax]

theorem readFile_cases (faults : ReadFaults) (maxLen : Nat) (data : List UInt8) :
    readFile faults maxLen (some data) = none ∨ readFile faults maxLen (some data) = some data := by
  simp only [readFile]
  repeat' split
  all_goals simp

/-! ## 9. Integrity -/

theorem decryptFile_container {plain : List UInt8} (nonce : UInt64) (hpos : 0 < plain.length)
    (hmax : plain.length ≤ FWX_FEATURE_MAX_SIZE) :
    fwxFeatureDecryptFile {} (some (container plain nonce)) =
      ⟨0, some (plain ++ [0]), plain.length⟩ := by
  have hlen : (containerPayload plain nonce).length = plain.length := by
    simp [containerPayload]
  have htotal : (container plain nonce).length = FEATURE_HEADER_SIZE + plain.length := by
    rw [container, List.length_append, containerHeader_length, hlen]
  have hread : readFile {} (FEATURE_HEADER_SIZE + FWX_FEATURE_MAX_SIZE)
      (some (container plain nonce)) = some (container plain nonce) :=
    readFile_ok (by omega) (by omega)
  have hdecrypt := decryptFileData_header nonce hpos hmax false hlen
  rw [containerPayload_payload] at hdecrypt
  simp only [fwxFeatureDecryptFile, hread]
  rw [container, hdecrypt]
  simp

/-- **The container gives the text back, and a short change anywhere in its payload is seen**: then
nothing is returned, whichever calls fail besides. -/
theorem feature_container_integrity {plain : List UInt8} (nonce : UInt64)
    (hpos : 0 < plain.length) (hmax : plain.length ≤ FWX_FEATURE_MAX_SIZE) :
    fwxFeatureDecryptFile {} (some (container plain nonce)) =
      ⟨0, some (plain ++ [0]), plain.length⟩ ∧
    ∀ payload, Burst (containerPayload plain nonce) payload → ∀ faults,
      fwxFeatureDecryptFile faults (some (containerHeader plain nonce ++ payload)) = ⟨-1, none, 0⟩ := by
  refine ⟨decryptFile_container nonce hpos hmax, ?_⟩
  intro payload hburst faults
  have hlen : payload.length = plain.length := by
    rw [hburst.length]
    simp [containerPayload]
  have hcrc : featureCrc32 (containerPayload payload nonce) ≠ featureCrc32 plain := by
    have hplain := hburst.payload nonce
    rw [containerPayload_payload] at hplain
    exact featureCrc32_ne_of_burst hplain
  have hfailed : ∀ m, decryptFileData m (containerHeader plain nonce ++ payload) = .failed := by
    intro m
    rw [decryptFileData_header nonce hpos hmax m hlen, if_pos hcrc, ite_self]
  unfold fwxFeatureDecryptFile
  rcases readFile_cases faults.read (FEATURE_HEADER_SIZE + FWX_FEATURE_MAX_SIZE)
    (containerHeader plain nonce ++ payload) with h | h
  · rw [h]
    rfl
  · rw [h]
    exact hfailed _

/-- The first lines of a library. -/
def libraryPlain : List UInt8 := ascii "#version 25.10\n#class game\n1001 games:[tcp;;443;games.example;;]\n"

theorem feature_container_integrity_library :
    fwxFeatureDecryptFile {} (some (container libraryPlain 0x0123456789ABCDEF)) =
      ⟨0, some (libraryPlain ++ [0]), 65⟩ ∧
    ∀ payload, Burst (containerPayload libraryPlain 0x0123456789ABCDEF) payload → ∀ faults,
      fwxFeatureDecryptFile faults (some (containerHeader libraryPlain 0x0123456789ABCDEF ++ payload)) =
        ⟨-1, none, 0⟩ :=
  feature_container_integrity 0x0123456789ABCDEF (show 0 < libraryPlain.length by decide)
    (show libraryPlain.length ≤ FWX_FEATURE_MAX_SIZE by decide)

end Oaf
