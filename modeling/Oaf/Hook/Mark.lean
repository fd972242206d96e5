/-
# The connection mark

`ct->mark` holds an app id in its low 16 bits and four flags in its high bits; everything the
module writes goes through `fwx_ct_mark_update`.

* `markUpdate_and_self`, `markUpdate_and_disjoint`: an update is read back under its own mask,
  and leaves every disjoint mask alone.
* `appId_setAppid`: an id is read back cut to 16 bits.
-/
import Mathlib.Data.UInt
import Mathlib.Tactic.Common

namespace Oaf

def FWX_CT_APPID_MASK : UInt32 := 0x0000FFFF
def FWX_CT_DNS_MATCH_BIT : UInt32 := 0x10000000
def FWX_CT_IGNORE_BIT : UInt32 := 0x20000000
def FWX_CT_CLIENT_HELLO_BIT : UInt32 := 0x40000000
def FWX_CT_DROP_BIT : UInt32 := 0x80000000

/-! ## 1. The accessors -/

/-- `fwx_ct_mark_update`. -/
def fwxCtMarkUpdate (mark mask value : UInt32) : UInt32 := (mark &&& ~~~mask) ||| (value &&& mask)

/-- `fwx_ct_get_appid`. -/
def fwxCtGetAppid (mark : UInt32) : UInt32 := mark &&& FWX_CT_APPID_MASK

/-- `fwx_ct_is_valid_appid`. -/
def fwxCtIsValidAppid (appId : UInt32) : Bool := 0 < appId && appId ≤ 32000

/-- `fwx_ct_set_appid`. -/
def fwxCtSetAppid (mark appId : UInt32) : UInt32 := fwxCtMarkUpdate mark FWX_CT_APPID_MASK appId

/-- `fwx_ct_test_bit`. -/
def fwxCtTestBit (mark bit : UInt32) : Bool := mark &&& bit != 0

/-- `fwx_ct_set_bit`. -/
def fwxCtSetBit (mark bit : UInt32) (set : Bool) : UInt32 :=
  fwxCtMarkUpdate mark bit (if set then bit else 0)

/-- `fwx_ct_has_valid_drop_mark`. -/
def fwxCtHasValidDropMark (mark : UInt32) : Bool :=
  let appId := fwxCtGetAppid mark
  fwxCtTestBit mark FWX_CT_DROP_BIT && (appId == 0 || fwxCtIsValidAppid appId)

/-! ## 2. Reading an update back -/

theorem markUpdate_and_self (mark mask value : UInt32) :
    fwxCtMarkUpdate mark mask value &&& mask = value &&& mask := by
  apply UInt32.toBitVec_inj.mp
  ext i hi
  simp only [fwxCtMarkUpdate, UInt32.toBitVec_and, UInt32.toBitVec_or, UInt32.toBitVec_not,
    BitVec.getElem_and, BitVec.getElem_or, BitVec.getElem_not]
  cases mask.toBitVec[i] <;> simp

theorem markUpdate_and_disjoint {mask keep : UInt32} (h : keep &&& mask = 0)
    (mark value : UInt32) : fwxCtMarkUpdate mark mask value &&& keep = mark &&& keep := by
  apply UInt32.toBitVec_inj.mp
  ext i hi
  have hi' : (keep &&& mask).toBitVec[i] = false := by
    rw [h]
    simp
  simp only [UInt32.toBitVec_and, BitVec.getElem_and] at hi'
  simp only [fwxCtMarkUpdate, UInt32.toBitVec_and, UInt32.toBitVec_or, UInt32.toBitVec_not,
    BitVec.getElem_and, BitVec.getElem_or, BitVec.getElem_not]
  revert hi'
  cases mask.toBitVec[i] <;> cases keep.toBitVec[i] <;> simp

@[simp] theorem testBit_setBit_self {bit : UInt32} (hbit : bit ≠ 0) (mark : UInt32) (set : Bool) :
    fwxCtTestBit (fwxCtSetBit mark bit set) bit = set := by
  rw [fwxCtTestBit, fwxCtSetBit, markUpdate_and_self]
  cases set with
  | false => simp
  | true => simpa using hbit

theorem testBit_setBit_of_disjoint {bit bit' : UInt32} (h : bit' &&& bit = 0) (mark : UInt32)
    (set : Bool) : fwxCtTestBit (fwxCtSetBit mark bit set) bit' = fwxCtTestBit mark bit' := by
  rw [fwxCtTestBit, fwxCtSetBit, markUpdate_and_disjoint h, fwxCtTestBit]

theorem appId_setBit {bit : UInt32} (h : FWX_CT_APPID_MASK &&& bit = 0) (mark : UInt32)
    (set : Bool) : fwxCtGetAppid (fwxCtSetBit mark bit set) = fwxCtGetAppid mark := by
  rw [fwxCtGetAppid, fwxCtSetBit, markUpdate_and_disjoint h, fwxCtGetAppid]

theorem testBit_setAppid {bit : UInt32} (h : bit &&& FWX_CT_APPID_MASK = 0)
    (mark appId : UInt32) : fwxCtTestBit (fwxCtSetAppid mark appId) bit = fwxCtTestBit mark bit := by
  rw [fwxCtTestBit, fwxCtSetAppid, markUpdate_and_disjoint h, fwxCtTestBit]

/-- **An app id is read back cut to 16 bits.** -/
theorem appId_setAppid (mark appId : UInt32) :
    (fwxCtGetAppid (fwxCtSetAppid mark appId)).toNat = appId.toNat % 2 ^ 16 := by
  rw [fwxCtGetAppid, fwxCtSetAppid, markUpdate_and_self, UInt32.toNat_and, FWX_CT_APPID_MASK]
  exact Nat.and_two_pow_sub_one_eq_mod appId.toNat 16

theorem isValidAppid_iff {appId : UInt32} :
    fwxCtIsValidAppid appId = true ↔ 0 < appId.toNat ∧ appId.toNat ≤ 32000 := by
  rw [fwxCtIsValidAppid, Bool.and_eq_true, decide_eq_true_iff, decide_eq_true_iff,
    UInt32.lt_iff_toNat_lt, UInt32.le_iff_toNat_le]
  exact Iff.rfl

end Oaf
