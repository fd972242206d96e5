/-
# What the kernel reads of a netlink message

`fwx_netlink_msg_rcv` (`fwx_main.c`) gets a socket buffer of some length.  Behind the netlink header lies a header
of the module with a length of its own, and behind that a message for one of four handlers.

The length of the buffer is only compared with the netlink header; after that the inner length is believed.

* `netlink_reads_inside_iff`: exactly when only the received bytes are read.
* `netlinkMsg_of_fwxd`, `netlinkMsgFits_of_fwxd`: a message of fwxd is handled as `fwxNetlinkMsgRcv` says, and fits
  where it is there in full.
-/
import Oaf.Lib.Rd
import Oaf.Custom.Delivery

namespace Oaf

open CLib

/-! ## 1. The handlers -/

/-- `nlmsg_total_size(0)`, which is where `NLMSG_DATA` is. -/
def NLMSG_HDRLEN : Nat := 16

/-- `sizeof(struct af_msg_hdr)`. -/
def AF_MSG_HDR_SIZE : Int := 8

def AF_MSG_MAGIC : BitVec 32 := 0xa0b0c0d0

def FWX_NL_MSG_INIT : Int := 0
def FWX_NL_MSG_ADD_FEATURE : Int := 1
def FWX_NL_MSG_CLEAN_FEATURE : Int := 2
def FWX_NL_MSG_FEATURE_LOAD_DONE : Int := 3

/-- What is done for a message; a feature is what `strncpy` copied of it. -/
inductive Handled
  | ignored
  | initialised
  | featureAdded (feature : List UInt8)
  | featuresCleaned
  | featuresLoaded
deriving DecidableEq

/-- `af_add_feature_msg_handle`, as far as it reads the message. -/
def readAddFeatureMsg (data len : Int) : Rd Handled := do
  if len ≤ 0 ∨ MAX_FEATURE_LINE_LEN ≤ len then pure .ignored
  else
    let feature ← Rd.getStrn len.toNat data
    pure (.featureAdded feature)

/-- `fwx_user_msg_handle`, as far as it reads the message. -/
def readUserMsg (order : ByteOrder) (data len : Int) : Rd Handled := do
  if len < FWX_NL_MSG_SIZE then pure .ignored
  else
    let action ← Rd.getWord order data
    if action.toInt = FWX_NL_MSG_INIT then pure .initialised
    else if action.toInt = FWX_NL_MSG_ADD_FEATURE then
      readAddFeatureMsg (data + FWX_NL_MSG_SIZE) (len - FWX_NL_MSG_SIZE)
    else if action.toInt = FWX_NL_MSG_CLEAN_FEATURE then pure .featuresCleaned
    else if action.toInt = FWX_NL_MSG_FEATURE_LOAD_DONE then pure .featuresLoaded
    else pure .ignored

/-- `fwx_netlink_msg_rcv`, as far as it reads the message.  Offset 0 is where the buffer starts, `len` its
length. -/
def readNetlinkMsg (order : ByteOrder) (len : Nat) : Rd Handled := do
  if len < NLMSG_HDRLEN then pure .ignored
  else
    let magic ← Rd.getWord order NLMSG_HDRLEN
    if magic ≠ AF_MSG_MAGIC then pure .ignored
    else
      let hdrLen ← Rd.getWord order (NLMSG_HDRLEN + 4)
      if hdrLen.toInt ≤ 0 ∨ MAX_FWX_NETLINK_MSG_LEN ≤ hdrLen.toInt then pure .ignored
      else readUserMsg order (NLMSG_HDRLEN + AF_MSG_HDR_SIZE) hdrLen.toInt

/-! ## 2. Where they read -/

/-- The feature of such a length lies before the end, or a NUL of it does. -/
def FeatureTextFits (m : Mem) (data len : Int) (hi : Int) : Prop :=
  0 < len → len < MAX_FEATURE_LINE_LEN → data + len ≤ hi ∨ ∃ k, data ≤ k ∧ k < hi ∧ m k = 0

/-- The action lies before the end, and a feature that is to be added fits. -/
def UserMsgFits (order : ByteOrder) (m : Mem) (data len hi : Int) : Prop :=
  FWX_NL_MSG_SIZE ≤ len → data + FWX_NL_MSG_SIZE ≤ hi ∧
    ((m.word order data).toInt = FWX_NL_MSG_ADD_FEATURE →
      FeatureTextFits m (data + FWX_NL_MSG_SIZE) (len - FWX_NL_MSG_SIZE) hi)

/-- A message with a netlink header has the bytes of the magic, of the inner length behind the right magic, and of
what an inner length within the limits announces. -/
def NetlinkMsgFits (order : ByteOrder) (m : Mem) (len : Nat) : Prop :=
  NLMSG_HDRLEN ≤ len → NLMSG_HDRLEN + 4 ≤ len ∧
    (m.word order NLMSG_HDRLEN = AF_MSG_MAGIC → (NLMSG_HDRLEN + AF_MSG_HDR_SIZE ≤ len) ∧
      (0 < (m.word order (NLMSG_HDRLEN + 4)).toInt →
        (m.word order (NLMSG_HDRLEN + 4)).toInt < MAX_FWX_NETLINK_MSG_LEN →
        UserMsgFits order m (NLMSG_HDRLEN + AF_MSG_HDR_SIZE) (m.word order (NLMSG_HDRLEN + 4)).toInt len))

variable {order : ByteOrder} {m : Mem} {data len lo hi : Int}

theorem within_readAddFeatureMsg (hdata : lo ≤ data) :
    Rd.Within lo hi m (readAddFeatureMsg data len) ↔ FeatureTextFits m data len hi := by
  unfold readAddFeatureMsg FeatureTextFits
  rw [Rd.within_ite, Rd.within_bind, Rd.within_getStrn hdata]
  constructor
  · rintro ⟨-, h⟩ hpos hmax
    obtain ⟨hcopy, -⟩ := h (by omega)
    obtain hzero | hend | hnul := hcopy
    · omega
    · exact .inl (by omega)
    · exact .inr hnul
  · intro h
    refine ⟨fun _ => Rd.within_pure _, fun hlen => ⟨.inr ?_, Rd.within_pure _⟩⟩
    obtain hend | hnul := h (by omega) (by omega)
    · exact .inl (by omega)
    · exact .inr hnul

theorem within_readUserMsg (hdata : lo ≤ data) :
    Rd.Within lo hi m (readUserMsg order data len) ↔ UserMsgFits order m data len hi := by
  unfold readUserMsg UserMsgFits
  rw [Rd.within_ite, Rd.within_bind, Rd.within_getWord, Rd.val_getWord]
  have hsize : FWX_NL_MSG_SIZE = 4 := rfl
  have hadd : Rd.Within lo hi m (readAddFeatureMsg (data + FWX_NL_MSG_SIZE) (len - FWX_NL_MSG_SIZE)) ↔
      FeatureTextFits m (data + FWX_NL_MSG_SIZE) (len - FWX_NL_MSG_SIZE) hi :=
    within_readAddFeatureMsg (by omega)
  constructor
  · rintro ⟨-, h⟩ hlen
    obtain ⟨haction, hhandler⟩ := h (by omega)
    refine ⟨by omega, fun hfeature => ?_⟩
    rw [hfeature, if_neg (by decide), if_pos rfl] at hhandler
    exact hadd.mp hhandler
  · intro h
    refine ⟨fun _ => Rd.within_pure _, fun hlen => ?_⟩
    obtain ⟨haction, hfeature⟩ := h (by omega)
    refine ⟨⟨hdata, by omega⟩, ?_⟩
    split
    · exact Rd.within_pure _
    · split
      · rename_i heq
        exact hadd.mpr (hfeature heq)
      · split
        · exact Rd.within_pure _
        · split <;> exact Rd.within_pure _

/-- **Only the received bytes are read** exactly when each header is there before it is used, and the message that it
announces is there too. -/
theorem netlink_reads_inside_iff (order : ByteOrder) (m : Mem) (len : Nat) :
    Rd.Within 0 len m (readNetlinkMsg order len) ↔ NetlinkMsgFits order m len := by
  unfold readNetlinkMsg NetlinkMsgFits
  rw [Rd.within_ite, Rd.within_bind, Rd.within_getWord, Rd.val_getWord]
  have hhdr : (NLMSG_HDRLEN : Int) = 16 := rfl
  have hsize : AF_MSG_HDR_SIZE = 8 := rfl
  have huser : ∀ hdrLen, Rd.Within 0 len m (readUserMsg order (NLMSG_HDRLEN + AF_MSG_HDR_SIZE) hdrLen) ↔
      UserMsgFits order m (NLMSG_HDRLEN + AF_MSG_HDR_SIZE) hdrLen len :=
    fun hdrLen => within_readUserMsg (by omega)
  constructor
  · rintro ⟨-, h⟩ hlen
    obtain ⟨hmagic, hrest⟩ := h (by omega)
    refine ⟨by omega, fun heq => ?_⟩
    rw [if_neg (by simpa using heq), Rd.within_bind, Rd.within_getWord, Rd.val_getWord] at hrest
    obtain ⟨hinner, huserMsg⟩ := hrest
    refine ⟨by omega, fun hpos hmax => ?_⟩
    rw [if_neg (by omega)] at huserMsg
    exact (huser _).mp huserMsg
  · intro h
    refine ⟨fun _ => Rd.within_pure _, fun hlen => ?_⟩
    obtain ⟨hmagic, hrest⟩ := h (by omega)
    refine ⟨⟨by omega, by omega⟩, ?_⟩
    split
    · exact Rd.within_pure _
    · rename_i heq
      obtain ⟨hinner, huserMsg⟩ := hrest (by simpa using heq)
      rw [Rd.within_bind, Rd.within_getWord, Rd.val_getWord]
      refine ⟨⟨by omega, by omega⟩, ?_⟩
      split
      · exact Rd.within_pure _
      · exact (huser _).mpr (huserMsg (by omega) (by omega))

/-- A message of 28 bytes that announces 32 bytes of a feature. -/
def overlongMsg : Mem := fun i =>
  ([0, 0, 0, 0, 0, 0, 0, 0, 0, 0, 0, 0, 0, 0, 0, 0, 0xd0, 0xc0, 0xb0, 0xa0, 36, 0, 0, 0, 1, 0, 0, 0] :
    List UInt8).getD i.toNat 65

theorem overlongMsg_reads_on : ¬ Rd.Within 0 28 overlongMsg (readNetlinkMsg .little 28) := by
  intro h
  exact absurd (h 59 (by decide)).2 (by decide)

/-! ## 3. The messages of fwxd -/

/-- What is done to the features. -/
def Handled.run (beyond : Beyond) (st : KernelState) : Handled → Option KernelState
  | .ignored | .initialised => some st
  | .featureAdded feature => (afInitFeature beyond st (.ofBytes feature)).toOption
  | .featuresCleaned => some (afCleanFeatureList st)
  | .featuresLoaded => afFeatureLoadDoneMsgHandle st

def FeatureMsg.action : FeatureMsg → Int
  | .addFeature _ _ => FWX_NL_MSG_ADD_FEATURE
  | .cleanFeature => FWX_NL_MSG_CLEAN_FEATURE
  | .featureLoadDone => FWX_NL_MSG_FEATURE_LOAD_DONE

def FeatureMsg.payload : FeatureMsg → List UInt8
  | .addFeature _ data => data
  | .cleanFeature | .featureLoadDone => []

def FeatureMsg.beyond : FeatureMsg → Beyond
  | .addFeature beyond _ => beyond
  | .cleanFeature | .featureLoadDone => fun _ => .empty

/-- What `fwx_nl_send_msg_to_kernel` puts behind the netlink header. -/
structure Carries (order : ByteOrder) (m : Mem) (msg : FeatureMsg) : Prop where
  magic : m.word order NLMSG_HDRLEN = AF_MSG_MAGIC
  len : (m.word order (NLMSG_HDRLEN + 4)).toInt = msg.len
  action : (m.word order (NLMSG_HDRLEN + AF_MSG_HDR_SIZE)).toInt = msg.action
  payload : m.Holds (NLMSG_HDRLEN + AF_MSG_HDR_SIZE + FWX_NL_MSG_SIZE) msg.payload

theorem FeatureMsg.len_eq (msg : FeatureMsg) : msg.len = FWX_NL_MSG_SIZE + msg.payload.length := by
  cases msg <;> rfl

/-- **A message of fwxd** is handled as the model of its delivery has it. -/
theorem netlinkMsg_of_fwxd {msg : FeatureMsg} {n : Nat} (h : Carries order m msg) (hn : NLMSG_HDRLEN ≤ n)
    (st : KernelState) :
    ((readNetlinkMsg order n).val m).run msg.beyond st = fwxNetlinkMsgRcv st msg := by
  rw [readNetlinkMsg, if_neg (Nat.not_lt.mpr hn), Rd.val_bind, Rd.val_getWord, if_neg (by simp [h.magic]),
    Rd.val_bind, Rd.val_getWord, h.len, fwxNetlinkMsgRcv]
  split
  · rfl
  · have hsize : ¬ msg.len < FWX_NL_MSG_SIZE := by
      rw [msg.len_eq]
      omega
    rw [readUserMsg, if_neg hsize, Rd.val_bind, Rd.val_getWord, h.action]
    cases hmsg : msg with
    | cleanFeature => rfl
    | featureLoadDone => rfl
    | addFeature beyond data =>
      have hdata := h.payload
      rw [hmsg, FeatureMsg.payload] at hdata
      have hlen : FWX_NL_MSG_SIZE + (data.length : Int) - FWX_NL_MSG_SIZE = data.length := by omega
      rw [FeatureMsg.action, if_neg (by decide), if_pos rfl, FeatureMsg.len, hlen, readAddFeatureMsg,
        fwxUserMsgHandle, afAddFeatureMsgHandle]
      by_cases hlimits : (data.length : Int) ≤ 0 ∨ (MAX_FEATURE_LINE_LEN : Int) ≤ data.length
      · rw [if_pos hlimits]
        simp only [Bool.or_eq_true, decide_eq_true_eq, if_pos hlimits]
        rfl
      · rw [if_neg hlimits, Rd.val_bind, Int.toNat_natCast, Rd.val_getStrn hdata]
        simp only [Bool.or_eq_true, decide_eq_true_eq, if_neg hlimits, Rd.val_pure, Handled.run,
          FeatureMsg.beyond, List.take_length]
        rw [show CStr.ofBytes (data.takeWhile (· != 0)) = CStr.ofBytes data from
          CStr.ofBytes_bytes (CStr.ofBytes data)]

/-- A message of fwxd that is there in full fits. -/
theorem netlinkMsgFits_of_fwxd {msg : FeatureMsg} {n : Nat} (h : Carries order m msg)
    (hn : NLMSG_HDRLEN + AF_MSG_HDR_SIZE + msg.len ≤ n) : NetlinkMsgFits order m n := by
  have hhdr : (NLMSG_HDRLEN : Int) = 16 := rfl
  have hsize : AF_MSG_HDR_SIZE = 8 := rfl
  have hmsg : FWX_NL_MSG_SIZE = 4 := rfl
  rw [msg.len_eq] at hn
  refine fun _ => ⟨by omega, fun _ => ⟨by omega, fun _ _ _ => ⟨by omega, fun _ _ _ => .inl ?_⟩⟩⟩
  rw [h.len, msg.len_eq]
  omega

end Oaf
