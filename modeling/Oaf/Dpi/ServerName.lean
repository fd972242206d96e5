/-
# The server name of a TLS hello

`dpi_https_proto` slides over the payload for a `server_name` extension.  `SniFits` says what
the scanner takes for one that lies wholly inside the payload; the first of them should be the
name that is reported.

The scanner asks for `i + 9 + n < data_len`, one byte more than the name has, so that a name
that ends with the payload is passed over.  Nothing behind such a name can pass: a later mark
would take its zeros or its length from bytes of the name (`SniFits.none_behind`).

* `dpiHttpsLoop_spec`: what the scan finds, for any payload.
* `dpiHttpsProto_names_iff`: the first name is reported, or its absence, iff that name does not
  end with the payload.
-/
import Oaf.Dpi.Reads
import Mathlib.Algebra.Order.Ring.Int
import Mathlib.Order.Bounds.Basic
import Mathlib.Order.Nat

namespace Oaf

open CLib

variable {m : Mem} {len i : Int}

/-! ## 1. One mark -/

/-- `check_domain` looks at every byte of a name. -/
theorem checkDomain_iff {pos : Int} {n : Nat} :
    (checkDomain pos n).val m = true ↔ ∀ k < n, isDomainByte (m (pos + (k : Nat))) = true := by
  induction n generalizing pos with
  | zero => simp [checkDomain]
  | succ n ih =>
    rw [checkDomain, Rd.val_bind, Rd.val_get, Rd.val_ite]
    have hshift : ∀ k : Nat, pos + ((k + 1 : Nat) : Int) = pos + 1 + (k : Nat) := by
      intro k
      omega
    rw [Nat.forall_lt_succ_left', Nat.cast_zero, add_zero]
    by_cases hbyte : isDomainByte (m pos) = true
    · rw [if_pos hbyte, ih]
      simp only [hbyte, true_and, hshift]
    · simp [hbyte]

/-- The length of the name behind a mark, as its two bytes give it. -/
def nameLen (m : Mem) (i : Int) : Nat := (m (i + 7)).toNat * 256 + (m (i + 8)).toNat

/-- A `server_name` extension as the scanner knows it, wholly inside the payload. -/
structure SniFits (m : Mem) (len i : Int) : Prop where
  start : 0 ≤ i
  zeros : m i = 0 ∧ m (i + 1) = 0 ∧ m (i + 2) = 0
  mark : m (i + 3) ≠ 0
  long : MIN_HOST_LEN < nameLen m i
  short : nameLen m i ≤ MAX_HOST_LEN
  fits : i + 9 + nameLen m i ≤ len
  domain : ∀ k < nameLen m i, isDomainByte (m (i + 9 + (k : Nat))) = true

theorem val_isSniMark :
    (isSniMark i).val m = true ↔ (m i = 0 ∧ m (i + 1) = 0 ∧ m (i + 2) = 0) ∧ m (i + 3) ≠ 0 := by
  simp [isSniMark, and_assoc]

/-- **What a mark leads to**: the extension, when a byte is left behind it. -/
theorem sniAt_eq_some {n : Nat} (h0 : 0 ≤ i) :
    (sniAt len i).val m = some n ↔
      n = nameLen m i ∧ SniFits m len i ∧ i + 9 + nameLen m i < len := by
  have hlen : (sniLen i).val m = nameLen m i := by
    simp only [sniLen, nameLen, HTTPS_LEN_OFFSET, Rd.val_bind, Rd.val_get, Rd.val_pure]
    rw [show i + 7 + 1 = i + 8 by omega]
  constructor
  · intro h
    rw [sniAt, Rd.val_bind, Rd.val_ite] at h
    split at h
    · rename_i hmark
      rw [Rd.val_bind, Rd.val_ite, hlen] at h
      split at h
      · cases h
      · rename_i hwindow
        rw [Rd.val_ite] at h
        split at h
        · rename_i hfit
          rw [Rd.val_bind, Rd.val_ite] at h
          split at h
          · rename_i hcheck
            obtain rfl := Option.some.inj h
            simp only [not_or, not_le, not_lt, HTTPS_URL_OFFSET] at hwindow hfit hcheck
            obtain ⟨hzeros, hnz⟩ := val_isSniMark.mp hmark
            exact ⟨rfl, ⟨h0, hzeros, hnz, hwindow.1, hwindow.2.2, hfit.le,
              checkDomain_iff.mp hcheck⟩, hfit⟩
          · cases h
        · cases h
    · cases h
  · rintro ⟨rfl, hfits, hlt⟩
    have hwindow : ¬ (nameLen m i ≤ MIN_HOST_LEN ∨ len < nameLen m i ∨
        MAX_HOST_LEN < nameLen m i) := by
      have := hfits.long
      have := hfits.short
      omega
    have hfit : i + HTTPS_URL_OFFSET + (nameLen m i : Int) < len := hlt
    have hcheck : (checkDomain (i + HTTPS_URL_OFFSET) (nameLen m i)).val m = true :=
      checkDomain_iff.mpr hfits.domain
    rw [sniAt, Rd.val_bind, Rd.val_ite, if_pos (val_isSniMark.mpr ⟨hfits.zeros, hfits.mark⟩),
      Rd.val_bind, Rd.val_ite, hlen, if_neg hwindow, Rd.val_ite, if_pos hfit, Rd.val_bind,
      Rd.val_ite, if_pos hcheck]
    rfl

/-! ## 2. The scan -/

/-- What is reported for the extension at `i`. -/
def sniFlow (m : Mem) (flow : FlowInfo) (i : Int) : FlowInfo :=
  { flow with
    https := { matched := true, urlPos := some (i + 9), urlLen := nameLen m i }
    clientHello := false }

/-- **The scan from `i` on**: the first extension with a byte behind it, or none. -/
theorem dpiHttpsLoop_spec {flow : FlowInfo} {fuel : Nat} (h0 : 0 ≤ i) (hfuel : i + fuel = len)
    (hlt : i < len) :
    (∃ j, IsLeast {j | i ≤ j ∧ SniFits m len j ∧ j + 9 + nameLen m j < len} j ∧
        (dpiHttpsLoop len flow fuel i).val m = (0, sniFlow m flow j)) ∨
      (∀ j, i ≤ j → SniFits m len j → len ≤ j + 9 + nameLen m j) ∧
        (dpiHttpsLoop len flow fuel i).val m = (-1, { flow with clientHello := true }) := by
  induction fuel generalizing i with
  | zero => omega
  | succ fuel ih =>
    rw [dpiHttpsLoop, if_pos hlt]
    split
    · rename_i hend
      refine Or.inr ⟨fun j hij hj => ?_, rfl⟩
      simp only [HTTPS_URL_OFFSET] at hend
      omega
    · rename_i hend
      simp only [HTTPS_URL_OFFSET] at hend
      rw [Rd.val_bind]
      cases hsni : (sniAt len i).val m with
      | some n =>
        obtain ⟨rfl, hfits⟩ := (sniAt_eq_some h0).mp hsni
        exact Or.inl ⟨i, ⟨⟨le_refl i, hfits⟩, fun j hj => hj.1⟩, rfl⟩
      | none =>
        have hhere : ¬ (SniFits m len i ∧ i + 9 + nameLen m i < len) := by
          intro h
          have hsome := (sniAt_eq_some h0).mpr ⟨rfl, h⟩
          rw [hsni] at hsome
          cases hsome
        -- the extension at `i` is none, so that the search from `i` is the search behind it
        have hnext : ∀ j, i ≤ j → SniFits m len j ∧ j + 9 + nameLen m j < len → i + 1 ≤ j := by
          intro j hij hj
          rcases hij.eq_or_lt with rfl | hlt
          · exact absurd hj hhere
          · exact hlt
        rcases @ih (i + 1) (by omega) (by omega) (by omega) with ⟨j, hj, hval⟩ | ⟨hnone, hval⟩
        · refine Or.inl ⟨j, ⟨⟨by have := hj.1.1; omega, hj.1.2⟩, ?_⟩, hval⟩
          intro k hk
          exact hj.2 ⟨hnext k hk.1 hk.2, hk.2⟩
        · refine Or.inr ⟨fun j hij hj => ?_, hval⟩
          by_contra hlt
          have hlt : j + 9 + nameLen m j < len := by omega
          exact absurd (hnone j (hnext j hij ⟨hj, hlt⟩) hj) (not_le.mpr hlt)

/-! ## 3. A name that ends with the payload -/

theorem isDomainByte_toNat {c : UInt8} (h : isDomainByte c = true) : 45 ≤ c.toNat := by
  simp only [isDomainByte, Bool.or_eq_true, Bool.and_eq_true, decide_eq_true_eq, beq_iff_eq,
    UInt8.le_iff_toNat_le] at h
  rcases h with ((((h | h) | h) | rfl) | rfl) | rfl
  · exact le_trans (by decide) h.1
  · exact le_trans (by decide) h.1
  · exact le_trans (by decide) h.1
  · decide
  · decide
  · decide

/-- **Nothing is found behind a name that ends with the payload.** -/
theorem SniFits.none_behind (h : SniFits m len i) (hend : i + 9 + nameLen m i = len) {j : Int}
    (hij : i < j) (hj : SniFits m len j) : len ≤ j + 9 + nameLen m j := by
  by_contra hlt
  have hlong := hj.long
  have hshort := hj.short
  have hlongi := h.long
  simp only [MIN_HOST_LEN, MAX_HOST_LEN] at hlong hshort hlongi
  have hname : ∀ k, i + 9 ≤ k → k < len → 45 ≤ (m k).toNat := by
    intro k hk hklen
    have hbyte := h.domain (k - (i + 9)).toNat (by omega)
    rw [show i + 9 + ((k - (i + 9)).toNat : Int) = k by omega] at hbyte
    exact isDomainByte_toNat hbyte
  -- its third zero is no byte of the name, so that its length is
  have hthird : j + 2 < i + 9 := by
    by_contra hge
    have := hname (j + 2) (by omega) (by omega)
    rw [hj.zeros.2.2] at this
    exact absurd this (by decide)
  have hnear : j = i + 1 ∨ j = i + 2 ∨ j = i + 3 ∨ j = i + 4 ∨ j = i + 5 ∨ j = i + 6 := by omega
  rcases hnear with rfl | rfl | rfl | hfar
  · exact h.mark (by have := hj.zeros.2.2; rwa [show i + 1 + 2 = i + 3 by omega] at this)
  · exact h.mark (by have := hj.zeros.2.1; rwa [show i + 2 + 1 = i + 3 by omega] at this)
  · exact h.mark hj.zeros.1
  · by_cases h6 : j = i + 6
    · -- its zeros are the length before the name
      subst h6
      have hhi := hj.zeros.2.1
      have hlo := hj.zeros.2.2
      rw [show i + 6 + 1 = i + 7 by omega] at hhi
      rw [show i + 6 + 2 = i + 8 by omega] at hlo
      simp [nameLen, hhi, hlo] at hlongi
    · have := hname (j + 7) (by omega) (by omega)
      rw [nameLen] at hshort
      omega

/-! ## 4. `dpi_https_proto` -/

/-- The payload starts the TLS record of a `ClientHello`. -/
def StartsHello (m : Mem) : Prop := m 0 = 0x16 ∧ m 1 = 0x03 ∧ m 5 = 0x01

theorem val_isClientHello : isClientHello.val m = true ↔ StartsHello m := by
  simp [isClientHello, StartsHello, and_assoc]

/-- The first name of the payload is reported; if there is none, that there may be more to come. -/
structure NamesServer (m : Mem) (flow : FlowInfo) : Prop where
  found : ∀ i, IsLeast {j | SniFits m flow.l4Len j} i →
    (dpiHttpsProto flow).val m = (0, sniFlow m flow i)
  missing : (∀ i, ¬ SniFits m flow.l4Len i) →
    (dpiHttpsProto flow).val m = (-1, { flow with clientHello := true })

theorem sniFits_isLeast {j : Int} (hj : SniFits m len j) :
    ∃ i, IsLeast {j | SniFits m len j} i := by
  classical
  have hex : ∃ n : Nat, SniFits m len (n : Int) :=
    ⟨j.toNat, by rw [Int.toNat_of_nonneg hj.start]; exact hj⟩
  refine ⟨(Nat.find hex : Int), Nat.find_spec hex, fun k hk => ?_⟩
  have hk' : SniFits m len (k.toNat : Int) := by
    rw [Int.toNat_of_nonneg hk.start]
    exact hk
  have := Nat.find_min' hex hk'
  have := hk.start
  omega

/-- **The server name is reported iff it does not end with the payload**: of the first name, if
there is one, at least one payload byte must be left behind it. -/
theorem dpiHttpsProto_names_iff (m : Mem) (flow : FlowInfo)
    (hlen : MIN_HTTP_DATA_LEN ≤ flow.l4Len) (hello : StartsHello m) :
    NamesServer m flow ↔
      ∀ i, IsLeast {j | SniFits m flow.l4Len j} i → i + 9 + nameLen m i ≠ flow.l4Len := by
  have hloop : (dpiHttpsProto flow).val m =
      (dpiHttpsLoop flow.l4Len flow flow.l4Len.toNat 0).val m := by
    rw [dpiHttpsProto, if_neg (by omega), Rd.val_bind, Rd.val_ite,
      if_pos (Or.inl (val_isClientHello.mpr hello))]
  simp only [MIN_HTTP_DATA_LEN] at hlen
  have hspec := @dpiHttpsLoop_spec m flow.l4Len 0 flow flow.l4Len.toNat (le_refl 0) (by omega)
    (by omega)
  rw [← hloop] at hspec
  constructor
  · intro hnames i hi hend
    have hval := hnames.found i hi
    rcases hspec with ⟨j, ⟨⟨-, hj, hlt⟩, -⟩, -⟩ | ⟨-, hmiss⟩
    · rcases (hi.2 hj).eq_or_lt with rfl | hij
      · omega
      · exact absurd (hi.1.none_behind hend hij hj) (by omega)
    · rw [hmiss] at hval
      cases hval
  · intro hends
    refine ⟨fun i hi => ?_, fun hnone => ?_⟩
    · have hlt : i + 9 + nameLen m i < flow.l4Len := lt_of_le_of_ne hi.1.fits (hends i hi)
      rcases hspec with ⟨j, ⟨⟨-, hj, hjlt⟩, hleast⟩, hval⟩ | ⟨hmiss, -⟩
      · have hji : j ≤ i := hleast ⟨hi.1.start, hi.1, hlt⟩
        rw [hval, le_antisymm hji (hi.2 hj)]
      · exact absurd (hmiss i hi.1.start hi.1) (by omega)
    · rcases hspec with ⟨j, ⟨⟨-, hj, -⟩, -⟩, -⟩ | ⟨-, hmiss⟩
      · exact absurd hj (hnone j)
      · exact hmiss

/-- A flow with the given payload and nothing else. -/
def payloadFlow (payload : List UInt8) : FlowInfo where
  l4Data i := payload.getD i.toNat 0
  l4Len := payload.length

/-- A hello with one name of five bytes. -/
def helloBytes : List UInt8 := [0x16, 3, 1, 1, 1, 1, 0, 0, 0, 8, 1, 1, 1, 0, 5] ++ ascii "a.b-c"

/-- With one byte behind the name. -/
theorem dpiHttpsProto_names_iff_hello :
    NamesServer (payloadFlow (helloBytes ++ [0])).l4Data (payloadFlow (helloBytes ++ [0])) := by
  refine (dpiHttpsProto_names_iff _ _ (by decide) (by unfold StartsHello; decide)).mpr ?_
  intro i hi hend
  -- a name that ends with the payload ends in its last byte, which is zero
  have hlast := hi.1.domain (nameLen (payloadFlow (helloBytes ++ [0])).l4Data i - 1)
    (by have := hi.1.long; simp only [MIN_HOST_LEN] at this; omega)
  have hlong := hi.1.long
  simp only [MIN_HOST_LEN] at hlong
  rw [show i + 9 + ((nameLen (payloadFlow (helloBytes ++ [0])).l4Data i - 1 : Nat) : Int) = 20 by
    have hlen : (payloadFlow (helloBytes ++ [0])).l4Len = 21 := rfl
    omega] at hlast
  exact absurd hlast (by decide)

/-- **A name that ends with the payload is not reported.** -/
theorem server_name_at_the_end_missed :
    MIN_HTTP_DATA_LEN ≤ (payloadFlow helloBytes).l4Len ∧
      StartsHello (payloadFlow helloBytes).l4Data ∧
      ((dpiHttpsProto (payloadFlow helloBytes)).val (payloadFlow helloBytes).l4Data).1 = -1 ∧
      ¬ NamesServer (payloadFlow helloBytes).l4Data (payloadFlow helloBytes) := by
  have hval : ((dpiHttpsProto (payloadFlow helloBytes)).val
      (payloadFlow helloBytes).l4Data).1 = -1 := by decide +kernel
  have hfits : SniFits (payloadFlow helloBytes).l4Data (payloadFlow helloBytes).l4Len 6 :=
    { start := by decide
      zeros := by decide
      mark := by decide
      long := by decide
      short := by decide
      fits := by decide
      domain := by decide }
  refine ⟨by decide, by unfold StartsHello; decide, hval, fun hnames => ?_⟩
  obtain ⟨i, hi⟩ := sniFits_isLeast hfits
  have hfound := hnames.found i hi
  rw [hfound] at hval
  cases hval

end Oaf
