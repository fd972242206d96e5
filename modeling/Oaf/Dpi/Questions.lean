/-
# The questions of a DNS message

A question on the wire is its labels, each behind its length, a zero, and type and class.
`WireQuestion` is one that `af_parse_dns_query_name` has room for; `DnsQuestion` is one whose
labels hold no NUL, so that its name is a C string.

* `afParseDnsQueryName_wire`, `wire_of_afParseDnsQueryName`: a question is read iff one is
  there, wholly inside the message.
* `dpiDnsProto_questions`: of a query message the first questions are recorded, sixteen at
  most, up to the first place where no question is.
-/
import Oaf.Dpi.Reads
import Oaf.Lib.Words
import Mathlib.Algebra.Order.Ring.Int

namespace Oaf

open CLib

/-! ## 1. Questions on the wire -/

/-- A 16-bit number in network order. -/
def wordBytes (n : Nat) : List UInt8 := [(n / 256).toUInt8, (n % 256).toUInt8]

@[simp] theorem length_wordBytes (n : Nat) : (wordBytes n).length = 2 := rfl

/-- A question as it is on the wire: its name has at most 127 bytes with its dots. -/
structure WireQuestion where
  labels : List (List UInt8)
  qtype : UInt16
  qclass : UInt16
  labels_ne : labels ≠ []
  labels_len : ∀ l ∈ labels, 1 ≤ l.length ∧ l.length ≤ 63
  name_len : ([46].intercalate labels).length ≤ 127

def labelsBytes (labels : List (List UInt8)) : List UInt8 :=
  labels.flatMap fun l => l.length.toUInt8 :: l

namespace WireQuestion

variable (question : WireQuestion)

/-- The labels, joined by dots. -/
def dotted : List UInt8 := [46].intercalate question.labels

def bytes : List UInt8 :=
  labelsBytes question.labels ++
    0 :: (wordBytes question.qtype.toNat ++ wordBytes question.qclass.toNat)

end WireQuestion

section

variable {m : Mem} {payload dnsLen offset : Int}

theorem val_readWord {i : Int} {n : Nat} (hn : n < 65536) (hm : m.Holds i (wordBytes n)) :
    (readWord i).val m = n := by
  obtain ⟨hhi, hlo, -⟩ := hm
  rw [readWord, Rd.val_bind, Rd.val_get, Rd.val_bind, Rd.val_get, Rd.val_pure, hhi, hlo,
    Nat.toUInt8_eq, UInt8.toNat_ofNat', Nat.toUInt8_eq, UInt8.toNat_ofNat']
  omega

/-- The 16-bit number at a place. -/
def wordAt (m : Mem) (i : Int) : UInt16 := ((m i).toNat * 256 + (m (i + 1)).toNat).toUInt16

theorem holds_wordAt (i : Int) : m.Holds i (wordBytes (wordAt m i).toNat) := by
  have hhi := (m i).toNat_lt
  have hlo := (m (i + 1)).toNat_lt
  have hword : (wordAt m i).toNat = (m i).toNat * 256 + (m (i + 1)).toNat := by
    rw [wordAt, Nat.toUInt16_eq, UInt16.toNat_ofNat']
    omega
  refine ⟨?_, ?_, trivial⟩
  · rw [hword, Nat.toUInt8_eq,
      show ((m i).toNat * 256 + (m (i + 1)).toNat) / 256 = (m i).toNat by omega, UInt8.ofNat_toNat]
  · rw [hword, Nat.toUInt8_eq,
      show ((m i).toNat * 256 + (m (i + 1)).toNat) % 256 = (m (i + 1)).toNat by omega,
      UInt8.ofNat_toNat]

/-- The length bytes without the two bits of a pointer. -/
theorem and_pointer_bits (c : UInt8) : c &&& 0xC0 = 0 ↔ c.toNat ≤ 63 := by
  have hall : ∀ n < 256, n &&& 192 = 0 ↔ n ≤ 63 := by decide +kernel
  rw [← hall c.toNat c.toNat_lt, ← UInt8.toNat_inj, UInt8.toNat_and]
  rfl

/-! ## 2. One label -/

/-- The bytes a label adds to a name. -/
def addLabel (out l : List UInt8) : List UInt8 :=
  (if 0 < out.length then out ++ [46] else out) ++ l.map tolower

theorem dnsLabel_val {l out : List UInt8} (hm : m.Holds (payload + offset) l) :
    (dnsLabel payload l.length offset out).val m =
      if l = [] ∨ out.length + l.length ≤ 127 then some (out ++ l.map tolower) else none := by
  induction l generalizing offset out with
  | nil => simp [dnsLabel]
  | cons c l ih =>
    obtain ⟨hc, hm⟩ := hm
    rw [show payload + offset + 1 = payload + (offset + 1) by omega] at hm
    rw [List.length_cons, dnsLabel, Rd.val_get_bind, Rd.val_ite, hc]
    by_cases hfull : MAX_DNS_DOMAIN_LEN - 1 ≤ out.length
    · rw [if_pos hfull, if_neg]
      · rfl
      · simp only [MAX_DNS_DOMAIN_LEN] at hfull
        simp only [reduceCtorEq, false_or]
        omega
    · have hroom : out.length < 127 := by
        simp only [MAX_DNS_DOMAIN_LEN] at hfull
        omega
      rw [if_neg hfull, ih hm, List.length_append, List.length_singleton, List.map_cons,
        List.append_assoc, List.singleton_append]
      congr 1
      rw [eq_iff_iff]
      constructor
      · rintro (rfl | h)
        · exact Or.inr (by simp only [List.length_nil]; omega)
        · exact Or.inr (by omega)
      · rintro (h | h)
        · cases h
        · exact Or.inr (by omega)

/-- The bytes at a place, as a list. -/
theorem holds_bytesAt (i : Int) (n : Nat) : m.Holds i (bytesAt m i n) := by
  induction n generalizing i with
  | zero => exact trivial
  | succ n ih =>
    have hcons : bytesAt m i (n + 1) = m i :: bytesAt m (i + 1) n := by
      simp only [bytesAt, List.range_succ_eq_map, List.map_cons, List.map_map, Nat.cast_zero,
        Int.add_zero]
      congr 1
      refine List.map_congr_left fun k _ => ?_
      simp only [Function.comp_apply, Nat.cast_succ]
      congr 1
      omega
    rw [hcons]
    exact ⟨rfl, ih (i + 1)⟩

theorem length_bytesAt (i : Int) (n : Nat) : (bytesAt m i n).length = n := by
  simp [bytesAt]

/-! ## 3. The label loop -/

theorem addLabel_length (out l : List UInt8) :
    (addLabel out l).length = out.length + (if 0 < out.length then 1 else 0) + l.length := by
  rw [addLabel, List.length_append, List.length_map]
  split <;> simp

theorem length_le_foldl_addLabel (out : List UInt8) (labels : List (List UInt8)) :
    out.length ≤ (labels.foldl addLabel out).length := by
  induction labels generalizing out with
  | nil => exact le_refl _
  | cons l labels ih =>
    have := ih (addLabel out l)
    rw [addLabel_length] at this
    rw [List.foldl_cons]
    omega

/-- Behind a first label, every label comes with its dot. -/
theorem foldl_addLabel {out : List UInt8} (hout : out ≠ []) (labels : List (List UInt8)) :
    labels.foldl addLabel out = out ++ (labels.flatMap (46 :: ·)).map tolower := by
  induction labels generalizing out with
  | nil => simp
  | cons l labels ih =>
    have hdot : tolower 46 = 46 := rfl
    have hadd : addLabel out l = out ++ (46 :: l).map tolower := by
      rw [addLabel, if_pos (List.length_pos_iff.mpr hout), List.map_cons, hdot, List.append_assoc,
        List.singleton_append]
    rw [List.foldl_cons, hadd, ih (by simp), List.flatMap_cons, List.map_append, List.append_assoc]

/-- **The name a list of labels gives.** -/
theorem foldl_addLabel_nil {labels : List (List UInt8)} (h : ∀ l ∈ labels, l ≠ []) :
    labels.foldl addLabel [] = ([46].intercalate labels).map tolower := by
  cases labels with
  | nil => rfl
  | cons l labels =>
    have hne : l.map tolower ≠ [] := by simpa using h l List.mem_cons_self
    have hfirst : addLabel [] l = l.map tolower := by simp [addLabel]
    rw [List.foldl_cons, hfirst, foldl_addLabel hne, intercalate_cons_eq, List.map_append]

/-- **One round of the label loop**: the length at `offset`, and the label behind it. -/
theorem dnsLabels_step {out : List UInt8} {fuel : Nat} (hlt : offset < dnsLen) :
    (dnsLabels payload dnsLen (fuel + 1) offset out).val m =
      let c := m (payload + offset)
      let l := bytesAt m (payload + offset + 1) c.toNat
      if c = 0 then some (offset + 1, out)
      else if c.toNat ≤ 63 ∧ offset + 1 + c.toNat ≤ dnsLen ∧ (addLabel out l).length ≤ 127 then
        (dnsLabels payload dnsLen fuel (offset + 1 + c.toNat) (addLabel out l)).val m
      else none := by
  rw [dnsLabels, if_pos hlt, Rd.val_get_bind]
  simp only [Rd.val_ite, Rd.val_pure]
  split
  · rfl
  · rename_i hzero
    have hpos : 0 < (m (payload + offset)).toNat := by
      rw [Nat.pos_iff_ne_zero]
      exact fun h => hzero (UInt8.toNat_inj.mp h)
    have hl := holds_bytesAt (m := m) (payload + offset + 1) (m (payload + offset)).toNat
    have hlen := length_bytesAt (m := m) (payload + offset + 1) (m (payload + offset)).toNat
    rw [show payload + offset + 1 = payload + (offset + 1) by omega] at hl hlen ⊢
    generalize bytesAt m (payload + (offset + 1)) (m (payload + offset)).toNat = l at hl hlen ⊢
    have hadd := addLabel_length out l
    by_cases hbits : (m (payload + offset)).toNat ≤ 63
    · rw [if_neg (not_not.mpr ((and_pointer_bits _).mpr hbits))]
      by_cases hfit : offset + 1 + (m (payload + offset)).toNat ≤ dnsLen
      · rw [if_neg (by omega)]
        by_cases hfull : 0 < out.length ∧ MAX_DNS_DOMAIN_LEN - 1 ≤ out.length
        · have hfull' := hfull.2
          simp only [MAX_DNS_DOMAIN_LEN] at hfull'
          rw [if_pos hfull, if_neg]
          rw [hadd]
          omega
        · rw [if_neg hfull, Rd.val_bind, ← hlen, dnsLabel_val hl, hlen]
          have hne : l ≠ [] := by
            rintro rfl
            rw [List.length_nil] at hlen
            omega
          have hname : addLabel out l =
              (if 0 < out.length then out ++ [46] else out) ++ l.map tolower := rfl
          generalize (if 0 < out.length then out ++ [46] else out) = prev at hname ⊢
          have hroom : (l = [] ∨ prev.length + (m (payload + offset)).toNat ≤ 127) ↔
              (addLabel out l).length ≤ 127 := by
            rw [hname, List.length_append, List.length_map, hlen]
            exact or_iff_right hne
          simp only [hroom]
          by_cases hfits : (addLabel out l).length ≤ 127
          · rw [if_pos hfits, if_pos ⟨hbits, hfit, hfits⟩, hname]
          · rw [if_neg hfits, if_neg fun h => hfits h.2.2]
            rfl
      · rw [if_pos (by omega), if_neg fun h => hfit h.2.1]
    · rw [if_pos fun h => hbits ((and_pointer_bits _).mp h), if_neg fun h => hbits h.1]

@[simp] theorem labelsBytes_cons (l : List UInt8) (labels : List (List UInt8)) :
    labelsBytes (l :: labels) = l.length.toUInt8 :: (l ++ labelsBytes labels) := by
  simp [labelsBytes]

theorem length_le_labelsBytes (labels : List (List UInt8)) :
    labels.length ≤ (labelsBytes labels).length := by
  induction labels with
  | nil => exact le_refl _
  | cons l labels ih =>
    rw [labelsBytes_cons, List.length_cons, List.length_cons, List.length_append]
    omega

/-- A text of known length is what lies there. -/
theorem bytesAt_of_holds {i : Int} {l : List UInt8} (hm : m.Holds i l) :
    bytesAt m i l.length = l := by
  have hlen := length_bytesAt (m := m) i l.length
  rcases (holds_bytesAt (m := m) i l.length).prefix_or hm with h | h
  · exact h.eq_of_length hlen
  · exact (h.eq_of_length hlen.symm).symm

/-- **Labels that are there are read.** -/
theorem dnsLabels_val {labels : List (List UInt8)} {out : List UInt8} {fuel : Nat}
    (hlabels : ∀ l ∈ labels, 1 ≤ l.length ∧ l.length ≤ 63)
    (hm : m.Holds (payload + offset) (labelsBytes labels ++ [0]))
    (hfit : offset + (labelsBytes labels).length < dnsLen)
    (hroom : (labels.foldl addLabel out).length ≤ 127) (hfuel : labels.length < fuel) :
    (dnsLabels payload dnsLen fuel offset out).val m =
      some (offset + (labelsBytes labels).length + 1, labels.foldl addLabel out) := by
  induction labels generalizing offset out fuel with
  | nil =>
    obtain ⟨fuel, rfl⟩ : ∃ k, fuel = k + 1 := ⟨fuel - 1, by omega⟩
    simp only [labelsBytes, List.flatMap_nil, List.length_nil, Nat.cast_zero, Int.add_zero] at hfit
    rw [dnsLabels_step hfit]
    simp only [hm.1, if_true, labelsBytes, List.flatMap_nil, List.length_nil, Nat.cast_zero,
      Int.add_zero, List.foldl_nil]
  | cons l labels ih =>
    rw [List.length_cons] at hfuel
    obtain ⟨fuel, rfl⟩ : ∃ k, fuel = k + 1 := ⟨fuel - 1, by omega⟩
    obtain ⟨hpos, h63⟩ := hlabels l List.mem_cons_self
    rw [labelsBytes_cons, List.cons_append, List.append_assoc] at hm
    rw [labelsBytes_cons, List.length_cons, List.length_append] at hfit
    obtain ⟨hc, hm⟩ := hm
    obtain ⟨hl, hm⟩ := Mem.holds_append.mp hm
    have hcount : (m (payload + offset)).toNat = l.length := by
      rw [hc, Nat.toUInt8_eq, UInt8.toNat_ofNat']
      omega
    have hzero : m (payload + offset) ≠ 0 := by
      intro h
      rw [h] at hcount
      exact absurd hcount.symm (by simpa using List.length_pos_iff.mp hpos)
    have hadd := length_le_foldl_addLabel (addLabel out l) labels
    rw [List.foldl_cons] at hroom
    rw [show payload + offset + 1 + (l.length : Int) = payload + (offset + 1 + l.length) by omega]
      at hm
    rw [dnsLabels_step (by omega)]
    simp only [hzero, if_false, hcount, bytesAt_of_holds hl]
    rw [if_pos ⟨h63, by omega, by omega⟩,
      ih (fun l' hl' => hlabels l' (List.mem_cons_of_mem _ hl')) hm (by omega) hroom (by omega),
      labelsBytes_cons, List.length_cons, List.length_append, List.foldl_cons]
    congr 2
    omega

/-- **Labels that are read are there**, unless the message ends first. -/
theorem labels_of_dnsLabels {out name : List UInt8} {fuel : Nat} {next : Int}
    (hfuel : dnsLen ≤ offset + fuel) (hout : out.length ≤ 127)
    (h : (dnsLabels payload dnsLen fuel offset out).val m = some (next, name)) :
    dnsLen ≤ next ∨ ∃ labels, (∀ l ∈ labels, 1 ≤ l.length ∧ l.length ≤ 63) ∧
      m.Holds (payload + offset) (labelsBytes labels ++ [0]) ∧
      next = offset + (labelsBytes labels).length + 1 ∧ name = labels.foldl addLabel out ∧
      name.length ≤ 127 := by
  induction fuel generalizing offset out with
  | zero =>
    obtain ⟨rfl, -⟩ := Prod.mk.inj (Option.some.inj h)
    exact Or.inl (by simpa using hfuel)
  | succ fuel ih =>
    by_cases hlt : offset < dnsLen
    · rw [dnsLabels_step hlt] at h
      have hl := holds_bytesAt (m := m) (payload + offset + 1) (m (payload + offset)).toNat
      have hlen := length_bytesAt (m := m) (payload + offset + 1) (m (payload + offset)).toNat
      simp only at h
      generalize bytesAt m (payload + offset + 1) (m (payload + offset)).toNat = l at h hl hlen
      split at h
      · rename_i hzero
        obtain ⟨rfl, rfl⟩ := Prod.mk.inj (Option.some.inj h)
        refine Or.inr ⟨[], by simp, ⟨hzero, trivial⟩, by simp [labelsBytes], rfl, hout⟩
      · rename_i hzero
        split at h
        · rename_i hfits
          have hpos : 0 < (m (payload + offset)).toNat := by
            rw [Nat.pos_iff_ne_zero]
            exact fun h => hzero (UInt8.toNat_inj.mp h)
          rcases ih (by omega) hfits.2.2 h with hend | ⟨labels, hlabels, hm, hnext, hname, hle⟩
          · exact Or.inl hend
          · refine Or.inr ⟨l :: labels, ?_, ?_, ?_, hname, hle⟩
            · rw [List.forall_mem_cons]
              exact ⟨by omega, hlabels⟩
            · rw [labelsBytes_cons, List.cons_append, List.append_assoc, Mem.holds_cons,
                Mem.holds_append, hlen]
              refine ⟨by rw [Nat.toUInt8_eq, UInt8.ofNat_toNat], hl, ?_⟩
              rwa [show payload + offset + 1 + ((m (payload + offset)).toNat : Int) =
                payload + (offset + 1 + (m (payload + offset)).toNat) by omega]
            · rw [hnext, labelsBytes_cons, List.length_cons, List.length_append, hlen]
              omega
        · cases h
    · rw [dnsLabels, if_neg hlt] at h
      obtain ⟨rfl, -⟩ := Prod.mk.inj (Option.some.inj h)
      exact Or.inl (by omega)

/-! ## 4. One question -/

theorem WireQuestion.labels_ne_nil (question : WireQuestion) : ∀ l ∈ question.labels, l ≠ [] := by
  rintro l hl rfl
  exact absurd (question.labels_len [] hl).1 (by simp)

/-- The name as it is recorded. -/
def WireQuestion.name (question : WireQuestion) : List UInt8 := question.dotted.map tolower

theorem WireQuestion.length_bytes (question : WireQuestion) :
    question.bytes.length = (labelsBytes question.labels).length + 5 := by
  simp [WireQuestion.bytes, wordBytes]

theorem holds_wire {question : WireQuestion} {i : Int} :
    m.Holds i question.bytes ↔ m.Holds i (labelsBytes question.labels ++ [0]) ∧
      m.Holds (i + (labelsBytes question.labels).length + 1) (wordBytes question.qtype.toNat) ∧
      m.Holds (i + (labelsBytes question.labels).length + 3) (wordBytes question.qclass.toNat) := by
  have hsplit : question.bytes = (labelsBytes question.labels ++ [0]) ++
      (wordBytes question.qtype.toNat ++ wordBytes question.qclass.toNat) := by
    simp [WireQuestion.bytes]
  have htype : i + ((labelsBytes question.labels ++ [0]).length : Int) =
      i + (labelsBytes question.labels).length + 1 := by
    rw [List.length_append, List.length_singleton]
    omega
  have hclass : i + (labelsBytes question.labels).length + 1 +
      ((wordBytes question.qtype.toNat).length : Int) =
        i + (labelsBytes question.labels).length + 3 := by
    simp only [wordBytes, List.length_cons, List.length_nil]
    omega
  rw [hsplit, Mem.holds_append, htype]
  refine and_congr Iff.rfl ?_
  rw [Mem.holds_append, hclass]

/-- **A question that is there is read**, and the next one starts behind it. -/
theorem afParseDnsQueryName_wire {question : WireQuestion}
    (hm : m.Holds (payload + offset) question.bytes) (h12 : 12 ≤ offset)
    (hfit : offset + question.bytes.length ≤ dnsLen) :
    (afParseDnsQueryName payload dnsLen offset).val m =
      some (CStr.ofBytes question.name, question.qtype, offset + question.bytes.length) := by
  have hlength := question.length_bytes
  have hcount := length_le_labelsBytes question.labels
  obtain ⟨hlabels, htype, -⟩ := holds_wire.mp hm
  have hname := foldl_addLabel_nil question.labels_ne_nil
  have hroom : (question.labels.foldl addLabel []).length ≤ 127 := by
    rw [hname, List.length_map]
    exact question.name_len
  have hne : (question.labels.foldl addLabel []).length ≠ 0 := by
    obtain ⟨l, labels, hcons⟩ := List.exists_cons_of_ne_nil question.labels_ne
    have hpos := (question.labels_len l (by rw [hcons]; exact List.mem_cons_self)).1
    have hle := length_le_foldl_addLabel (addLabel [] l) labels
    rw [addLabel_length] at hle
    rw [hcons, List.foldl_cons]
    omega
  have hval := @dnsLabels_val m payload dnsLen offset question.labels [] dnsLen.toNat
    question.labels_len hlabels (by omega) hroom (by omega)
  have hword : (readWord (payload + (offset + (labelsBytes question.labels).length + 1))).val m =
      question.qtype.toNat := by
    refine val_readWord question.qtype.toNat_lt ?_
    rwa [show payload + offset + ((labelsBytes question.labels).length : Int) + 1 =
      payload + (offset + (labelsBytes question.labels).length + 1) by omega] at htype
  have hlen12 : ¬ (dnsLen ≤ DNS_HEADER_LEN ∨ dnsLen ≤ offset) := by
    simp only [DNS_HEADER_LEN]
    omega
  rw [afParseDnsQueryName, if_neg (by simp only [DNS_HEADER_LEN]; omega), if_neg hlen12,
    Rd.val_bind, hval]
  simp only [Rd.val_ite, if_neg hne]
  rw [if_neg (by omega), Rd.val_bind, hword, Rd.val_pure, hname, hlength]
  congr 3
  · simp
  · omega

/-- **A question that is read is there**, wholly inside the message. -/
theorem wire_of_afParseDnsQueryName {name : CStr} {qtype : UInt16} {next : Int}
    (h : (afParseDnsQueryName payload dnsLen offset).val m = some (name, qtype, next)) :
    ∃ question : WireQuestion, m.Holds (payload + offset) question.bytes ∧
      offset + question.bytes.length ≤ dnsLen := by
  rw [afParseDnsQueryName] at h
  split at h
  · cases h
  · rename_i h12
    split at h
    · cases h
    · rename_i hlen
      simp only [DNS_HEADER_LEN] at h12 hlen
      rw [Rd.val_bind] at h
      cases hlabels : (dnsLabels payload dnsLen dnsLen.toNat offset []).val m with
      | none =>
        rw [hlabels] at h
        cases h
      | some found =>
        obtain ⟨stop, out⟩ := found
        rw [hlabels] at h
        simp only [Rd.val_ite] at h
        split at h
        · cases h
        · rename_i hempty
          split at h
          · cases h
          · rename_i hfit
            rcases labels_of_dnsLabels (by omega) (by simp) hlabels with
              hend | ⟨labels, hlen63, hm, hstop, hout, h127⟩
            · omega
            · have hne : labels ≠ [] := by
                rintro rfl
                rw [hout] at hempty
                exact hempty rfl
              have hnil : ∀ l ∈ labels, l ≠ [] := by
                rintro l hl rfl
                exact absurd (hlen63 [] hl).1 (by simp)
              rw [foldl_addLabel_nil hnil] at hout
              refine ⟨{
                labels := labels
                qtype := wordAt m (payload + stop)
                qclass := wordAt m (payload + stop + 2)
                labels_ne := hne
                labels_len := hlen63
                name_len := by rwa [hout, List.length_map] at h127 }, ?_, ?_⟩
              · have htype : payload + stop = payload + offset + (labelsBytes labels).length + 1 := by
                  omega
                have hclass : payload + stop + 2 =
                    payload + offset + (labelsBytes labels).length + 3 := by
                  omega
                exact holds_wire.mpr
                  ⟨hm, htype ▸ holds_wordAt (payload + stop), hclass ▸ holds_wordAt (payload + stop + 2)⟩
              · rw [WireQuestion.length_bytes]
                simp only
                omega

/-! ## 5. The questions of a message -/

/-- A question whose name is a text. -/
structure DnsQuestion extends WireQuestion where
  noNul : ∀ l ∈ labels, 0 ∉ l

theorem tolower_ne_zero {c : UInt8} (h : c ≠ 0) : tolower c ≠ 0 := by
  rw [tolower]
  split
  · rename_i hupper
    simp only [Bool.and_eq_true, decide_eq_true_eq, UInt8.le_iff_toNat_le, UInt8.reduceToNat]
      at hupper
    rw [Ne, ← UInt8.toNat_inj, UInt8.toNat_add]
    simp only [UInt8.reduceToNat]
    omega
  · exact h

namespace DnsQuestion

variable (question : DnsQuestion)

theorem name_noNul : 0 ∉ question.name := by
  intro h
  obtain ⟨c, hc, hzero⟩ := List.mem_map.mp h
  refine tolower_ne_zero ?_ hzero
  rintro rfl
  rcases mem_intercalate hc with hdot | ⟨l, hl, hc⟩
  · exact absurd hdot (by decide)
  · exact question.noNul l hl hc

/-- What `dpi_dns_proto` should record: the name, lower-cased and joined by dots, and the type. -/
def record : CStr × UInt16 := (⟨question.name, question.name_noNul⟩, question.qtype)

end DnsQuestion

/-- No question starts here. -/
def Malformed (tail : List UInt8) : Prop := ∀ question : WireQuestion, ¬ question.bytes <+: tail

/-- **The query loop**: it records the questions, up to `n` of them, and stops at what is none. -/
theorem dnsQueries_val {questions : List DnsQuestion} {tail : List UInt8} {n : Nat}
    (hm : m.Holds (payload + offset) (questions.flatMap (·.bytes) ++ tail)) (h12 : 12 ≤ offset)
    (hlen : dnsLen = offset + (questions.flatMap (·.bytes) ++ tail).length)
    (hn : n ≤ questions.length ∨ Malformed tail) :
    (dnsQueries payload dnsLen n offset).val m = (questions.take n).map (·.record) := by
  induction questions generalizing offset n with
  | nil =>
    cases n with
    | zero => rfl
    | succ n =>
      have htail : Malformed tail := hn.resolve_left (by simp)
      rw [List.flatMap_nil, List.nil_append] at hm hlen
      have hnone : (afParseDnsQueryName payload dnsLen offset).val m = none := by
        cases h : (afParseDnsQueryName payload dnsLen offset).val m with
        | none => rfl
        | some found =>
          obtain ⟨question, hq, hfit⟩ := wire_of_afParseDnsQueryName h
          refine absurd ?_ (htail question)
          rcases hq.prefix_or hm with hpre | hpre
          · exact hpre
          · rw [hpre.eq_of_length_le (by omega)]
      rw [dnsQueries, Rd.val_bind, hnone]
      rfl
  | cons question questions ih =>
    cases n with
    | zero => rfl
    | succ n =>
      rw [List.flatMap_cons, List.append_assoc] at hm hlen
      obtain ⟨hq, hrest⟩ := Mem.holds_append.mp hm
      rw [List.length_append] at hlen
      have hread := @afParseDnsQueryName_wire m payload dnsLen offset question.toWireQuestion hq h12
        (by omega)
      have hname : CStr.ofBytes question.name = ⟨question.name, question.name_noNul⟩ :=
        CStr.ext (CStr.ofBytes_of_noNul question.name_noNul)
      rw [dnsQueries, Rd.val_bind, hread]
      simp only [Rd.val_bind, Rd.val_pure]
      rw [show payload + offset + (question.bytes.length : Int) =
        payload + (offset + question.bytes.length) by omega] at hrest
      rw [ih hrest (by omega) (by omega) (hn.imp_left fun h => by simpa using h), hname]
      rfl

end

/-! ## 6. `dpi_dns_proto` -/

/-- A query: the header with its counts, the questions, and what is behind them.  It has as many
questions as it says, or there is none where the next one should be. -/
structure QueryMessage where
  ident : UInt16
  flags : UInt16
  qdcount : Nat
  counts : List UInt8
  questions : List DnsQuestion
  tail : List UInt8
  query : flags &&& 0x8000 = 0
  counts_len : counts.length = 6
  count_pos : 1 ≤ qdcount
  count_word : qdcount < 65536
  ends : questions.length = qdcount ∨ questions.length < qdcount ∧ Malformed tail

namespace QueryMessage

variable (msg : QueryMessage)

def header : List UInt8 :=
  wordBytes msg.ident.toNat ++ (wordBytes msg.flags.toNat ++ (wordBytes msg.qdcount ++ msg.counts))

def bytes : List UInt8 := msg.header ++ (msg.questions.flatMap (·.bytes) ++ msg.tail)

theorem length_header : msg.header.length = 12 := by
  simp [header, wordBytes, msg.counts_len]

end QueryMessage

/-- The flow carries the message to or from port 53, over UDP or, behind its length, over TCP. -/
structure CarriesDns (flow : FlowInfo) (msg : QueryMessage) : Prop where
  port : flow.sport = DNS_PORT ∨ flow.dport = DNS_PORT
  carried : (flow.l4Protocol = IPPROTO_UDP ∧ flow.l4Len = msg.bytes.length ∧
      Mem.Holds flow.l4Data 0 msg.bytes) ∨
    (flow.l4Protocol = IPPROTO_TCP ∧ msg.bytes.length < 65536 ∧
      DNS_TCP_PREFIX_LEN + msg.bytes.length ≤ flow.l4Len ∧
      Mem.Holds flow.l4Data 0 (wordBytes msg.bytes.length ++ msg.bytes))

/-- The first sixteen questions are recorded, in order, and nothing else. -/
structure RecordsQuestions (flow : FlowInfo) (result : Int × FlowInfo)
    (questions : List DnsQuestion) : Prop where
  ret : result.1 = if questions = [] then -1 else 0
  matched : result.2.dns.matched = (flow.dns.matched || !questions.isEmpty)
  queries : result.2.dns.queries = if questions = [] then flow.dns.queries
    else (questions.take MAX_DNS_QUERY_NUM).map (·.record)

theorem dpiDnsMessage_questions {m : Mem} {payload : Int} {flow : FlowInfo} {msg : QueryMessage}
    (hm : m.Holds payload msg.bytes) :
    RecordsQuestions flow ((dpiDnsMessage flow payload msg.bytes.length).val m) msg.questions := by
  have hpos := msg.count_pos
  have hends := msg.ends
  have hheader := msg.length_header
  obtain ⟨hhead, hquestions⟩ := Mem.holds_append.mp hm
  rw [hheader] at hquestions
  obtain ⟨-, hhead⟩ := Mem.holds_append.mp hhead
  obtain ⟨hflags, hhead⟩ := Mem.holds_append.mp hhead
  obtain ⟨hcount, -⟩ := Mem.holds_append.mp hhead
  rw [length_wordBytes] at hflags hcount
  have hcount4 : m.Holds (payload + 4) (wordBytes msg.qdcount) := by
    rwa [length_wordBytes, show payload + ((2 : Nat) : Int) + ((2 : Nat) : Int) = payload + 4 by
      omega] at hcount
  have hflagsVal : (readWord (payload + 2)).val m = msg.flags.toNat :=
    val_readWord msg.flags.toNat_lt hflags
  have hcountVal := val_readWord msg.count_word hcount4
  have hn : min msg.qdcount MAX_DNS_QUERY_NUM ≤ msg.questions.length ∨ Malformed msg.tail := by
    rcases hends with heq | ⟨-, htail⟩
    · exact Or.inl (by omega)
    · exact Or.inr htail
  have hqueries := @dnsQueries_val m payload msg.bytes.length 12 msg.questions msg.tail
    (min msg.qdcount MAX_DNS_QUERY_NUM) hquestions (by omega)
    (by rw [QueryMessage.bytes, List.length_append, hheader]; omega) hn
  have htake : msg.questions.take (min msg.qdcount MAX_DNS_QUERY_NUM) =
      msg.questions.take MAX_DNS_QUERY_NUM := by
    rw [← List.take_take, List.take_of_length_le]
    rw [List.length_take]
    omega
  rw [htake] at hqueries
  have hquery : ¬ (msg.flags.toNat.toUInt16 &&& 0x8000 ≠ 0 ∨ msg.qdcount = 0) := by
    rw [Nat.toUInt16_eq, UInt16.ofNat_toNat, not_or, not_not]
    exact ⟨msg.query, by omega⟩
  have hvalue : (dpiDnsMessage flow payload msg.bytes.length).val m =
      if msg.questions = [] then (-1, { flow with dns := { flow.dns with qdcount := msg.qdcount } })
      else (0, { flow with dns := { flow.dns with
        qdcount := msg.qdcount
        matched := true
        queries := (msg.questions.take MAX_DNS_QUERY_NUM).map (·.record) } }) := by
    rw [dpiDnsMessage, Rd.val_bind, hflagsVal, Rd.val_bind, hcountVal, Rd.val_ite, if_neg hquery,
      Rd.val_bind, show DNS_HEADER_LEN = 12 from rfl, hqueries, Rd.val_ite]
    simp only [List.isEmpty_iff, List.map_eq_nil_iff, List.take_eq_nil_iff, MAX_DNS_QUERY_NUM,
      OfNat.ofNat_ne_zero, false_or, Rd.val_pure]
  rw [hvalue]
  by_cases hnil : msg.questions = []
  · rw [if_pos hnil]
    exact ⟨by rw [if_pos hnil], by simp [hnil], by rw [if_pos hnil]⟩
  · rw [if_neg hnil]
    exact ⟨by rw [if_neg hnil], by simp [hnil], by rw [if_neg hnil]⟩

/-- A message too short to hold a question. -/
theorem recordsQuestions_none {flow : FlowInfo} {questions : List DnsQuestion}
    (h : questions = []) : RecordsQuestions flow (-1, flow) questions :=
  ⟨by rw [if_pos h], by simp [h], by rw [if_pos h]⟩

theorem QueryMessage.questions_nil {msg : QueryMessage} (h : msg.bytes.length ≤ 12) :
    msg.questions = [] := by
  have hheader := msg.length_header
  rw [QueryMessage.bytes, List.length_append, List.length_append, hheader] at h
  cases hq : msg.questions with
  | nil => rfl
  | cons question questions =>
    rw [hq, List.flatMap_cons, List.length_append, question.length_bytes] at h
    omega

/-- **The questions of a query are recorded**: the first sixteen, up to the first that is none. -/
theorem dpiDnsProto_questions (msg : QueryMessage) (flow : FlowInfo) (h : CarriesDns flow msg) :
    RecordsQuestions flow ((dpiDnsProto flow).val flow.l4Data) msg.questions := by
  have hheader := msg.length_header
  have hlength : 12 ≤ msg.bytes.length := by
    rw [QueryMessage.bytes, List.length_append, hheader]
    omega
  have hport : ¬ (flow.sport ≠ DNS_PORT ∧ flow.dport ≠ DNS_PORT) := by
    rw [not_and_or, not_not, not_not]
    exact h.port
  have hudp : IPPROTO_UDP ≠ IPPROTO_TCP := by decide
  rw [dpiDnsProto]
  rcases h.carried with ⟨hproto, hlen, hm⟩ | ⟨hproto, hword, hlen, hm⟩
  · by_cases hshort : flow.l4Len ≤ DNS_HEADER_LEN
    · rw [if_pos hshort]
      simp only [DNS_HEADER_LEN] at hshort
      exact recordsQuestions_none (QueryMessage.questions_nil (by omega))
    · rw [if_neg hshort, if_neg hport, if_neg (by rw [hproto]; exact hudp),
        if_neg (not_not.mpr hproto), hlen]
      exact dpiDnsMessage_questions hm
  · simp only [DNS_TCP_PREFIX_LEN] at hlen
    rw [if_neg (by simp only [DNS_HEADER_LEN]; omega), if_neg hport, if_pos hproto]
    by_cases hshort : flow.l4Len ≤ DNS_TCP_PREFIX_LEN + DNS_HEADER_LEN
    · rw [if_pos hshort]
      simp only [DNS_TCP_PREFIX_LEN, DNS_HEADER_LEN] at hshort
      exact recordsQuestions_none (QueryMessage.questions_nil (by omega))
    · obtain ⟨hlength2, hmsg⟩ := Mem.holds_append.mp hm
      rw [length_wordBytes, Int.zero_add] at hmsg
      have hread := val_readWord hword hlength2
      rw [if_neg hshort, Rd.val_bind, hread, Rd.val_ite, if_neg]
      · exact dpiDnsMessage_questions hmsg
      · simp only [DNS_TCP_PREFIX_LEN]
        omega

/-- A query for the address of `A.b`. -/
def addressQuery : QueryMessage where
  ident := 7
  flags := 0x0100
  qdcount := 1
  counts := [0, 0, 0, 0, 0, 0]
  questions := [{
    labels := [[65], [98]]
    qtype := 1
    qclass := 1
    labels_ne := by simp
    labels_len := by simp
    name_len := by decide
    noNul := by simp }]
  tail := []
  query := by decide
  counts_len := rfl
  count_pos := by decide
  count_word := by decide
  ends := Or.inl rfl

def addressFlow : FlowInfo where
  l4Protocol := IPPROTO_UDP
  dport := DNS_PORT
  l4Data i := addressQuery.bytes.getD i.toNat 0
  l4Len := addressQuery.bytes.length

theorem dpiDnsProto_questions_address :
    RecordsQuestions addressFlow ((dpiDnsProto addressFlow).val addressFlow.l4Data)
      addressQuery.questions :=
  dpiDnsProto_questions addressQuery addressFlow
    { port := Or.inr rfl, carried := Or.inl ⟨rfl, rfl, by decide⟩ }

end Oaf
