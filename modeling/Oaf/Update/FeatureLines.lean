/-
# The lines of the feature text

All loaders of the feature library go through its text with `fwx_feature_next_line`: an offset into the text,
and a buffer of the loader that gets the line.  A line that does not fit is left out, and its call says so.

* `nextLine_spec`: what one call returns, and where the next one begins.
* `nextLine_refines`: it is the call that goes on with the text behind the line.
* `nextLines_eq`: **a loop that calls until there is no line** meets every line once.
-/
import Oaf.Lib.CArray
import Oaf.Lib.Lines
import Oaf.Update.Library

namespace Oaf.FeatureText

open CLib

variable {lineSize : Nat} {data : List UInt8} {offset : Nat}

/-! ## 1. One call -/

/-- `while (end < data_len && data[end] != '\n') end++`. -/
def lineEnd (data : List UInt8) (e : Nat) : Nat :=
  if h : e < data.length then if data[e] ≠ 10 then lineEnd data (e + 1) else e else e
termination_by data.length - e

/-- What a call returns, the offset it leaves and the buffer. -/
structure NextLine (lineSize : Nat) where
  result : Int
  offset : Nat
  line : CArray lineSize

/-- `fwx_feature_next_line`, of a buffer that is there.  The error is a write outside of it. -/
def fwxFeatureNextLine (data : Option (List UInt8)) (offset : Nat) (line : CArray lineSize) :
    Except Unit (NextLine lineSize) :=
  match data with
  | none => .ok ⟨0, offset, line⟩
  | some data =>
    if lineSize = 0 ∨ data.length ≤ offset then .ok ⟨0, offset, line⟩
    else
      let lineStart := offset
      let lineEnd := lineEnd data lineStart
      let offset := if lineEnd < data.length then lineEnd + 1 else lineEnd
      let lineLen := lineEnd - lineStart
      let lineLen :=
        if 0 < lineLen ∧ data[lineStart + lineLen - 1]? = some 13 then lineLen - 1 else lineLen
      if lineSize ≤ lineLen then
        (line.store () 0 0).map fun line => ⟨-1, offset, line⟩
      else
        (line.write () ((data.drop lineStart).take lineLen)).bind fun line =>
          (line.store () lineLen 0).map fun line => ⟨1, offset, line⟩

theorem lineEnd_eq (h : offset ≤ data.length) :
    lineEnd data offset = offset + (firstLine (data.drop offset)).length := by
  fun_induction lineEnd data offset with
  | case1 e hlt hne ih =>
    rw [ih hlt, List.drop_eq_getElem_cons hlt, firstLine, firstLine, List.takeWhile_cons_of_pos (by simpa using hne),
      List.length_cons]
    omega
  | case2 e hlt heq =>
    rw [List.drop_eq_getElem_cons hlt, firstLine, List.takeWhile_cons_of_neg (by simpa using heq)]
    rfl
  | case3 e hge => rw [List.drop_eq_nil_of_le (Nat.not_lt.mp hge)]; rfl

/-- A line without the carriage return at its end. -/
def dropCr (line : List UInt8) : List UInt8 := if line.getLast? = some 13 then line.dropLast else line

/-- What the loader gets of a line: its text and a NUL, or that it does not fit. -/
def ReturnsLine (line : List UInt8) (call : Int × CArray lineSize) : Prop :=
  if (dropCr line).length < lineSize then
    call.1 = 1 ∧ (dropCr line ++ [0]).isPrefixOf call.2.bytes = true
  else call.1 = -1 ∧ call.2.bytes.head? = some 0

theorem dropCr_eq_take (raw : List UInt8) :
    dropCr raw = raw.take (if 0 < raw.length ∧ raw[raw.length - 1]? = some 13 then raw.length - 1
      else raw.length) := by
  rw [dropCr, List.getLast?_eq_getElem?]
  by_cases h : raw[raw.length - 1]? = some 13
  · have hpos : 0 < raw.length := by
      rcases Nat.eq_zero_or_pos raw.length with h0 | h0
      · rw [List.length_eq_zero_iff.mp h0] at h
        cases h
      · exact h0
    rw [if_pos h, if_pos ⟨hpos, h⟩, List.dropLast_eq_take]
  · rw [if_neg h, if_neg (fun hboth => h hboth.2), List.take_length]

/-- The length of the line that the code finds, less a carriage return. -/
def textLen (data : List UInt8) (offset : Nat) : Nat :=
  let lineLen := lineEnd data offset - offset
  if 0 < lineLen ∧ data[offset + lineLen - 1]? = some 13 then lineLen - 1 else lineLen

theorem take_textLen (h : offset ≤ data.length) :
    (data.drop offset).take (textLen data offset) = dropCr (firstLine (data.drop offset)) := by
  have hprefix : firstLine (data.drop offset) <+: data.drop offset := List.takeWhile_prefix _
  have hlen : lineEnd data offset - offset = (firstLine (data.drop offset)).length := by
    rw [lineEnd_eq h, Nat.add_sub_cancel_left]
  generalize hline : firstLine (data.drop offset) = raw at hprefix hlen ⊢
  have hlast (hpos : 0 < raw.length) : data[offset + raw.length - 1]? = raw[raw.length - 1]? := by
    obtain ⟨rest, hrest⟩ := hprefix
    have happend := @List.getElem?_append_left _ raw rest (raw.length - 1) (by omega)
    rw [← happend, hrest, List.getElem?_drop]
    congr 1
    omega
  have htake : textLen data offset =
      if 0 < raw.length ∧ raw[raw.length - 1]? = some 13 then raw.length - 1 else raw.length := by
    unfold textLen
    rw [hlen]
    exact if_congr (and_congr_right fun hpos => by rw [hlast hpos]) rfl rfl
  have hle : textLen data offset ≤ raw.length := by
    rw [htake]
    split <;> omega
  rw [dropCr_eq_take, ← htake, List.prefix_iff_eq_take.mp hprefix, List.take_take, Nat.min_eq_left hle]

/-- The line that the code finds, and where it goes on. -/
theorem otherLines_drop (h : offset ≤ data.length) :
    data.drop (if lineEnd data offset < data.length then lineEnd data offset + 1 else lineEnd data offset) =
      otherLines (data.drop offset) := by
  have htext : firstLine (data.drop offset) ++ (data.drop offset).dropWhile (· != 10) = data.drop offset :=
    List.takeWhile_append_dropWhile
  have hrest := congrArg (List.drop (firstLine (data.drop offset)).length) htext
  rw [List.drop_left, List.drop_drop, ← lineEnd_eq h] at hrest
  rw [otherLines, hrest, List.drop_drop]
  split
  · rfl
  · rename_i hend
    rw [List.drop_eq_nil_of_le (by omega), List.drop_eq_nil_of_le (by omega)]

/-- **One call** behind which there is text: it returns the line, and the next call goes on behind it. -/
theorem nextLine_spec (hsize : 1 ≤ lineSize) (h : offset < data.length) (line : CArray lineSize) :
    ∃ next, fwxFeatureNextLine (some data) offset line = .ok next ∧ next.result ≠ 0 ∧
      data.drop next.offset = otherLines (data.drop offset) ∧
      ReturnsLine (firstLine (data.drop offset)) (next.result, next.line) := by
  have hrest := otherLines_drop h.le
  have htake := take_textLen h.le
  have hlen : (dropCr (firstLine (data.drop offset))).length = textLen data offset := by
    rw [← htake, List.length_take, List.length_drop]
    have hend := lineEnd_eq h.le
    have hprefix : (firstLine (data.drop offset)).length ≤ (data.drop offset).length :=
      (List.takeWhile_prefix _).length_le
    rw [List.length_drop] at hprefix
    have : textLen data offset ≤ lineEnd data offset - offset := by
      unfold textLen
      dsimp only
      split <;> omega
    omega
  generalize hbehind : (if lineEnd data offset < data.length then lineEnd data offset + 1
    else lineEnd data offset) = behind at hrest
  have hcode : fwxFeatureNextLine (some data) offset line =
      if lineSize ≤ textLen data offset then (line.store () 0 0).map fun line => ⟨-1, behind, line⟩
      else (line.write () ((data.drop offset).take (textLen data offset))).bind fun line =>
        (line.store () (textLen data offset) 0).map fun line => ⟨1, behind, line⟩ := by
    rw [fwxFeatureNextLine, if_neg (by omega), ← hbehind]
    rfl
  rw [hcode]
  by_cases hfits : lineSize ≤ textLen data offset
  · rw [if_pos hfits, CArray.store, if_pos (by omega)]
    refine ⟨_, rfl, Int.negSucc_ne_zero 0, hrest, ?_⟩
    rw [ReturnsLine, hlen, if_neg (by omega)]
    refine ⟨rfl, ?_⟩
    obtain ⟨c, bytes, hbytes⟩ := List.exists_cons_of_length_pos (by rw [line.size]; omega : 0 < line.bytes.length)
    show (line.bytes.set 0 0).head? = some 0
    rw [hbytes]
    rfl
  · obtain ⟨line', hwrite, hbytes⟩ := @CArray.write_eq_ok _ _ line () (dropCr (firstLine (data.drop offset)))
      (by omega)
    rw [if_neg hfits, htake, hwrite]
    simp only [Except.bind, CArray.store, if_pos (Nat.not_le.mp hfits), Except.map]
    refine ⟨_, rfl, Int.one_ne_zero, hrest, ?_⟩
    rw [ReturnsLine, hlen, if_pos (Nat.not_le.mp hfits)]
    refine ⟨rfl, ?_⟩
    show (_ : List UInt8).isPrefixOf (line'.bytes.set (textLen data offset) 0) = true
    have hdrop : line.bytes.drop (textLen data offset) ≠ [] := by
      rw [Ne, List.drop_eq_nil_iff, line.size]
      exact hfits
    obtain ⟨c, bytes, hcut⟩ := List.exists_cons_of_ne_nil hdrop
    rw [hbytes, hlen, hcut, ← hlen, List.set_append_right _ _ (Nat.le_refl _), Nat.sub_self, List.set_cons_zero,
      List.isPrefixOf_iff_prefix]
    exact ⟨bytes, by simp⟩

/-- Behind the text there is no line. -/
theorem nextLine_end (h : data.length ≤ offset) (line : CArray lineSize) :
    fwxFeatureNextLine (some data) offset line = .ok ⟨0, offset, line⟩ := if_pos (Or.inr h)

/-- The string at the start of a line with its NUL. -/
theorem read_line {line : CArray lineSize} {text : List UInt8} (h : (text ++ [0]).isPrefixOf line.bytes = true)
    (beyond : CStr) : line.read beyond = .ofBytes text := by
  obtain ⟨rest, hrest⟩ := List.isPrefixOf_iff_prefix.mp h
  refine CStr.ext ?_
  rw [CArray.read, ← hrest, CStr.ofBytes, CStr.ofBytes]
  have hwhole (hlen : (text.takeWhile (· != 0)).length = text.length) : text = text.takeWhile (· != 0) :=
    ((List.takeWhile_prefix _).eq_of_length hlen).symm
  simpa [List.takeWhile_append] using hwhole

/-- **A call goes on with the text behind the line**: what the loaders read is what `Oaf.fwxFeatureNextLine`
gives of the text from the offset on. -/
theorem nextLine_refines (hsize : 1 ≤ lineSize) {text : Option CStr} {rest : List UInt8}
    (h : Oaf.fwxFeatureNextLine (data.drop offset) lineSize = some (text, rest)) (line : CArray lineSize) :
    ∃ next, fwxFeatureNextLine (some data) offset line = .ok next ∧ data.drop next.offset = rest ∧
      next.result = (if text.isSome then 1 else -1) ∧
      ∀ beyond, next.line.read beyond = text.getD .empty := by
  have hlt : offset < data.length := by
    refine Nat.lt_of_not_le fun hle => ?_
    rw [List.drop_eq_nil_of_le hle] at h
    cases h
  obtain ⟨next, hnext, -, hrest, hline⟩ := nextLine_spec hsize hlt line
  have hcall : Oaf.fwxFeatureNextLine (data.drop offset) lineSize =
      if lineSize ≤ (dropCr (firstLine (data.drop offset))).length then
        some (none, otherLines (data.drop offset))
      else some (some (.ofBytes (dropCr (firstLine (data.drop offset)))), otherLines (data.drop offset)) :=
    if_neg (List.drop_eq_nil_iff.not.mpr (Nat.not_le.mpr hlt))
  rw [hcall] at h
  rw [ReturnsLine] at hline
  refine ⟨next, hnext, ?_⟩
  split at h
  · rename_i hlong
    rw [if_neg (Nat.not_lt.mpr hlong)] at hline
    simp only [Option.some.injEq, Prod.mk.injEq] at h
    obtain ⟨rfl, rfl⟩ := h
    refine ⟨hrest, hline.1, @read_line _ _ [] ?_⟩
    obtain ⟨bytes, hbytes⟩ := List.head?_eq_some_iff.mp hline.2
    exact List.isPrefixOf_iff_prefix.mpr ⟨bytes, hbytes.symm⟩
  · rename_i hfits
    rw [if_pos (Nat.lt_of_not_le hfits)] at hline
    simp only [Option.some.injEq, Prod.mk.injEq] at h
    obtain ⟨rfl, rfl⟩ := h
    exact ⟨hrest, hline.1, read_line hline.2⟩

/-! ## 2. All calls -/

/-- The loop of a loader: the calls until one returns 0, and what each returned; `none` when so many calls do
not get there.  `buffers` is what the loader has left in its buffer before a call. -/
def nextLines (data : List UInt8) (buffers : Nat → CArray lineSize) :
    Nat → Nat → Except Unit (Option (List (Int × CArray lineSize)))
  | 0, _ => .ok none
  | fuel + 1, offset =>
    match fwxFeatureNextLine (some data) offset (buffers fuel) with
    | .error e => .error e
    | .ok next =>
      if next.result = 0 then .ok (some [])
      else (nextLines data buffers fuel next.offset).map (·.map ((next.result, next.line) :: ·))

/-- The loop from an offset on. -/
theorem nextLines_from (hsize : 1 ≤ lineSize) (buffers : Nat → CArray lineSize) :
    ∀ {fuel offset : Nat}, (textLines (data.drop offset)).length < fuel →
      ∃ calls, nextLines data buffers fuel offset = .ok (some calls) ∧
        List.Forall₂ ReturnsLine (textLines (data.drop offset)) calls
  | 0, _, hfuel => absurd hfuel (Nat.not_lt_zero _)
  | fuel + 1, offset, hfuel => by
    rw [nextLines]
    rcases Nat.lt_or_ge offset data.length with h | h
    · obtain ⟨next, hnext, hresult, hrest, hline⟩ := nextLine_spec hsize h (buffers fuel)
      have hlines := textLines_of_cons (List.drop_eq_nil_iff.not.mpr (Nat.not_le.mpr h))
      rw [hlines, List.length_cons, ← hrest] at hfuel
      obtain ⟨calls, hcalls, hreturns⟩ := nextLines_from hsize buffers (Nat.lt_of_succ_lt_succ hfuel)
      refine ⟨(next.result, next.line) :: calls, ?_, ?_⟩
      · simp only [hnext, if_neg hresult, hcalls]
        rfl
      · rw [hlines, ← hrest]
        exact .cons hline hreturns
    · refine ⟨[], ?_, ?_⟩
      · simp only [nextLine_end h]
        rfl
      · rw [List.drop_eq_nil_of_le h]
        exact .nil

/-- **Every line once**: with a buffer of any size, the loop from the start of a text ends, no call writes
outside of the buffer, and there is one call for each line, in their order. -/
theorem nextLines_eq (data : List UInt8) (hsize : 1 ≤ lineSize) (buffers : Nat → CArray lineSize) (fuel : Nat)
    (hfuel : (textLines data).length < fuel) :
    ∃ calls, nextLines data buffers fuel 0 = .ok (some calls) ∧
      List.Forall₂ ReturnsLine (textLines data) calls :=
  nextLines_from hsize buffers hfuel

/-- Three lines and a buffer of four bytes: the first line fits, the second does not, the third is empty. -/
theorem nextLines_three : ∃ calls, nextLines (ascii "abc\r\nabcd\n\n") (fun _ => .zeros 4) 4 0 =
      .ok (some calls) ∧ List.Forall₂ ReturnsLine [ascii "abc\r", ascii "abcd", []] calls :=
  nextLines_eq (ascii "abc\r\nabcd\n\n") (by decide) (fun _ => .zeros 4) 4 (by decide)

end Oaf.FeatureText
