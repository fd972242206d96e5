/-
# Lines and words of a text

`fgets` brings a text line by line, as far as its buffer goes, and `sscanf` with `%<width>s` takes words out of
a line.  Neither knows who wrote a line: a line feed in the middle of what was printed as one line makes two
of it.

* `fgetsLines_pieces`: short pieces joined by line feeds are read back as they are.
* `scanWords_append_blanks`: blanks at the end of a line do not matter.
* `splitOn_append_left`, `splitOn_append_right`: where a text put together comes apart.
* `textLines_of_cons`: the lines of a text, one after the other.
-/
import Oaf.Lib.Words

namespace CLib

/-! ## 1. `fgets` -/

/-- The lines that a buffer of `size` bytes brings; `line` is what is in the buffer so far. -/
def fgetsFrom (size : Nat) (line : List UInt8) : List UInt8 → List (List UInt8)
  | [] => if line = [] then [] else [line]
  | c :: text =>
    if c = 10 ∨ size ≤ line.length + 2 then (line ++ [c]) :: fgetsFrom size [] text
    else fgetsFrom size (line ++ [c]) text

/-- All lines that `fgets` brings, one after the other, with their line feeds. -/
def fgetsLines (size : Nat) (text : List UInt8) : List (List UInt8) := fgetsFrom size [] text

theorem fgetsFrom_piece {size : Nat} {rest : List UInt8} : ∀ {piece line : List UInt8},
    10 ∉ piece → line.length + piece.length + 1 < size →
    fgetsFrom size line (piece ++ 10 :: rest) = (line ++ piece ++ [10]) :: fgetsLines size rest
  | [], line, _, _ => by simp [fgetsFrom, fgetsLines]
  | c :: piece, line, h, hsize => by
    rw [List.mem_cons, not_or] at h
    rw [List.length_cons] at hsize
    have hrest := @fgetsFrom_piece size rest piece (line ++ [c]) h.2 (by
      rw [List.length_append, List.length_singleton]
      omega)
    have hc : ¬ (c = 10 ∨ size ≤ line.length + 2) := by
      rintro (rfl | hfull)
      · exact h.1 rfl
      · omega
    rw [List.cons_append, fgetsFrom, if_neg hc, hrest]
    simp

/-- A text that fills the buffer is read without what follows it. -/
theorem fgetsFrom_full {size : Nat} {rest : List UInt8} : ∀ {piece line : List UInt8},
    piece ≠ [] → 10 ∉ piece → line.length + piece.length + 1 = size →
    fgetsFrom size line (piece ++ rest) = (line ++ piece) :: fgetsLines size rest
  | [], _, hne, _, _ => absurd rfl hne
  | [c], line, _, h, hsize => by
    rw [List.length_singleton] at hsize
    rw [List.singleton_append, fgetsFrom, if_pos (.inr (by omega)), fgetsLines]
  | c :: d :: piece, line, _, h, hsize => by
    rw [List.mem_cons, not_or] at h
    rw [List.length_cons, List.length_cons] at hsize
    have hrest := @fgetsFrom_full size rest (d :: piece) (line ++ [c]) (List.cons_ne_nil _ _) h.2 (by
      rw [List.length_append, List.length_singleton, List.length_cons]
      omega)
    have hc : ¬ (c = 10 ∨ size ≤ line.length + 2) := by
      rintro (rfl | hfull)
      · exact h.1 rfl
      · omega
    rw [List.cons_append, fgetsFrom, if_neg hc, hrest]
    simp

/-- **Lines that fit the buffer** are read back. -/
theorem fgetsLines_pieces {size : Nat} {rest : List UInt8} : ∀ {pieces : List (List UInt8)},
    pieces ≠ [] → (∀ piece ∈ pieces, 10 ∉ piece ∧ piece.length + 1 < size) →
    fgetsLines size ([10].intercalate pieces ++ 10 :: rest) =
      pieces.map (· ++ [10]) ++ fgetsLines size rest
  | [], hne, _ => absurd rfl hne
  | [piece], _, h => by
    obtain ⟨hpiece, hsize⟩ := h piece (List.mem_singleton_self _)
    rw [List.intercalate_singleton, fgetsLines, fgetsFrom_piece hpiece (by simpa using hsize)]
    rfl
  | piece :: next :: pieces, _, h => by
    obtain ⟨hpiece, hsize⟩ := h piece (List.mem_cons_self ..)
    have hrest := @fgetsLines_pieces size rest (next :: pieces) (List.cons_ne_nil _ _)
      (fun p hp => h p (List.mem_cons_of_mem _ hp))
    rw [List.intercalate_cons_cons, List.append_assoc, List.append_assoc, List.singleton_append,
      fgetsLines, fgetsFrom_piece hpiece (by simpa using hsize), hrest]
    rfl

/-- **Lines printed one by one**, each with its line feed, are read back if they fit the buffer. -/
theorem fgetsLines_flatMap {size : Nat} : ∀ {pieces : List (List UInt8)},
    (∀ piece ∈ pieces, 10 ∉ piece ∧ piece.length + 1 < size) →
    fgetsLines size (pieces.flatMap (· ++ [10])) = pieces.map (· ++ [10])
  | [], _ => rfl
  | piece :: pieces, h => by
    obtain ⟨hpiece, hsize⟩ := h piece List.mem_cons_self
    have hrest := @fgetsLines_flatMap size pieces fun p hp => h p (List.mem_cons_of_mem _ hp)
    have hfirst := @fgetsFrom_piece size (pieces.flatMap (· ++ [10])) piece [] hpiece (by simpa using hsize)
    rw [List.flatMap_cons, List.append_assoc, List.singleton_append, fgetsLines, hfirst, hrest]
    rfl

/-! ## 2. `sscanf` -/

/-- `%<width>s`: the word, and what is left. -/
def scanWord (width : Nat) (text : List UInt8) : Option (List UInt8 × List UInt8) :=
  let text := text.dropWhile isspace
  if text = [] then none
  else
    let word := (text.takeWhile (fun c => !isspace c)).take width
    some (word, text.drop word.length)

/-- A format of words only; `none` where there are fewer. -/
def scanWords : List Nat → List UInt8 → Option (List (List UInt8))
  | [], _ => some []
  | width :: widths, text =>
    match scanWord width text with
    | none => none
    | some (word, rest) => (scanWords widths rest).map (word :: ·)

theorem scanWord_append_blanks (width : Nat) (text : List UInt8) {blanks : List UInt8}
    (h : ∀ c ∈ blanks, isspace c = true) :
    scanWord width (text ++ blanks) = (scanWord width text).map (fun p => (p.1, p.2 ++ blanks)) := by
  have hdrop : blanks.dropWhile isspace = [] := List.dropWhile_eq_nil_iff.mpr h
  by_cases hempty : text.dropWhile isspace = []
  · have hall : (text ++ blanks).dropWhile isspace = [] := by
      rw [List.dropWhile_append, hempty, List.isEmpty_nil, if_pos rfl, hdrop]
    simp [scanWord, hempty, hall]
  · have happend : (text ++ blanks).dropWhile isspace = text.dropWhile isspace ++ blanks := by
      rw [List.dropWhile_append, if_neg (by simpa using hempty)]
    have htake : (text.dropWhile isspace ++ blanks).takeWhile (fun c => !isspace c) =
        (text.dropWhile isspace).takeWhile (fun c => !isspace c) := by
      rw [List.takeWhile_append]
      split
      · have hstop : blanks.takeWhile (fun c => !isspace c) = [] := by
          cases blanks with
          | nil => rfl
          | cons c blanks => simp [h c (List.mem_cons_self ..)]
        rename_i hlen
        rw [hstop, List.append_nil]
        exact ((List.takeWhile_prefix _).eq_of_length hlen).symm
      · rfl
    have hlen : (((text.dropWhile isspace).takeWhile (fun c => !isspace c)).take width).length ≤
        (text.dropWhile isspace).length :=
      (List.length_take_le' _ _).trans (List.takeWhile_prefix _).length_le
    unfold scanWord
    dsimp only
    rw [happend, htake, if_neg hempty, if_neg (by simp [hempty]), Option.map_some,
      List.drop_append_of_le_length hlen]

/-- **Blanks at the end** of a line are no words. -/
theorem scanWords_append_blanks {blanks : List UInt8} (h : ∀ c ∈ blanks, isspace c = true) :
    ∀ (widths : List Nat) (text : List UInt8),
      scanWords widths (text ++ blanks) = scanWords widths text
  | [], _ => rfl
  | width :: widths, text => by
    rw [scanWords, scanWords, scanWord_append_blanks width text h]
    cases scanWord width text with
    | none => rfl
    | some p =>
      simp only [Option.map_some]
      rw [scanWords_append_blanks h widths p.2]

/-- A blank in front does not matter. -/
theorem scanWord_blank {width : Nat} {c : UInt8} (h : isspace c = true) (text : List UInt8) :
    scanWord width (c :: text) = scanWord width text := by
  rw [scanWord, scanWord, List.dropWhile_cons_of_pos h]

/-- A word in front, followed by a blank. -/
theorem scanWord_word {width : Nat} {word rest : List UInt8} {c : UInt8} (hne : word ≠ [])
    (hword : ∀ b ∈ word, isspace b = false) (hlen : word.length ≤ width) (hc : isspace c = true) :
    scanWord width (word ++ c :: rest) = some (word, c :: rest) := by
  have hdrop : (word ++ c :: rest).dropWhile isspace = word ++ c :: rest := by
    obtain ⟨b, bs, rfl⟩ := List.exists_cons_of_ne_nil hne
    simp [hword b (List.mem_cons_self ..)]
  have htake : (word ++ c :: rest).takeWhile (fun b => !isspace b) = word := by
    rw [List.takeWhile_append_of_pos (fun b hb => by simp [hword b hb])]
    simp [hc]
  unfold scanWord
  dsimp only
  rw [hdrop, htake, if_neg (by simp), List.take_of_length_le hlen, List.drop_left]

/-! ## 3. Pieces of a text put together -/

/-- A text without the delimiter goes to the first piece. -/
theorem splitOn_append_left {d : UInt8} {b : List UInt8} : ∀ {a : List UInt8}, d ∉ a →
    ∃ first pieces, b.splitOn d = first :: pieces ∧ (a ++ b).splitOn d = (a ++ first) :: pieces
  | [], _ => by
    cases h : b.splitOn d with
    | nil => exact absurd h (List.splitOn_ne_nil d b)
    | cons first pieces => exact ⟨first, pieces, rfl, h⟩
  | c :: a, h => by
    rw [List.mem_cons, not_or] at h
    obtain ⟨first, pieces, hb, hab⟩ := @splitOn_append_left d b a h.2
    refine ⟨first, pieces, hb, ?_⟩
    have hc : ¬ (c == d) = true := by simpa using Ne.symm h.1
    rw [List.cons_append, List.splitOn_cons_eq_if_modifyHead, if_neg hc, hab, List.modifyHead_cons]
    rfl

/-- A text without the delimiter goes to the last piece. -/
theorem splitOn_append_right {d : UInt8} {b : List UInt8} (h : d ∉ b) : ∀ a : List UInt8,
    List.Forall₂ (fun piece piece' => piece' = piece ∨ piece' = piece ++ b)
      (a.splitOn d) ((a ++ b).splitOn d)
  | [] => by
    obtain ⟨first, pieces, hnil, hb⟩ := @splitOn_append_left d [] b h
    rw [List.splitOn_nil, List.cons.injEq] at hnil
    obtain ⟨rfl, rfl⟩ := hnil
    rw [List.append_nil] at hb
    rw [List.nil_append, List.splitOn_nil, hb]
    exact List.Forall₂.cons (Or.inr (by simp)) List.Forall₂.nil
  | c :: a => by
    have ih := splitOn_append_right h a
    rw [List.cons_append, List.splitOn_cons_eq_if_modifyHead, List.splitOn_cons_eq_if_modifyHead]
    split
    · exact List.Forall₂.cons (Or.inl rfl) ih
    · cases hsplit : a.splitOn d with
      | nil => exact absurd hsplit (List.splitOn_ne_nil d a)
      | cons first pieces =>
        rw [hsplit] at ih
        generalize (a ++ b).splitOn d = r at ih ⊢
        cases ih with
        | cons hfirst hpieces =>
          rw [List.modifyHead_cons, List.modifyHead_cons]
          refine List.Forall₂.cons ?_ hpieces
          rcases hfirst with rfl | rfl
          · exact Or.inl rfl
          · exact Or.inr rfl

/-- An element of the second of two related lists has its element of the first. -/
theorem forall₂_exists_left {α β : Type} {R : α → β → Prop} : ∀ {l : List α} {l' : List β},
    List.Forall₂ R l l' → ∀ b ∈ l', ∃ a ∈ l, R a b
  | _, _, .nil, _, hb => absurd hb List.not_mem_nil
  | _, _, .cons (a := a) hab h, b, hb => by
    rcases List.mem_cons.mp hb with rfl | hb
    · exact ⟨a, List.mem_cons_self .., hab⟩
    · obtain ⟨a', ha', hR⟩ := forall₂_exists_left h b hb
      exact ⟨a', List.mem_cons_of_mem _ ha', hR⟩

/-- A piece is no longer than the text. -/
theorem length_le_of_mem_splitOn {d : UInt8} : ∀ {text piece : List UInt8}, piece ∈ text.splitOn d →
    piece.length ≤ text.length
  | [], piece, h => by
    rw [List.splitOn_nil, List.mem_singleton] at h
    rw [h]
  | c :: text, piece, h => by
    rw [List.splitOn_cons_eq_if_modifyHead] at h
    split at h
    · rcases List.mem_cons.mp h with rfl | h
      · exact Nat.zero_le _
      · exact (length_le_of_mem_splitOn h).trans (Nat.le_succ _)
    · cases hsplit : text.splitOn d with
      | nil => exact absurd hsplit (List.splitOn_ne_nil d text)
      | cons first pieces =>
        have hmem : ∀ p ∈ first :: pieces, p.length ≤ text.length := fun p hp =>
          length_le_of_mem_splitOn (hsplit ▸ hp)
        rw [hsplit, List.modifyHead_cons] at h
        rcases List.mem_cons.mp h with rfl | h
        · exact Nat.succ_le_succ (hmem first (List.mem_cons_self ..))
        · exact (hmem piece (List.mem_cons_of_mem _ h)).trans (Nat.le_succ _)

/-! ## 4. The lines of a text -/

/-- The pieces between the line feeds; behind the last line feed there is only one if it is not empty. -/
def textLines (text : List UInt8) : List (List UInt8) :=
  if (text.splitOn 10).getLast? = some [] then (text.splitOn 10).dropLast else text.splitOn 10

/-- The bytes in front of the first line feed. -/
def firstLine (text : List UInt8) : List UInt8 := text.takeWhile (· != 10)

/-- The bytes behind the first line feed. -/
def otherLines (text : List UInt8) : List UInt8 := (text.dropWhile (· != 10)).drop 1

@[simp] theorem textLines_nil : textLines [] = [] := rfl

/-- **A text that is not empty** has its first line, and the lines behind it. -/
theorem textLines_of_cons {text : List UInt8} (h : text ≠ []) :
    textLines text = firstLine text :: textLines (otherLines text) := by
  have hfirst : (10 : UInt8) ∉ firstLine text := fun hmem => by simpa using List.mem_takeWhile_imp hmem
  have htext : firstLine text ++ text.dropWhile (· != 10) = text := List.takeWhile_append_dropWhile
  cases hdrop : text.dropWhile (· != 10) with
  | nil =>
    have hall : firstLine text = text := by rw [hdrop, List.append_nil] at htext; exact htext
    have hsplit : text.splitOn 10 = [text] := List.splitOn_eq_singleton (hall ▸ hfirst)
    rw [otherLines, hdrop, textLines, hsplit, hall]
    simp [h]
  | cons c rest =>
    have hc : c = 10 := by
      have hhead := List.head?_dropWhile_not (· != 10) text
      simpa [hdrop] using hhead
    have hsplit : text.splitOn 10 = firstLine text :: rest.splitOn 10 := by
      rw [← List.splitOn_append_cons_self_of_not_mem hfirst, ← hc, ← hdrop, htext]
    have hrest : otherLines text = rest := by rw [otherLines, hdrop]; rfl
    obtain ⟨piece, pieces, hpieces⟩ := List.exists_cons_of_ne_nil (List.splitOn_ne_nil 10 rest)
    rw [hrest, textLines, textLines, hsplit, hpieces, List.getLast?_cons_cons, List.dropLast_cons_cons]
    split <;> rfl

/-- There are not more lines than bytes. -/
theorem textLines_length_le (text : List UInt8) : (textLines text).length ≤ text.length := by
  induction hn : text.length using Nat.strong_induction_on generalizing text with
  | _ n ih =>
    subst hn
    by_cases hne : text = []
    · rw [hne]
      exact le_refl _
    · have hrest : (otherLines text).length < text.length := by
        rw [otherLines, List.length_drop]
        have hle : (text.dropWhile (· != 10)).length ≤ text.length := (List.dropWhile_suffix _).length_le
        have hpos : 0 < text.length := List.length_pos_of_ne_nil hne
        omega
      have := ih _ hrest (otherLines text) rfl
      rw [textLines_of_cons hne, List.length_cons]
      omega

end CLib
