/-
# The check of a downloaded archive

`validate_archive` reads the names that `tar -ztf` prints with `fgets` and a buffer of 512 bytes, so a name
of 511 bytes or more comes in pieces, and each piece is judged as if it were a name.

* `entryOk`: what is asked of a line.
* `WholeOk`: what should hold of a name as a whole.
* `wholeOk_iff`: of a name whose pieces pass, **it is so when the name is cut behind `./` prefixes only**.
* `archive_check_iff`: the same for the archive, with its number of icons.
-/
import Oaf.Lib.Lines
import Oaf.Update.Online

namespace Oaf

open CLib

/-! ## 1. The check -/

def appIcons : List UInt8 := ascii "app_icons"

def appIconsSlash : List UInt8 := ascii "app_icons/"

/-- A character of the name of an icon. -/
def iconChar (c : UInt8) : Bool := Online.isalnum c || c == 46 || c == 95 || c == 45

/-- `icon_entry_valid`. -/
def iconEntryValid (entry : List UInt8) : Bool :=
  if entry = appIcons ∨ entry = appIconsSlash then true
  else if entry.take 10 ≠ appIconsSlash then false
  else
    let name := entry.drop 10
    if name.length < 5 ∨ 128 < name.length ∨ name.drop (name.length - 4) ≠ ascii ".png" then false
    else name.all iconChar

/-- `archive_entry_path_safe`: `..` is no component. -/
def archiveEntryPathSafe (entry : List UInt8) : Bool :=
  if entry = [] ∨ entry.head? = some 47 ∨ 92 ∈ entry then false
  else (words 47 entry).all fun part => part ≠ [46, 46]

/-- `normalize_archive_entry`. -/
def normalizeArchiveEntry : List UInt8 → List UInt8
  | 46 :: 47 :: rest => normalizeArchiveEntry rest
  | entry => entry

/-- `feature_entry_valid`. -/
def featureEntryValid (entry : List UInt8) : Bool := entry = ascii "feature.bin"

def MAX_ICON_NUM : Nat := 4096

/-- One line of the loop; `none` when the archive is refused. -/
def validateLine (iconCount : Nat) (line : List UInt8) : Option Nat :=
  if !archiveEntryPathSafe (trimSpaces line) then none
  else
    let entry := normalizeArchiveEntry (trimSpaces line)
    if entry = [] ∨ entry = [46] then some iconCount
    else if featureEntryValid entry then some iconCount
    else if iconEntryValid entry then
      if entry ≠ appIcons ∧ entry ≠ appIconsSlash then
        if MAX_ICON_NUM < iconCount + 1 then none else some (iconCount + 1)
      else some iconCount
    else none

/-- The name of an entry: it has no NUL and no line feed. -/
structure EntryName where
  text : CStr
  noLf : 10 ∉ text.bytes

/-- What `tar -ztf` prints. -/
def archiveListing (names : List EntryName) : List UInt8 :=
  names.flatMap fun name => name.text.bytes ++ [10]

/-- `validate_archive`: the number of icons, when it returns 0. -/
def validateArchive (names : List EntryName) : Option Nat :=
  (fgetsLines 512 (archiveListing names)).foldlM validateLine 0

/-! ## 2. Names as a whole -/

/-- A file below `app_icons/`. -/
def isIconFile (entry : List UInt8) : Bool :=
  appIconsSlash.isPrefixOf entry && (entry.drop 10).all iconChar &&
    (ascii ".png").isSuffixOf (entry.drop 10)

/-- What an archive may have, in front of which `./` is allowed. -/
def KnownEntry (entry : List UInt8) : Prop :=
  entry = [] ∨ entry = [46] ∨ entry = ascii "feature.bin" ∨ entry = appIcons ∨
    entry = appIconsSlash ∨ isIconFile entry = true

/-- A name as a whole is that of a known entry. -/
structure WholeOk (name : List UInt8) : Prop where
  relative : (trimSpaces name).head? ≠ some 47
  inside : [46, 46] ∉ (trimSpaces name).splitOn 47
  noBackslash : 92 ∉ trimSpaces name
  known : KnownEntry (normalizeArchiveEntry (trimSpaces name))

/-- What should hold of an archive that is accepted. -/
def ArchiveOk (names : List EntryName) : Prop :=
  (∀ name ∈ names, WholeOk name.text.bytes) ∧
    names.countP (fun name => isIconFile (normalizeArchiveEntry (trimSpaces name.text.bytes))) ≤
      MAX_ICON_NUM

/-! ## 3. Pieces -/

/-- What is asked of a line. -/
def entryOk (line : List UInt8) : Bool :=
  let entry := normalizeArchiveEntry (trimSpaces line)
  archiveEntryPathSafe (trimSpaces line) &&
    (entry = [] || entry = [46] || featureEntryValid entry || iconEntryValid entry)

/-- A line that is counted. -/
def isIconLine (line : List UInt8) : Bool :=
  let entry := normalizeArchiveEntry (trimSpaces line)
  iconEntryValid entry && entry ≠ appIcons && entry ≠ appIconsSlash

/-- The lines in which a name is read. -/
def namePieces (name : List UInt8) : List (List UInt8) :=
  if name.length < 511 then [name ++ [10]] else name.take 511 :: namePieces (name.drop 511)
termination_by name.length
decreasing_by
  rw [List.length_drop]
  omega

/-- `./`, `k` times. -/
def dotSlashes (k : Nat) : List UInt8 := (List.replicate k [46, 47]).flatten

/-- Where a name is cut, there are only blanks and `./` in front, and no blank behind. -/
def CutAtPrefixes (name : List UInt8) : Prop :=
  (∃ k, (name.take 511).dropWhile isspace = dotSlashes k) ∧
    ∀ c, (name.drop 511).head? = some c → isspace c = false

/-- All cuts of a name are of this kind. -/
def CutsOk (name : List UInt8) : Prop :=
  if name.length < 511 then True else CutAtPrefixes name ∧ CutsOk (name.drop 511)
termination_by name.length
decreasing_by
  rw [List.length_drop]
  omega

/-! ## 4. `./` prefixes -/

@[simp] theorem dotSlashes_zero : dotSlashes 0 = [] := rfl

theorem dotSlashes_succ (k : Nat) : dotSlashes (k + 1) = 46 :: 47 :: dotSlashes k := by
  rw [dotSlashes, List.replicate_succ, List.flatten_cons]
  rfl

theorem length_dotSlashes (k : Nat) : (dotSlashes k).length = 2 * k := by
  induction k with
  | zero => rfl
  | succ k ih =>
    rw [dotSlashes_succ, List.length_cons, List.length_cons, ih]
    omega

theorem mem_dotSlashes {c : UInt8} {k : Nat} (h : c ∈ dotSlashes k) : c = 46 ∨ c = 47 := by
  induction k with
  | zero => exact absurd h List.not_mem_nil
  | succ k ih =>
    rw [dotSlashes_succ] at h
    rcases List.mem_cons.mp h with rfl | h
    · exact .inl rfl
    · exact (List.mem_cons.mp h).elim .inr ih

theorem normalize_dotSlashes (k : Nat) (entry : List UInt8) :
    normalizeArchiveEntry (dotSlashes k ++ entry) = normalizeArchiveEntry entry := by
  induction k with
  | zero => rfl
  | succ k ih =>
    rw [dotSlashes_succ, List.cons_append, List.cons_append, normalizeArchiveEntry, ih]

/-- What is removed in front is `./`, some times. -/
theorem eq_dotSlashes_normalize (entry : List UInt8) :
    ∃ k, entry = dotSlashes k ++ normalizeArchiveEntry entry := by
  induction entry using normalizeArchiveEntry.induct with
  | case1 rest ih =>
    obtain ⟨k, hk⟩ := ih
    refine ⟨k + 1, ?_⟩
    rw [normalizeArchiveEntry, dotSlashes_succ, List.cons_append, List.cons_append, ← hk]
  | case2 entry hne =>
    refine ⟨0, ?_⟩
    rw [normalizeArchiveEntry.eq_2 entry hne, dotSlashes_zero, List.nil_append]

/-- Without a slash nothing is removed. -/
theorem normalize_of_noSlash {entry : List UInt8} (h : 47 ∉ entry) :
    normalizeArchiveEntry entry = entry := by
  refine normalizeArchiveEntry.eq_2 entry ?_
  rintro rest rfl
  exact h (by simp)

/-- A beginning of a text without `./` in front has none either. -/
theorem normalize_prefix {u v : List UInt8} (h : normalizeArchiveEntry (u ++ v) = u ++ v) :
    normalizeArchiveEntry u = u := by
  refine normalizeArchiveEntry.eq_2 u ?_
  rintro rest rfl
  obtain ⟨k, hk⟩ := eq_dotSlashes_normalize (rest ++ v)
  rw [List.cons_append, List.cons_append, normalizeArchiveEntry] at h
  have hlen := congrArg List.length hk
  have hlen' := congrArg List.length h
  rw [@List.length_append _ (dotSlashes k)] at hlen
  rw [List.length_cons, List.length_cons] at hlen'
  omega

theorem normalize_normalize (entry : List UInt8) :
    normalizeArchiveEntry (normalizeArchiveEntry entry) = normalizeArchiveEntry entry := by
  induction entry using normalizeArchiveEntry.induct with
  | case1 rest ih => rwa [normalizeArchiveEntry]
  | case2 entry hne => rw [normalizeArchiveEntry.eq_2 entry hne, normalizeArchiveEntry.eq_2 entry hne]

/-- A text that is cut inside its `./` prefixes is cut behind one of them, or goes on with a slash. -/
theorem cut_dotSlashes : ∀ {k : Nat} {u v entry : List UInt8}, u ++ v = dotSlashes k ++ entry →
    u.length ≤ 2 * k → v.head? ≠ some 47 → ∃ j, u = dotSlashes j
  | _, [], _, _, _, _, _ => ⟨0, rfl⟩
  | 0, _ :: _, _, _, _, hlen, _ => absurd hlen (by simp)
  | k + 1, [x], v, entry, h, _, hv => by
    rw [dotSlashes_succ] at h
    obtain ⟨-, rfl⟩ := List.cons.inj h
    exact absurd rfl hv
  | k + 1, x :: y :: u, v, entry, h, hlen, hv => by
    rw [dotSlashes_succ] at h
    simp only [List.cons_append, List.cons.injEq] at h
    obtain ⟨rfl, rfl, h⟩ := h
    rw [List.length_cons, List.length_cons] at hlen
    obtain ⟨j, rfl⟩ := cut_dotSlashes h (by omega) hv
    exact ⟨j + 1, (dotSlashes_succ j).symm⟩

/-! ## 5. What passes -/

/-- The end of `entryOk`. -/
def passesEntry (entry : List UInt8) : Bool :=
  entry = [] || entry = [46] || featureEntryValid entry || iconEntryValid entry

theorem entryOk_iff (line : List UInt8) : entryOk line = true ↔
    archiveEntryPathSafe (trimSpaces line) = true ∧
      passesEntry (normalizeArchiveEntry (trimSpaces line)) = true := by
  rw [entryOk, Bool.and_eq_true]
  rfl

theorem isIconFile_iff {entry : List UInt8} : isIconFile entry = true ↔
    ∃ file, entry = appIconsSlash ++ file ∧ file.all iconChar = true ∧ ascii ".png" <:+ file := by
  rw [isIconFile, Bool.and_eq_true, Bool.and_eq_true, List.isPrefixOf_iff_prefix,
    List.isSuffixOf_iff_suffix]
  constructor
  · rintro ⟨⟨⟨file, rfl⟩, hall⟩, hsuf⟩
    exact ⟨file, rfl, hall, hsuf⟩
  · rintro ⟨file, rfl, hall, hsuf⟩
    exact ⟨⟨⟨file, rfl⟩, hall⟩, hsuf⟩

/-- What passes is known, and its icons are icon files. -/
theorem known_of_passes {entry : List UInt8} (h : passesEntry entry = true) :
    KnownEntry entry ∧ (iconEntryValid entry = true → entry ≠ appIcons → entry ≠ appIconsSlash →
      isIconFile entry = true) := by
  have hicon : iconEntryValid entry = true → entry ≠ appIcons → entry ≠ appIconsSlash →
      isIconFile entry = true := by
    intro hvalid h1 h2
    rw [iconEntryValid, if_neg (by simp [h1, h2])] at hvalid
    split at hvalid
    · cases hvalid
    · rename_i htake
      dsimp only at hvalid
      split at hvalid
      · cases hvalid
      · rename_i hname
        simp only [not_or, not_not, ne_eq] at hname htake
        refine isIconFile_iff.mpr ⟨entry.drop 10, ?_, hvalid, ?_⟩
        · rw [← htake, List.take_append_drop]
        · rw [← hname.2.2]
          exact List.drop_suffix _ _
  refine ⟨?_, hicon⟩
  simp only [passesEntry, Bool.or_eq_true, decide_eq_true_eq, featureEntryValid] at h
  rcases h with ((h | h) | h) | h
  · exact .inl h
  · exact .inr (.inl h)
  · exact .inr (.inr (.inl h))
  · by_cases h1 : entry = appIcons
    · exact .inr (.inr (.inr (.inl h1)))
    by_cases h2 : entry = appIconsSlash
    · exact .inr (.inr (.inr (.inr (.inl h2))))
    · exact .inr (.inr (.inr (.inr (.inr (hicon h h1 h2)))))

theorem noSpace_of_iconChar {c : UInt8} (h : iconChar c = true) : isspace c = false ∧ c ≠ 47 := by
  simp only [iconChar, Online.isalnum, isdigit, Bool.or_eq_true, Bool.and_eq_true, decide_eq_true_eq,
    beq_iff_eq, UInt8.le_iff_toNat_le, UInt8.reduceToNat, ← UInt8.toNat_inj] at h
  refine ⟨?_, fun h47 => ?_⟩
  · rw [isspace, Bool.or_eq_false_iff, Bool.and_eq_false_iff]
    simp only [beq_eq_false_iff_ne, decide_eq_false_iff_not, UInt8.le_iff_toNat_le,
      UInt8.reduceToNat, ne_eq, ← UInt8.toNat_inj]
    omega
  · rw [h47] at h
    simp at h

/-- A known entry has no blanks. -/
theorem KnownEntry.noSpace {entry : List UInt8} (h : KnownEntry entry) :
    ∀ c ∈ entry, isspace c = false := by
  rcases h with rfl | rfl | rfl | rfl | rfl | h
  · exact fun c hc => absurd hc List.not_mem_nil
  · exact fun c hc => List.mem_singleton.mp hc ▸ rfl
  · exact List.all_eq_true.mp (by decide : (ascii "feature.bin").all (fun c => !isspace c) = true)
      |> fun h c hc => by simpa using h c hc
  · exact List.all_eq_true.mp (by decide : appIcons.all (fun c => !isspace c) = true)
      |> fun h c hc => by simpa using h c hc
  · exact List.all_eq_true.mp (by decide : appIconsSlash.all (fun c => !isspace c) = true)
      |> fun h c hc => by simpa using h c hc
  · obtain ⟨file, rfl, hall, -⟩ := isIconFile_iff.mp h
    intro c hc
    rcases List.mem_append.mp hc with hc | hc
    · simpa using List.all_eq_true.mp
        (by decide : appIconsSlash.all (fun c => !isspace c) = true) c hc
    · exact (noSpace_of_iconChar (List.all_eq_true.mp hall c hc)).1

/-- A known entry without a slash is one of four. -/
theorem KnownEntry.of_noSlash {entry : List UInt8} (h : KnownEntry entry) (hslash : 47 ∉ entry) :
    entry = [] ∨ entry = [46] ∨ entry = ascii "feature.bin" ∨ entry = appIcons := by
  rcases h with h | h | h | h | rfl | h
  · exact .inl h
  · exact .inr (.inl h)
  · exact .inr (.inr (.inl h))
  · exact .inr (.inr (.inr h))
  · exact absurd (by decide) hslash
  · obtain ⟨file, rfl, -, -⟩ := isIconFile_iff.mp h
    exact absurd (List.mem_append_left _ (by decide)) hslash

/-- What a line that passes begins with. -/
theorem head_of_entryOk {line : List UInt8} (h : entryOk line = true) :
    trimSpaces line ≠ [] ∧ (trimSpaces line).head? ≠ some 47 := by
  have hsafe := ((entryOk_iff line).mp h).1
  rw [archiveEntryPathSafe] at hsafe
  split at hsafe
  · cases hsafe
  · rename_i hne
    simp only [not_or] at hne
    exact ⟨hne.1, hne.2.1⟩

/-! ## 6. A name in two parts -/

theorem mem_words_iff {w text : List UInt8} (hw : w ≠ []) : w ∈ words 47 text ↔ w ∈ text.splitOn 47 := by
  rw [words, List.mem_filter]
  simp [hw]

/-- A short name that passes is right as a whole. -/
theorem wholeOk_of_short {name : List UInt8} (h : entryOk (name ++ [10]) = true) : WholeOk name := by
  have htrim : trimSpaces (name ++ [10]) = trimSpaces name :=
    trimSpaces_append_blanks name fun c hc => List.mem_singleton.mp hc ▸ rfl
  have hpass := ((entryOk_iff _).mp h).2
  have hsafe := ((entryOk_iff _).mp h).1
  have hhead := head_of_entryOk h
  rw [htrim] at hpass hsafe hhead
  rw [archiveEntryPathSafe] at hsafe
  split at hsafe
  · cases hsafe
  · rename_i hne
    simp only [not_or] at hne
    refine ⟨hhead.2, fun hdots => ?_, hne.2.2, (known_of_passes hpass).1⟩
    have := List.all_eq_true.mp hsafe _ ((mem_words_iff (List.cons_ne_nil _ _)).mpr hdots)
    simp at this

/-- The first line of a name. -/
def firstPiece (name : List UInt8) : List UInt8 := if name.length < 511 then name ++ [10] else name.take 511

theorem firstPiece_mem (name : List UInt8) : firstPiece name ∈ namePieces name := by
  rw [namePieces, firstPiece]
  split
  · exact List.mem_singleton_self _
  · exact List.mem_cons_self

/-- Of a name without blanks in front, the first line has up to 511 bytes of what is to be read. -/
theorem trim_firstPiece {name : List UInt8} (hno : ∀ c ∈ name.rdropWhile isspace, isspace c = false) :
    trimSpaces (firstPiece name) = (name.rdropWhile isspace).take 511 := by
  obtain ⟨blanks, hblank, hname⟩ : ∃ blanks : List UInt8, (∀ c ∈ blanks, isspace c = true) ∧
      name.rdropWhile isspace ++ blanks = name :=
    ⟨name.rtakeWhile isspace, fun c hc => List.mem_rtakeWhile_imp hc,
      List.rdropWhile_append_rtakeWhile⟩
  have htake : ∀ c ∈ (name.rdropWhile isspace).take 511, isspace c = false :=
    fun c hc => hno c (List.mem_of_mem_take hc)
  rw [firstPiece]
  split
  · rename_i hlen
    have hle : (name.rdropWhile isspace).length ≤ 511 :=
      (List.rdropWhile_prefix isspace name).length_le.trans hlen.le
    rw [trimSpaces_append_blanks name fun c hc => List.mem_singleton.mp hc ▸ rfl, ← hname,
      trimSpaces_append_blanks _ hblank, hname, List.take_of_length_le hle,
      trimSpaces_of_forall hno]
  · conv_lhs => rw [← hname]
    rw [List.take_append, trimSpaces_append_blanks _ fun c hc => hblank c (List.mem_of_mem_take hc),
      trimSpaces_of_forall htake]

/-- An icon file that is cut goes on with a part that is not accepted as a line of its own. -/
theorem not_passes_tail {file u v : List UInt8} (hfile : u ++ v = file) (hv : v ≠ [])
    (hall : file.all iconChar = true) (hpng : ascii ".png" <:+ file) :
    passesEntry (normalizeArchiveEntry (v.take 511)) = false := by
  have hslash : 47 ∉ v := by
    intro h
    have hmem : (47 : UInt8) ∈ file := hfile ▸ List.mem_append_right _ h
    exact (noSpace_of_iconChar (List.all_eq_true.mp hall _ hmem)).2 rfl
  have hlast : v.getLast? = some 103 := by
    have h : file.getLast? = some 103 := by
      obtain ⟨front, rfl⟩ := hpng
      rw [List.getLast?_append]
      rfl
    rw [← hfile, List.getLast?_append] at h
    rcases hv' : v.getLast? with - | c
    · exact absurd (List.getLast?_eq_none_iff.mp hv') hv
    · rwa [hv', Option.some_or] at h
  rw [normalize_of_noSlash fun h => hslash (List.mem_of_mem_take h)]
  by_contra hpass
  rw [Bool.not_eq_false] at hpass
  have hfour := (known_of_passes hpass).1.of_noSlash fun h => hslash (List.mem_of_mem_take h)
  have hlen : (v.take 511).length < 511 := by
    rcases hfour with h | h | h | h <;> rw [h] <;> decide
  rw [List.take_of_length_le (by rw [List.length_take] at hlen; omega)] at hfour
  rcases hfour with rfl | rfl | rfl | rfl
  · exact hv rfl
  · exact absurd hlast (by decide)
  · exact absurd hlast (by decide)
  · exact absurd hlast (by decide)

/-- **A known entry in two parts that pass is cut inside its `./` prefixes.** -/
theorem cut_of_known {u v entry : List UInt8} {k : Nat} (h : u ++ v = dotSlashes k ++ entry)
    (hentry : KnownEntry entry) (hnormal : normalizeArchiveEntry entry = entry)
    (hu : passesEntry (normalizeArchiveEntry u) = true)
    (hv : passesEntry (normalizeArchiveEntry (v.take 511)) = true) (hne : v ≠ [])
    (hhead : v.head? ≠ some 47) : ∃ j, u = dotSlashes j := by
  rcases Nat.lt_or_ge (2 * k) u.length with hlt | hle
  swap
  · exact cut_dotSlashes h hle hhead
  exfalso
  obtain ⟨front, rfl, hfront⟩ : ∃ front, u = dotSlashes k ++ front ∧ entry = front ++ v := by
    rcases List.append_eq_append_iff.mp h with ⟨rest, hrest, -⟩ | ⟨rest, hrest, hrest'⟩
    · have := congrArg List.length hrest
      rw [List.length_append, length_dotSlashes] at this
      omega
    · exact ⟨rest, hrest, hrest'⟩
  have hpos : 0 < front.length := by
    rw [List.length_append, length_dotSlashes] at hlt
    omega
  rw [normalize_dotSlashes, normalize_prefix (hfront ▸ hnormal)] at hu
  have hlen : front.length < entry.length := by
    rw [hfront, List.length_append]
    exact Nat.lt_add_of_pos_right (List.length_pos_iff.mpr hne)
  have htake : front = entry.take front.length := by rw [hfront, List.take_left]
  have hdrop : v = entry.drop front.length := by rw [hfront, List.drop_left]
  rcases hentry with rfl | rfl | rfl | rfl | rfl | hicon
  · exact absurd hlen (by simp)
  · rw [List.length_singleton] at hlen
    omega
  · have hcut : ∀ n < 11, 0 < n → passesEntry ((ascii "feature.bin").take n) = false := by decide
    rw [htake, hcut _ hlen hpos] at hu
    cases hu
  · have hcut : ∀ n < 9, 0 < n → passesEntry (appIcons.take n) = false := by decide
    rw [htake, hcut _ hlen hpos] at hu
    cases hu
  · have hcut : ∀ n < 10, 0 < n → passesEntry (appIconsSlash.take n) = false ∨
        (appIconsSlash.drop n).head? = some 47 := by decide
    rcases hcut _ hlen hpos with h | h
    · rw [htake, h] at hu
      cases hu
    · exact hhead (hdrop ▸ h)
  · obtain ⟨file, rfl, hall, hpng⟩ := isIconFile_iff.mp hicon
    -- inside `app_icons/` only its last byte can be cut off; behind it the rest ends in `.png`
    rcases Nat.lt_or_ge front.length 10 with hshort | hlong
    · have hcut : ∀ n < 10, 0 < n → passesEntry (appIconsSlash.take n) = false ∨
          (appIconsSlash.drop n).head? = some 47 := by decide
      rcases hcut _ hshort hpos with h | h
      · rw [htake, List.take_append_of_le_length hshort.le, h] at hu
        cases hu
      · refine hhead ?_
        rw [hdrop, List.drop_append_of_le_length hshort.le, List.head?_append, h]
        rfl
    · have hnil : appIconsSlash.drop front.length = [] := List.drop_eq_nil_of_le hlong
      have hfile : file.take (front.length - 10) ++ v = file := by
        rw [hdrop, List.drop_append, hnil, List.nil_append]
        exact List.take_append_drop _ _
      rw [not_passes_tail hfile hne hall hpng] at hv
      cases hv

theorem splitOn_dotSlashes {k : Nat} {w text : List UInt8} (hw : w ≠ [46]) :
    w ∈ (dotSlashes k ++ text).splitOn 47 ↔ w ∈ text.splitOn 47 := by
  induction k with
  | zero => rfl
  | succ k ih =>
    have hsplit : (dotSlashes (k + 1) ++ text).splitOn 47 =
        [46] :: (dotSlashes k ++ text).splitOn 47 := by
      rw [dotSlashes_succ]
      exact List.splitOn_append_cons_self_of_not_mem (show (47 : UInt8) ∉ [46] by decide) _
    rw [hsplit, List.mem_cons, ih]
    exact or_iff_right hw

theorem ninetyTwo_not_mem_dotSlashes (k : Nat) : (92 : UInt8) ∉ dotSlashes k :=
  fun h => by rcases mem_dotSlashes h with h | h <;> cases h

/-- In front of `./` prefixes nothing changes. -/
theorem wholeOk_dotSlashes {k : Nat} {name rest : List UInt8} (hk : dotSlashes k ≠ [])
    (htrim : trimSpaces name = dotSlashes k ++ trimSpaces rest)
    (hhead : (trimSpaces rest).head? ≠ some 47) : WholeOk name ↔ WholeOk rest := by
  have hhead' : (trimSpaces name).head? ≠ some 47 := by
    rcases k with - | k
    · exact absurd rfl hk
    · rw [htrim, dotSlashes_succ, List.cons_append, List.head?_cons]
      decide
  have hinside : [46, 46] ∈ (trimSpaces name).splitOn 47 ↔ [46, 46] ∈ (trimSpaces rest).splitOn 47 := by
    rw [htrim, splitOn_dotSlashes (by decide)]
  have hback : 92 ∈ trimSpaces name ↔ 92 ∈ trimSpaces rest := by
    rw [htrim, List.mem_append]
    exact or_iff_right (ninetyTwo_not_mem_dotSlashes k)
  have hnormal : normalizeArchiveEntry (trimSpaces name) = normalizeArchiveEntry (trimSpaces rest) := by
    rw [htrim, normalize_dotSlashes]
  constructor
  · intro h
    exact ⟨hhead, mt hinside.mpr h.inside, mt hback.mpr h.noBackslash, hnormal ▸ h.known⟩
  · intro h
    exact ⟨hhead', mt hinside.mp h.inside, mt hback.mp h.noBackslash, hnormal ▸ h.known⟩

theorem dropWhile_ne_nil_of_entryOk {line : List UInt8} (h : entryOk line = true) :
    line.dropWhile isspace ≠ [] := by
  intro hnil
  refine (head_of_entryOk h).1 ?_
  rw [trimSpaces, hnil]
  rfl

theorem trimSpaces_ne_nil_of_firstPiece {rest : List UInt8} (h : trimSpaces (firstPiece rest) ≠ []) :
    rest.rdropWhile isspace ≠ [] := by
  intro hnil
  have hblank : ∀ c ∈ rest, isspace c = true := List.rdropWhile_eq_nil_iff.mp hnil
  refine h ?_
  have hall : ∀ c ∈ firstPiece rest, isspace c = true := by
    intro c hc
    rw [firstPiece] at hc
    split at hc
    · rcases List.mem_append.mp hc with hc | hc
      · exact hblank c hc
      · exact List.mem_singleton.mp hc ▸ rfl
    · exact hblank c (List.mem_of_mem_take hc)
  have := trimSpaces_append_blanks [] hall
  rwa [List.nil_append] at this

/-- Without blanks in front only the end is trimmed. -/
theorem trimSpaces_of_head {text : List UInt8} (h : ∀ c, text.head? = some c → isspace c = false) :
    trimSpaces text = text.rdropWhile isspace := by
  rw [trimSpaces]
  congr 1
  rcases text with - | ⟨c, text⟩
  · rfl
  · exact List.dropWhile_cons_of_neg (by simp [h c rfl])

/-- What is left of a name that is cut behind `./` prefixes. -/
theorem trimSpaces_of_cut {piece rest : List UInt8} (hpiece : entryOk piece = true)
    (hrest : entryOk (firstPiece rest) = true) {k : Nat}
    (hk : piece.dropWhile isspace = dotSlashes k)
    (hblank : ∀ c, rest.head? = some c → isspace c = false) :
    trimSpaces (piece ++ rest) = dotSlashes k ++ trimSpaces rest := by
  rw [trimSpaces_append (dropWhile_ne_nil_of_entryOk hpiece)
    (trimSpaces_ne_nil_of_firstPiece (head_of_entryOk hrest).1), hk, trimSpaces_of_head hblank]

/-- **A cut name is right as a whole iff it is cut behind `./` prefixes and the rest is right.** -/
theorem wholeOk_append {piece rest : List UInt8} (hpiece : entryOk piece = true)
    (hrest : entryOk (firstPiece rest) = true) :
    WholeOk (piece ++ rest) ↔ ((∃ k, piece.dropWhile isspace = dotSlashes k) ∧
      ∀ c, rest.head? = some c → isspace c = false) ∧ WholeOk rest := by
  have hfront : piece.dropWhile isspace ≠ [] := dropWhile_ne_nil_of_entryOk hpiece
  have hback : rest.rdropWhile isspace ≠ [] :=
    trimSpaces_ne_nil_of_firstPiece (head_of_entryOk hrest).1
  have htrim : trimSpaces (piece ++ rest) = piece.dropWhile isspace ++ rest.rdropWhile isspace :=
    trimSpaces_append hfront hback
  have hheads : rest.head? = (rest.rdropWhile isspace).head? := by
    obtain ⟨blanks, hblanks⟩ := List.rdropWhile_prefix isspace (l := rest)
    rcases hcons : rest.rdropWhile isspace with - | ⟨c, tail⟩
    · exact absurd hcons hback
    · rw [← hblanks, hcons]
      rfl
  constructor
  · intro h
    obtain ⟨k, hk⟩ := eq_dotSlashes_normalize (trimSpaces (piece ++ rest))
    have hno : ∀ c ∈ trimSpaces (piece ++ rest), isspace c = false := by
      intro c hc
      rw [hk] at hc
      rcases List.mem_append.mp hc with hc | hc
      · rcases mem_dotSlashes hc with rfl | rfl <;> rfl
      · exact h.known.noSpace c hc
    rw [htrim] at hno
    have hnoBack : ∀ c ∈ rest.rdropWhile isspace, isspace c = false :=
      fun c hc => hno c (List.mem_append_right _ hc)
    have hblank : ∀ c, rest.head? = some c → isspace c = false :=
      fun c hc => hnoBack c (List.mem_of_mem_head? (hheads ▸ hc))
    have htrimPiece : trimSpaces piece = piece.dropWhile isspace :=
      List.rdropWhile_eq_self_iff.mpr fun hne => by
        simp [hno _ (List.mem_append_left _ (List.getLast_mem hne))]
    have htrimRest : trimSpaces rest = rest.rdropWhile isspace := trimSpaces_of_head hblank
    have hpassPiece := ((entryOk_iff _).mp hpiece).2
    have hpassRest := ((entryOk_iff _).mp hrest).2
    rw [htrimPiece] at hpassPiece
    rw [trim_firstPiece hnoBack] at hpassRest
    have hhead : (rest.rdropWhile isspace).head? ≠ some 47 := by
      have := (head_of_entryOk hrest).2
      rwa [trim_firstPiece hnoBack, List.head?_take, if_neg (by decide)] at this
    rw [htrim] at hk
    obtain ⟨j, hj⟩ := cut_of_known hk (htrim ▸ h.known) (normalize_normalize _) hpassPiece hpassRest
      hback hhead
    refine ⟨⟨⟨j, hj⟩, hblank⟩, ?_⟩
    refine (wholeOk_dotSlashes (hj ▸ hfront) ?_ (htrimRest ▸ hhead)).mp h
    rw [htrim, hj, htrimRest]
  · rintro ⟨⟨⟨k, hk⟩, hblank⟩, h⟩
    exact (wholeOk_dotSlashes (hk ▸ hfront) (trimSpaces_of_cut hpiece hrest hk hblank)
      h.relative).mpr h

/-- **A name whose lines pass is right as a whole iff all its cuts are behind `./` prefixes.** -/
theorem wholeOk_iff (name : List UInt8) (h : ∀ piece ∈ namePieces name, entryOk piece = true) :
    WholeOk name ↔ CutsOk name := by
  induction name using namePieces.induct with
  | case1 name hlen =>
    rw [namePieces, if_pos hlen] at h
    rw [CutsOk, if_pos hlen]
    exact iff_of_true (wholeOk_of_short (h _ (List.mem_singleton_self _))) trivial
  | case2 name hlen ih =>
    rw [namePieces, if_neg hlen] at h
    have hrest : ∀ piece ∈ namePieces (name.drop 511), entryOk piece = true :=
      fun piece hp => h piece (List.mem_cons_of_mem _ hp)
    have happend := wholeOk_append (h _ List.mem_cons_self) (hrest _ (firstPiece_mem _))
    rw [List.take_append_drop] at happend
    rw [CutsOk, if_neg hlen, happend, ih hrest]
    rfl

/-! ## 7. The lines of an archive -/

/-- The lines that `fgets` brings. -/
theorem fgetsFrom_name {rest : List UInt8} (name : List UInt8) (h : 10 ∉ name) :
    fgetsLines 512 (name ++ 10 :: rest) = namePieces name ++ fgetsLines 512 rest := by
  induction name using namePieces.induct with
  | case1 name hlen =>
    rw [namePieces, if_pos hlen, fgetsLines, fgetsFrom_piece h (by simpa using by omega)]
    rfl
  | case2 name hlen ih =>
    have hpiece : (name.take 511).length = 511 := List.length_take_of_le (by omega)
    have hfull : fgetsLines 512 (name.take 511 ++ (name.drop 511 ++ 10 :: rest)) =
        name.take 511 :: fgetsLines 512 (name.drop 511 ++ 10 :: rest) := by
      rw [fgetsLines, fgetsFrom_full (List.ne_nil_of_length_pos (by omega))
        (fun hmem => h (List.mem_of_mem_take hmem)) (by rw [List.length_nil, hpiece])]
      rfl
    rw [namePieces, if_neg hlen, List.cons_append, ← ih fun hmem => h (List.mem_of_mem_drop hmem),
      ← hfull, ← List.append_assoc, List.take_append_drop]

/-- The lines of an archive. -/
def archiveLines (names : List EntryName) : List (List UInt8) :=
  names.flatMap fun name => namePieces name.text.bytes

theorem fgetsLines_archiveListing (names : List EntryName) :
    fgetsLines 512 (archiveListing names) = archiveLines names := by
  induction names with
  | nil => rfl
  | cons name names ih =>
    rw [archiveLines, List.flatMap_cons, ← archiveLines, ← ih, archiveListing, List.flatMap_cons,
      ← archiveListing, List.append_assoc, List.singleton_append, fgetsFrom_name _ name.noLf]

/-- One line of the loop. -/
theorem validateLine_eq (iconCount : Nat) (line : List UInt8) :
    validateLine iconCount line = if entryOk line = false then none
      else if isIconLine line = false then some iconCount
      else if MAX_ICON_NUM < iconCount + 1 then none else some (iconCount + 1) := by
  generalize hentry : normalizeArchiveEntry (trimSpaces line) = entry
  have hok : entryOk line = (archiveEntryPathSafe (trimSpaces line) && passesEntry entry) := by
    rw [← hentry]
    rfl
  have hicon : isIconLine line =
      (iconEntryValid entry && entry ≠ appIcons && entry ≠ appIconsSlash) := by
    rw [← hentry]
    rfl
  simp only [validateLine, hentry]
  rw [hok, hicon, passesEntry]
  cases archiveEntryPathSafe (trimSpaces line) with
  | false => rfl
  | true =>
    by_cases hempty : entry = [] ∨ entry = [46]
    · rcases hempty with rfl | rfl <;> rfl
    by_cases hfeature : featureEntryValid entry = true
    · have : entry = ascii "feature.bin" := by simpa [featureEntryValid] using hfeature
      subst this
      rfl
    · have h1 : entry ≠ [] := fun h => hempty (.inl h)
      have h2 : entry ≠ [46] := fun h => hempty (.inr h)
      cases hvalid : iconEntryValid entry with
      | false => simp [h1, h2, hfeature]
      | true =>
        by_cases h3 : entry = appIcons
        · simp [h3]
        by_cases h4 : entry = appIconsSlash
        · simp [h4]
        · simp [h1, h2, hfeature, h3, h4]

/-- **The archive is accepted iff every line passes and at most 4096 of them are icons.** -/
theorem foldlM_validateLine : ∀ (lines : List (List UInt8)) {iconCount : Nat},
    iconCount ≤ MAX_ICON_NUM →
    ((lines.foldlM validateLine iconCount).isSome = true ↔
      (∀ line ∈ lines, entryOk line = true) ∧ iconCount + lines.countP isIconLine ≤ MAX_ICON_NUM)
  | [], iconCount, hcount => by
    refine iff_of_true rfl ⟨fun line hl => absurd hl List.not_mem_nil, ?_⟩
    rwa [List.countP_nil, Nat.add_zero]
  | line :: lines, iconCount, hcount => by
    rw [List.foldlM_cons, validateLine_eq, List.forall_mem_cons, List.countP_cons]
    by_cases hok : entryOk line = true
    swap
    · rw [if_pos (Bool.eq_false_iff.mpr hok)]
      exact iff_of_false (by simp) fun h => hok h.1.1
    rw [if_neg (by simp [hok])]
    by_cases hicon : isIconLine line = true
    · rw [if_neg (by simp [hicon]), if_pos hicon]
      by_cases hfull : MAX_ICON_NUM < iconCount + 1
      · rw [if_pos hfull]
        exact iff_of_false (by simp) fun h => by omega
      · rw [if_neg hfull]
        refine (foldlM_validateLine lines (by omega)).trans ?_
        simp only [hok, true_and]
        rw [show iconCount + 1 + lines.countP isIconLine = iconCount + (lines.countP isIconLine + 1) by
          omega]
    · rw [if_pos (Bool.eq_false_iff.mpr hicon), if_neg hicon]
      refine (foldlM_validateLine lines hcount).trans ?_
      simp only [hok, true_and, Nat.add_zero]

theorem validateArchive_isSome (names : List EntryName) : (validateArchive names).isSome = true ↔
    (∀ line ∈ archiveLines names, entryOk line = true) ∧
      (archiveLines names).countP isIconLine ≤ MAX_ICON_NUM := by
  rw [validateArchive, fgetsLines_archiveListing, foldlM_validateLine _ (Nat.zero_le _), Nat.zero_add]

/-! ## 8. Icons -/

/-- An icon file that passes is counted. -/
theorem isIconLine_of_isIconFile {line : List UInt8} (hok : entryOk line = true)
    (hicon : isIconFile (normalizeArchiveEntry (trimSpaces line)) = true) : isIconLine line = true := by
  have hpass := ((entryOk_iff line).mp hok).2
  rw [isIconLine]
  generalize normalizeArchiveEntry (trimSpaces line) = entry at hpass hicon
  obtain ⟨file, rfl, hall, hpng⟩ := isIconFile_iff.mp hicon
  have hlen : 4 ≤ file.length := hpng.length_le
  have hten : appIconsSlash.length = 10 := by decide
  have hne : ∀ other : List UInt8, other.length < 14 → appIconsSlash ++ file ≠ other := by
    rintro other hother rfl
    rw [List.length_append] at hother
    omega
  have h1 := hne [] (by decide)
  have h2 := hne [46] (by decide)
  have h3 := hne (ascii "feature.bin") (by decide)
  have h4 := hne appIcons (by decide)
  have h5 := hne appIconsSlash (by decide)
  simp only [passesEntry, featureEntryValid, h1, h2, h3, decide_false, Bool.false_or] at hpass
  simp only [hpass, ne_eq, h4, h5, not_false_eq_true, decide_true, Bool.and_true]

/-- **A name of an icon has a line that is counted.** -/
theorem exists_isIconLine (name : List UInt8) (h : ∀ piece ∈ namePieces name, entryOk piece = true)
    (hcuts : CutsOk name) (hicon : isIconFile (normalizeArchiveEntry (trimSpaces name)) = true) :
    ∃ piece ∈ namePieces name, isIconLine piece = true := by
  induction name using namePieces.induct with
  | case1 name hlen =>
    rw [namePieces, if_pos hlen] at h ⊢
    refine ⟨_, List.mem_singleton_self _, isIconLine_of_isIconFile (h _ (List.mem_singleton_self _)) ?_⟩
    rwa [trimSpaces_append_blanks name fun c hc => List.mem_singleton.mp hc ▸ rfl]
  | case2 name hlen ih =>
    rw [namePieces, if_neg hlen] at h ⊢
    rw [CutsOk, if_neg hlen] at hcuts
    obtain ⟨⟨⟨k, hk⟩, hblank⟩, hcuts⟩ := hcuts
    have hrest : ∀ piece ∈ namePieces (name.drop 511), entryOk piece = true :=
      fun piece hp => h piece (List.mem_cons_of_mem _ hp)
    have htrim := trimSpaces_of_cut (h _ List.mem_cons_self) (hrest _ (firstPiece_mem _)) hk hblank
    rw [List.take_append_drop] at htrim
    rw [htrim, normalize_dotSlashes] at hicon
    obtain ⟨piece, hpiece, hline⟩ := ih hrest hcuts hicon
    exact ⟨piece, List.mem_cons_of_mem _ hpiece, hline⟩

theorem countP_icons_le (names : List EntryName) (h : ∀ line ∈ archiveLines names, entryOk line = true)
    (hcuts : ∀ name ∈ names, CutsOk name.text.bytes) :
    names.countP (fun name => isIconFile (normalizeArchiveEntry (trimSpaces name.text.bytes))) ≤
      (archiveLines names).countP isIconLine := by
  induction names with
  | nil => exact Nat.le_refl _
  | cons name names ih =>
    rw [archiveLines, List.flatMap_cons, ← archiveLines] at h ⊢
    rw [List.countP_cons, List.countP_append, Nat.add_comm]
    refine Nat.add_le_add ?_ (ih (fun line hl => h line (List.mem_append_right _ hl))
      fun name' hn => hcuts name' (List.mem_cons_of_mem _ hn))
    split
    · rename_i hicon
      obtain ⟨piece, hpiece, hline⟩ := exists_isIconLine name.text.bytes
        (fun piece hp => h piece (List.mem_append_left _ hp)) (hcuts name List.mem_cons_self) hicon
      exact List.countP_pos_iff.mpr ⟨piece, hpiece, hline⟩
    · exact Nat.zero_le _

/-! ## 9. The archive -/

/-- **What is accepted is a right archive iff each name that passes is cut behind `./` prefixes only.** -/
theorem archive_check_iff (names : List EntryName) :
    ((validateArchive names).isSome = true → ArchiveOk names) ↔
      ((∀ name ∈ names, ∀ piece ∈ namePieces name.text.bytes, entryOk piece = true) →
        (names.flatMap fun name => namePieces name.text.bytes).countP isIconLine ≤ MAX_ICON_NUM →
        ∀ name ∈ names, CutsOk name.text.bytes) := by
  rw [validateArchive_isSome, and_imp]
  have hlines : (∀ line ∈ archiveLines names, entryOk line = true) ↔
      ∀ name ∈ names, ∀ piece ∈ namePieces name.text.bytes, entryOk piece = true := by
    simp only [archiveLines, List.forall_mem_flatMap]
  rw [hlines]
  refine forall_congr' fun hok => forall_congr' fun hcount => ?_
  have hwhole : (∀ name ∈ names, WholeOk name.text.bytes) ↔
      ∀ name ∈ names, CutsOk name.text.bytes :=
    forall₂_congr fun name hname => wholeOk_iff name.text.bytes (hok name hname)
  rw [ArchiveOk, hwhole]
  exact and_iff_left_of_imp fun hcuts =>
    (countP_icons_le names (hlines.mpr hok) hcuts).trans hcount

/-- A name that leaves the directory and is cut at a slash. -/
def climbingName : EntryName where
  text := CStr.ofBytes (dotSlashes 255 ++ ascii "../feature.bin")
  noLf := by decide +kernel

/-- Both lines pass, the name has a `..`. -/
theorem dotdot_passes_when_cut :
    ¬ ((validateArchive [climbingName]).isSome = true → ArchiveOk [climbingName]) := by
  intro h
  have hname := (h (by decide +kernel)).1 climbingName List.mem_cons_self
  exact hname.inside (by decide +kernel)

end Oaf
