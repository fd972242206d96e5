/-
# The file of custom applications

`config_write_file` prints one line for each application, and `config_read_file` reads the lines
back.  An accepted configuration comes back from its file, unless an application's name holds a
line feed: `has_forbidden_text_char` turns white space away in the fields of a feature, but not in
names, and `trim_space` looks at the ends of a name only.  Such a name breaks its line in two, the
first of which has no `:[`, and the whole file is unreadable from then on.

* `readLine_appText`, `readLine_broken`: one line, with and without a line feed in the name.
* `readLines_apps`, `readLines_broken`: all the lines of a file, by induction on what is left.
* `custom_file_round_trip`: **exactly which requests survive their file.**
-/
import Oaf.Custom.Request

namespace Oaf

open CLib

/-! ## 1. Lines in a file -/

/-- `fgets` reads a short line whole. -/
theorem fgetsAll_line : ∀ (w cur rest : List UInt8), (10 : UInt8) ∉ w → cur.length + w.length < 1023 →
    fgetsAll cur (w ++ 10 :: rest) = (cur ++ w ++ [10], false) :: fgetsAll [] rest
  | [], cur, rest, _, _ => by simp [fgetsAll]
  | c :: w, cur, rest, h, hlen => by
    rw [List.mem_cons, not_or] at h
    rw [List.length_cons] at hlen
    have ih := fgetsAll_line w (cur ++ [c]) rest h.2 (by simp; omega)
    rw [List.cons_append, fgetsAll, if_neg (Ne.symm h.1), if_neg (by omega), ih]
    simp

/-- A line without a NUL, once its line feed is cut off. -/
theorem readLine_line {classes : ClassNameTable} {config : CustomConfig} {n : Nat}
    {w : List UInt8} (h : (0 : UInt8) ∉ w) :
    readLine classes config n (w ++ [10], false) =
      if w.rdropWhile (fun c => c == 10 || c == 13) = [] then .ok config
      else if (w.rdropWhile (fun c => c == 10 || c == 13)).take 7 = ascii "#class " then .ok config
      else parseAppLine classes config (w.rdropWhile (fun c => c == 10 || c == 13)) := by
  have hbytes : (CStr.ofBytes (w ++ [10])).bytes = w ++ [10] :=
    CStr.ofBytes_of_noNul (by simpa using h)
  have hcut : (w ++ [10]).rdropWhile (fun c => c == 10 || c == 13) =
      w.rdropWhile (fun c => c == 10 || c == 13) := List.rdropWhile_concat_pos _ _ _ (by decide)
  unfold readLine
  simp [hbytes, hcut]

/-! ## 2. The line of an application -/

/-- Only the name can break the line. -/
theorem newline_not_mem_appText {classes : ClassNameTable} {app : CustomApp}
    (hv : app.Valid classes) (hname : (10 : UInt8) ∉ app.name.bytes) : (10 : UInt8) ∉ appText app := by
  intro h
  rcases mem_appText hv h with h | ⟨f, hf, h | h⟩ | h | h
  · exact hname h
  · exact absurd (not_isspace_of_allowed (hv.features f hf).domain h) (by decide)
  · exact absurd (not_isspace_of_allowed (hv.features f hf).uri h) (by decide)
  · exact absurd h (by decide)
  · exact absurd h (by decide)

/-- A text that starts with an id is not empty and no `#class` line. -/
theorem id_line_ne {classes : ClassNameTable} {app : CustomApp} (hv : app.Valid classes)
    (l : List UInt8) : printInt app.appid ++ l ≠ [] ∧
      (printInt app.appid ++ l).take 7 ≠ ascii "#class " := by
  obtain ⟨c, d, hd, hc⟩ := printInt_cons hv
  rw [hd]
  refine ⟨by simp, ?_⟩
  intro h
  simp [ascii] at h
  rw [h.1] at hc
  exact absurd hc (by decide)

/-- **A line without a line feed in its name** is parsed as it was printed. -/
theorem readLine_appText {classes : ClassNameTable} {config : CustomConfig} {app : CustomApp}
    (n : Nat) (hv : app.Valid classes) :
    readLine classes config n (appText app ++ [10], false) =
      parseAppLine classes config (appText app) := by
  have hend : (appText app).rdropWhile (fun c => c == 10 || c == 13) = appText app := by
    unfold appText
    rw [← List.append_assoc]
    exact List.rdropWhile_concat_neg _ _ _ (by decide)
  have hhead : appText app = printInt app.appid ++ (126 :: (app.name.bytes ++ ascii ":[") ++
      ([44].intercalate (app.features.map featureText) ++ [93])) := by
    simp [appText, appHead]
  obtain ⟨hne, hclass⟩ := id_line_ne hv (126 :: (app.name.bytes ++ ascii ":[") ++
    ([44].intercalate (app.features.map featureText) ++ [93]))
  rw [readLine_line (noNul_appText hv), hend]
  rw [← hhead] at hne hclass
  rw [if_neg hne, if_neg hclass]

/-- **The first half of a broken line** has no `:[`. -/
theorem readLine_broken {classes : ClassNameTable} {config : CustomConfig} {app : CustomApp}
    {before after : List UInt8} (n : Nat) (hv : app.Valid classes)
    (hname : app.name.bytes = before ++ 10 :: after) :
    ∃ e, readLine classes config n (printInt app.appid ++ 126 :: before ++ [10], false) =
      .error e := by
  have hsub : ∀ c ∈ before, c ∈ app.name.bytes := by
    intro c hc
    simp [hname, hc]
  have hnul : (0 : UInt8) ∉ printInt app.appid ++ 126 :: before := by
    rw [List.mem_append, List.mem_cons, not_or, not_or]
    exact ⟨not_mem_printInt (by decide) (by decide), by decide,
      fun h => app.name.noNul (hsub 0 h)⟩
  have hcolon : (58 : UInt8) ∉ printInt app.appid ++ 126 :: before := by
    rw [List.mem_append, List.mem_cons, not_or, not_or]
    exact ⟨not_mem_printInt (by decide) (by decide), by decide,
      fun h => not_mem_of_allowed hv.name (by decide) (hsub 58 h)⟩
  -- what is left of the line still starts with the id
  have hrest := rdropWhile_append_cons (p := fun c => c == 10 || c == 13) (c := 126) (by decide)
    (printInt app.appid) before
  generalize before.rdropWhile (fun c => c == 10 || c == 13) = rest at hrest
  have hsub' : ∀ c ∈ printInt app.appid ++ 126 :: rest, c ∈ printInt app.appid ++ 126 :: before := by
    rw [← hrest]
    exact fun c hc => (List.rdropWhile_prefix _ _).subset hc
  obtain ⟨hne, hclass⟩ := id_line_ne hv (126 :: rest)
  have hnone : strstrSplit (ascii ":[") (printInt app.appid ++ 126 :: rest) = none :=
    strstrSplit_pair_eq_none (fun h => hcolon (hsub' 58 h))
  refine ⟨"custom feature line is invalid", ?_⟩
  rw [readLine_line hnul, hrest, if_neg hne, if_neg hclass, parseAppLine, hnone]

/-! ## 3. All the lines -/

/-- The bytes of the file. -/
def fileText (config : CustomConfig) : List UInt8 := config.flatMap (fun app => appText app ++ [10])

theorem fileText_cons (app : CustomApp) (rest : CustomConfig) :
    fileText (app :: rest) = appText app ++ 10 :: fileText rest := by
  simp [fileText]

/-- The applications may stand behind those that were read. -/
structure MayFollow (classes : ClassNameTable) (read rest : CustomConfig) : Prop where
  valid : ∀ app ∈ rest, app.Valid classes
  fits : ∀ app ∈ rest, app.Fits
  names : ((read ++ rest).map (·.name)).Nodup
  appids : ((read ++ rest).map (·.appid)).Nodup
  count : (read ++ rest).length ≤ MAX_SUPPORT_APP_NUM

theorem MayFollow.new {classes : ClassNameTable} {read rest : CustomConfig} {app : CustomApp}
    (h : MayFollow classes read (app :: rest)) :
    ∀ other ∈ read, other.name ≠ app.name ∧ other.appid ≠ app.appid := by
  intro other ho
  have h1 := h.names
  have h2 := h.appids
  simp only [List.map_append, List.map_cons, List.nodup_append] at h1 h2
  exact ⟨h1.2.2 _ (List.mem_map_of_mem ho) _ (List.mem_cons_self ..),
    h2.2.2 _ (List.mem_map_of_mem ho) _ (List.mem_cons_self ..)⟩

theorem MayFollow.step {classes : ClassNameTable} {read rest : CustomConfig} {app : CustomApp}
    (h : MayFollow classes read (app :: rest)) : MayFollow classes (read ++ [app]) rest := by
  have happ : read ++ [app] ++ rest = read ++ app :: rest := by simp
  exact ⟨fun x hx => h.valid x (List.mem_cons_of_mem _ hx),
    fun x hx => h.fits x (List.mem_cons_of_mem _ hx), happ ▸ h.names, happ ▸ h.appids,
    happ ▸ h.count⟩

/-- One application more is read. -/
theorem readLine_next {classes : ClassNameTable} {read rest : CustomConfig} {app : CustomApp}
    (n : Nat) (h : MayFollow classes read (app :: rest)) :
    readLine classes read n (appText app ++ [10], false) = .ok (read ++ [app]) := by
  have hcount := h.count
  rw [List.length_append, List.length_cons] at hcount
  rw [readLine_appText n (h.valid app (List.mem_cons_self ..))]
  exact parseAppLine_appText (h.valid app (List.mem_cons_self ..))
    (h.fits app (List.mem_cons_self ..)) (by omega) h.new

/-- **Without a line feed in a name** every application comes back. -/
theorem readLines_apps {classes : ClassNameTable} : ∀ (rest read : CustomConfig) (n : Nat),
    MayFollow classes read rest → (∀ app ∈ rest, (10 : UInt8) ∉ app.name.bytes) →
    readLines classes read n (fgetsAll [] (fileText rest)) = .ok (read ++ rest)
  | [], read, n, _, _ => by simp [fileText, fgetsAll, readLines]
  | app :: rest, read, n, h, hname => by
    have hline := (h.fits app (List.mem_cons_self ..)).line
    rw [CUSTOM_MAX_APP_LINE] at hline
    have hnew : (10 : UInt8) ∉ appText app :=
      newline_not_mem_appText (h.valid app (List.mem_cons_self ..)) (hname app (List.mem_cons_self ..))
    rw [fileText_cons, fgetsAll_line _ [] _ hnew (by simp; omega), List.nil_append, readLines,
      readLine_next (n + 1) h]
    have ih := readLines_apps rest (read ++ [app]) (n + 1) h.step
      (fun x hx => hname x (List.mem_cons_of_mem _ hx))
    simpa using ih

/-- **With one** the file is not readable. -/
theorem readLines_broken {classes : ClassNameTable} : ∀ (rest read : CustomConfig) (n : Nat),
    MayFollow classes read rest → (∃ app ∈ rest, (10 : UInt8) ∈ app.name.bytes) →
    ∃ e, readLines classes read n (fgetsAll [] (fileText rest)) = .error e
  | [], read, n, _, h => by simp at h
  | app :: rest, read, n, h, hbroken => by
    have hv := h.valid app (List.mem_cons_self ..)
    have hline := (h.fits app (List.mem_cons_self ..)).line
    rw [CUSTOM_MAX_APP_LINE] at hline
    by_cases hname : (10 : UInt8) ∈ app.name.bytes
    · obtain ⟨before, after, hcut, hbefore⟩ := List.eq_append_cons_of_mem hname
      have htext : appText app = printInt app.appid ++ 126 :: before ++ 10 :: (after ++
          (ascii ":[" ++ ([44].intercalate (app.features.map featureText) ++ [93]))) := by
        simp [appText, appHead, hcut]
      have hno : (10 : UInt8) ∉ printInt app.appid ++ 126 :: before := by
        rw [List.mem_append, List.mem_cons, not_or, not_or]
        exact ⟨not_mem_printInt (by decide) (by decide), by decide, hbefore⟩
      have hshort : (printInt app.appid ++ 126 :: before).length < 1023 := by
        rw [htext, List.length_append] at hline
        omega
      obtain ⟨e, he⟩ : ∃ e, readLine classes read (n + 1)
          (printInt app.appid ++ 126 :: before ++ [10], false) = .error e :=
        readLine_broken (n + 1) hv hcut
      refine ⟨e, ?_⟩
      rw [fileText_cons, htext, List.append_assoc, List.cons_append,
        fgetsAll_line _ [] _ hno (by simpa using hshort), List.nil_append, readLines, he]
    · have hnew := newline_not_mem_appText hv hname
      have hlater : ∃ x ∈ rest, (10 : UInt8) ∈ x.name.bytes := by
        obtain ⟨x, hx, hx10⟩ := hbroken
        rcases List.mem_cons.mp hx with rfl | hx
        · exact absurd hx10 hname
        · exact ⟨x, hx, hx10⟩
      rw [fileText_cons, fgetsAll_line _ [] _ hnew (by simp; omega), List.nil_append, readLines,
        readLine_next (n + 1) h]
      exact readLines_broken rest (read ++ [app]) (n + 1) h.step hlater

/-! ## 4. The file -/

theorem mapM_appToLine : ∀ {config : CustomConfig}, (∀ app ∈ config, app.Fits) →
    config.mapM appToLine = some (config.map appText)
  | [], _ => rfl
  | app :: rest, h => by
    have hrest := mapM_appToLine (fun x hx => h x (List.mem_cons_of_mem app hx))
    have happ := appToLine_eq_some.mpr ⟨h app (List.mem_cons_self ..), rfl⟩
    simp [happ, hrest]

/-- **The file of an accepted configuration.** -/
theorem configWriteFile_ok {classes : ClassNameTable} {baseAppCount : Nat} {config : CustomConfig}
    (h : config.Accepted classes baseAppCount) : configWriteFile config = .ok (fileText config) := by
  unfold configWriteFile
  rw [mapM_appToLine h.fits]
  simp [fileText, List.flatMap_map]

theorem CustomConfig.Accepted.mayFollow {classes : ClassNameTable} {baseAppCount : Nat}
    {config : CustomConfig} (h : config.Accepted classes baseAppCount) :
    MayFollow classes [] config :=
  ⟨h.valid, h.fits, h.names, h.appids, by have := h.capacity; simp; omega⟩

/-- An accepted configuration comes back from its file, or nothing does. -/
theorem configReadFile_fileText {classes : ClassNameTable} {baseAppCount : Nat}
    {config : CustomConfig} (h : config.Accepted classes baseAppCount) :
    ((∀ app ∈ config, (10 : UInt8) ∉ app.name.bytes) →
      configReadFile classes baseAppCount (some (fileText config)) = .ok config) ∧
    ((∃ app ∈ config, (10 : UInt8) ∈ app.name.bytes) →
      ∃ e, configReadFile classes baseAppCount (some (fileText config)) = .error e) := by
  constructor
  · intro hname
    have hread := readLines_apps config [] 0 h.mayFollow hname
    have hcap : ¬ MAX_SUPPORT_APP_NUM < baseAppCount + config.length := by
      have := h.capacity
      omega
    simp only [configReadFile, hread, List.nil_append, if_neg hcap, h.sorted]
  · intro hname
    obtain ⟨e, he⟩ := readLines_broken config [] 0 h.mayFollow hname
    exact ⟨e, by simp only [configReadFile, he]⟩

/-- **A saved request is read back, name by name, feature by feature**, exactly when no name holds a
line feed between its first and its last visible byte. -/
theorem custom_file_round_trip {classes : ClassNameTable} {baseAppCount : Nat}
    {request : JsonObject} {config : CustomConfig}
    (h : configFromJson classes baseAppCount request = .ok config) :
    (∃ file, configWriteFile config = .ok file ∧
      configReadFile classes baseAppCount (some file) = .ok config) ↔
    ∀ name ∈ requestNames request, (10 : UInt8) ∉ name.bytes := by
  obtain ⟨hacc, hperm⟩ := configFromJson_accepted h
  obtain ⟨hgood, hbad⟩ := configReadFile_fileText hacc
  have hwrite := configWriteFile_ok hacc
  have hnames : (∀ name ∈ requestNames request, (10 : UInt8) ∉ name.bytes) ↔
      ∀ app ∈ config, (10 : UInt8) ∉ app.name.bytes := by
    constructor
    · exact fun hall app happ => hall _ (hperm.mem_iff.mp (List.mem_map_of_mem happ))
    · intro hall name hname
      obtain ⟨app, happ, rfl⟩ := List.mem_map.mp (hperm.mem_iff.mpr hname)
      exact hall app happ
  rw [hnames]
  constructor
  · rintro ⟨file, hfile, hread⟩ app happ hnl
    rw [hwrite] at hfile
    cases hfile
    obtain ⟨e, he⟩ := hbad ⟨app, happ, hnl⟩
    rw [he] at hread
    cases hread
  · exact fun hall => ⟨_, hwrite, hgood hall⟩

/-- A request with one application, whose feature names a port. -/
def portRequest (name : List UInt8) : JsonObject :=
  .object [(ascii "app_list", .array [.object [
    (ascii "class_id", .int 1),
    (ascii "name", .string name),
    (ascii "features", .array [.object [
      (ascii "protocol", .string (ascii "TCP")),
      (ascii "dest_port", .string (ascii "080-90"))]])]])]

/-- The configuration it becomes. -/
def portConfig (name : CStr) : CustomConfig :=
  [{ appid := 1900, classId := 1, name := name,
     features := [{ protocol := .lit "tcp", destPort := .lit "80-90" }] }]

/-- An ordinary name. -/
theorem custom_file_round_trip_chat :
    (∃ file, configWriteFile (portConfig (.lit "my chat")) = .ok file ∧
      configReadFile (fun _ => .empty) 0 (some file) = .ok (portConfig (.lit "my chat"))) ↔
    ∀ name ∈ requestNames (portRequest (ascii " my chat ")), (10 : UInt8) ∉ name.bytes :=
  custom_file_round_trip (show configFromJson (fun _ => .empty) 0 (portRequest (ascii " my chat ")) =
    .ok (portConfig (.lit "my chat")) from rfl)

/-- A line feed inside the name. -/
theorem custom_file_unreadable :
    ¬ ∀ (classes : ClassNameTable) (baseAppCount : Nat) (request : JsonObject)
      (config : CustomConfig), configFromJson classes baseAppCount request = .ok config →
      ∃ file, configWriteFile config = .ok file ∧
        configReadFile classes baseAppCount (some file) = .ok config := by
  intro hall
  obtain ⟨file, hwrite, hread⟩ := hall (fun _ => .empty) 0 (portRequest (ascii "my\nchat"))
    (portConfig (.lit "my\nchat")) rfl
  have hfile : configWriteFile (portConfig (.lit "my\nchat")) =
      .ok (ascii "1900~my\nchat:[tcp;;80-90;;;]\n") := rfl
  rw [hfile] at hwrite
  cases hwrite
  have herror : configReadFile (fun _ => .empty) 0
      (some (ascii "1900~my\nchat:[tcp;;80-90;;;]\n")) =
      .error "custom feature line is invalid" := rfl
  rw [herror] at hread
  cases hread

end Oaf
