/-
# UCI packages

A package is a list of sections, and a section a type and options.  What a reader sees is the committed file
with the recorded deltas applied; `uci_set`, `uci_delete` and `uci_add_list`, each with its `uci_save`, change
the deltas, and `uci_commit` makes them permanent.

libuci itself is a parameter: `Libuci` is what it makes of one option.  Everything here holds whatever that is.

* `runEdits_of_not_mem`: edits leave alone what they do not name.
* `runEdits_groups`: edits in groups, one for each option.
* `runEdits_eq_self_iff`: edits of different options change nothing exactly if none of them does.
* `ofType_modifyNth`, `modifyNth_eq_self_iff`: the same for `@type[index]` in a package.
* `ofType_deleteNth`, `UciStore.ofType_addSection`: sections that go and come.
-/
import Mathlib.Logic.Function.Basic
import Mathlib.Data.List.Basic

namespace Oaf

/-- The value of an option. -/
inductive UciValue where
  | string (text : List UInt8)
  | list (items : List (List UInt8))
deriving DecidableEq

/-- The options of a section, by name. -/
abbrev UciOptions := List UInt8 → Option UciValue

structure UciSection where
  type : List UInt8
  options : UciOptions

abbrev UciPackage := List UciSection

/-- What libuci makes of an option: an empty or unprintable text, a string where a list is asked for, and
whatever else it looks at are its own matter. -/
structure Libuci where
  set : Option UciValue → List UInt8 → Option UciValue
  add : Option UciValue → List UInt8 → Option UciValue

/-! ## 1. Edits of one section -/

/-- A change of one option. -/
inductive UciEdit where
  | set (name text : List UInt8)
  | delete (name : List UInt8)
  | add (name text : List UInt8)

def UciEdit.name : UciEdit → List UInt8
  | .set name _ => name
  | .delete name => name
  | .add name _ => name

/-- The option behind the edit. -/
def UciEdit.value (uci : Libuci) : UciEdit → Option UciValue → Option UciValue
  | .set _ text, value => uci.set value text
  | .delete _, _ => none
  | .add _ text, value => uci.add value text

def UciEdit.run (uci : Libuci) (edit : UciEdit) (options : UciOptions) : UciOptions :=
  Function.update options edit.name (edit.value uci (options edit.name))

/-- One edit after the other. -/
def runEdits (uci : Libuci) (edits : List UciEdit) (options : UciOptions) : UciOptions :=
  edits.foldl (fun options edit => edit.run uci options) options

variable {uci : Libuci}

theorem runEdits_append (edits edits' : List UciEdit) (options : UciOptions) :
    runEdits uci (edits ++ edits') options = runEdits uci edits' (runEdits uci edits options) := by
  simp only [runEdits, List.foldl_append]

/-- An option that no edit names stays. -/
theorem runEdits_of_not_mem : ∀ {edits : List UciEdit} {name : List UInt8},
    name ∉ edits.map UciEdit.name → ∀ options : UciOptions, runEdits uci edits options name = options name
  | [], _, _, _ => rfl
  | edit :: edits, name, h, options => by
    rw [List.map_cons, List.mem_cons, not_or] at h
    have hrest := runEdits_of_not_mem h.2 (edit.run uci options)
    rw [runEdits, List.foldl_cons]
    exact hrest.trans (Function.update_of_ne h.1 _ _)

/-- An option that one edit names is what this edit makes of it. -/
theorem runEdits_of_mem : ∀ {edits : List UciEdit}, (edits.map UciEdit.name).Nodup →
    ∀ edit ∈ edits, ∀ options : UciOptions,
      runEdits uci edits options edit.name = edit.value uci (options edit.name)
  | [], _, _, hedit, _ => absurd hedit List.not_mem_nil
  | first :: edits, h, edit, hedit, options => by
    obtain ⟨hfirst, hnodup⟩ := List.nodup_cons.mp h
    rw [runEdits, List.foldl_cons]
    rcases List.mem_cons.mp hedit with rfl | hrest
    · exact (runEdits_of_not_mem hfirst _).trans (Function.update_self ..)
    · have hne : edit.name ≠ first.name := fun hname =>
        hfirst (hname ▸ List.mem_map_of_mem hrest)
      refine (runEdits_of_mem hnodup edit hrest _).trans ?_
      rw [UciEdit.run, Function.update_of_ne hne]

/-- An option that is deleted and not written again is gone. -/
theorem runEdits_delete (before : List UciEdit) {after : List UciEdit} {name : List UInt8}
    (h : name ∉ after.map UciEdit.name) (options : UciOptions) :
    runEdits uci (before ++ .delete name :: after) options name = none := by
  rw [runEdits_append, runEdits, List.foldl_cons]
  exact (runEdits_of_not_mem h _).trans (Function.update_self ..)

/-- What becomes of an option is a matter of the edits that name it. -/
theorem runEdits_eq_foldl (edits : List UciEdit) (name : List UInt8) (options : UciOptions) :
    runEdits uci edits options name =
      (edits.filter (·.name = name)).foldl (fun value edit => edit.value uci value) (options name) := by
  induction edits generalizing options with
  | nil => rfl
  | cons edit edits ih =>
    rw [runEdits, List.foldl_cons, ← runEdits, ih]
    by_cases hname : edit.name = name
    · subst hname
      rw [List.filter_cons_of_pos (by simp), List.foldl_cons, UciEdit.run, Function.update_self]
    · rw [List.filter_cons_of_neg (by simpa using hname), UciEdit.run, Function.update_of_ne (Ne.symm hname)]

/-- Edits in groups, one for each option: an option is what its group makes of it. -/
theorem runEdits_groups {groups : List (List UInt8 × List UciEdit)} (hnames : (groups.map Prod.fst).Nodup)
    (hgroups : ∀ group ∈ groups, ∀ edit ∈ group.2, edit.name = group.1) {name : List UInt8}
    {edits : List UciEdit} (hmem : (name, edits) ∈ groups) (options : UciOptions) :
    runEdits uci (groups.flatMap Prod.snd) options name =
      edits.foldl (fun value edit => edit.value uci value) (options name) := by
  have hkept : ∀ group ∈ groups, group.2.filter (·.name = name) = if group.1 = name then group.2 else [] := by
    intro group hgroup
    split
    · rename_i hname
      refine List.filter_eq_self.mpr fun edit hedit => ?_
      simp [hgroups group hgroup edit hedit, hname]
    · rename_i hname
      refine List.filter_eq_nil_iff.mpr fun edit hedit => ?_
      simpa [hgroups group hgroup edit hedit] using hname
  rw [runEdits_eq_foldl]
  congr 1
  clear hgroups
  induction groups with
  | nil => exact absurd hmem List.not_mem_nil
  | cons group groups ih =>
    obtain ⟨hfirst, hnodup⟩ := List.nodup_cons.mp hnames
    obtain ⟨hkeep, hrest⟩ := List.forall_mem_cons.mp hkept
    rw [List.flatMap_cons, List.filter_append, hkeep]
    rcases List.mem_cons.mp hmem with rfl | hmem
    · have hother : (groups.flatMap Prod.snd).filter (·.name = name) = [] := by
        rw [List.filter_flatMap]
        refine List.flatMap_eq_nil_iff.mpr fun other hother => ?_
        rw [hrest other hother, if_neg]
        exact fun hname => hfirst (List.mem_map.mpr ⟨other, hother, hname⟩)
      rw [if_pos rfl, hother, List.append_nil]
    · have hne : group.1 ≠ name := fun hname => hfirst (hname ▸ List.mem_map_of_mem hmem)
      rw [if_neg hne, List.nil_append, ih hnodup hmem hrest]

/-- **Edits that change nothing**: each leaves its option as it is. -/
theorem runEdits_eq_self_iff {edits : List UciEdit} (h : (edits.map UciEdit.name).Nodup)
    (options : UciOptions) :
    runEdits uci edits options = options ↔
      ∀ edit ∈ edits, edit.value uci (options edit.name) = options edit.name := by
  constructor
  · intro heq edit hedit
    rw [← runEdits_of_mem h edit hedit options, heq]
  · intro hself
    funext name
    by_cases hname : name ∈ edits.map UciEdit.name
    · obtain ⟨edit, hedit, rfl⟩ := List.mem_map.mp hname
      rw [runEdits_of_mem h edit hedit, hself edit hedit]
    · exact runEdits_of_not_mem hname options

/-! ## 2. Sections of a type -/

/-- The sections of a type: `@type[0]`, `@type[1]` and so on. -/
def UciPackage.ofType (pkg : UciPackage) (type : List UInt8) : List UciSection :=
  pkg.filter (·.type = type)

/-- The sections of other types. -/
def UciPackage.otherTypes (pkg : UciPackage) (type : List UInt8) : List UciSection :=
  pkg.filter (·.type ≠ type)

/-- A change of `@type[index]`. -/
def modifyNth (type : List UInt8) (f : UciOptions → UciOptions) : Nat → UciPackage → UciPackage
  | _, [] => []
  | index, s :: pkg =>
    if s.type = type then
      match index with
      | 0 => { s with options := f s.options } :: pkg
      | index + 1 => s :: modifyNth type f index pkg
    else s :: modifyNth type f index pkg

/-- `@type[index]` deleted. -/
def deleteNth (type : List UInt8) : Nat → UciPackage → UciPackage
  | _, [] => []
  | index, s :: pkg =>
    if s.type = type then
      match index with
      | 0 => pkg
      | index + 1 => s :: deleteNth type index pkg
    else s :: deleteNth type index pkg

variable {type : List UInt8} {f g : UciOptions → UciOptions}

theorem ofType_modifyNth : ∀ (index : Nat) (pkg : UciPackage),
    (modifyNth type f index pkg).ofType type =
      (pkg.ofType type).modify index (fun s => { s with options := f s.options })
  | _, [] => by simp [modifyNth, UciPackage.ofType]
  | index, s :: pkg => by
    unfold modifyNth
    by_cases hs : s.type = type
    · cases index with
      | zero => simp [UciPackage.ofType, hs]
      | succ index =>
        have hrest := ofType_modifyNth index pkg
        simp only [UciPackage.ofType] at hrest ⊢
        simp [hs, hrest]
    · have hrest := ofType_modifyNth index pkg
      simp only [UciPackage.ofType] at hrest ⊢
      simp [hs, hrest]

theorem otherTypes_modifyNth : ∀ (index : Nat) (pkg : UciPackage),
    (modifyNth type f index pkg).otherTypes type = pkg.otherTypes type
  | _, [] => rfl
  | index, s :: pkg => by
    unfold modifyNth
    by_cases hs : s.type = type
    · cases index with
      | zero => simp [UciPackage.otherTypes, hs]
      | succ index =>
        have hrest := otherTypes_modifyNth index pkg
        simp only [UciPackage.otherTypes, ne_eq, decide_not] at hrest ⊢
        simp [hs, hrest]
    · have hrest := otherTypes_modifyNth index pkg
      simp only [UciPackage.otherTypes, ne_eq, decide_not] at hrest ⊢
      simp [hs, hrest]

/-- Of the sections of a type, the deleted one is gone and the others keep their order. -/
theorem ofType_deleteNth : ∀ (index : Nat) (pkg : UciPackage),
    UciPackage.ofType (deleteNth type index pkg) type = (pkg.ofType type).eraseIdx index
  | _, [] => by simp [deleteNth, UciPackage.ofType]
  | index, s :: pkg => by
    unfold deleteNth
    by_cases hs : s.type = type
    · cases index with
      | zero => simp [UciPackage.ofType, hs]
      | succ index =>
        have hrest := ofType_deleteNth index pkg
        simp only [UciPackage.ofType] at hrest ⊢
        simp [hs, hrest]
    · have hrest := ofType_deleteNth index pkg
      simp only [UciPackage.ofType] at hrest ⊢
      simp [hs, hrest]

theorem otherTypes_deleteNth : ∀ (index : Nat) (pkg : UciPackage),
    UciPackage.otherTypes (deleteNth type index pkg) type = pkg.otherTypes type
  | _, [] => rfl
  | index, s :: pkg => by
    unfold deleteNth
    by_cases hs : s.type = type
    · cases index with
      | zero => simp [UciPackage.otherTypes, hs]
      | succ index =>
        have hrest := otherTypes_deleteNth index pkg
        simp only [UciPackage.otherTypes, ne_eq, decide_not] at hrest ⊢
        simp [hs, hrest]
    · have hrest := otherTypes_deleteNth index pkg
      simp only [UciPackage.otherTypes, ne_eq, decide_not] at hrest ⊢
      simp [hs, hrest]

/-- Two changes of one section are one. -/
theorem modifyNth_modifyNth : ∀ (index : Nat) (pkg : UciPackage),
    modifyNth type g index (modifyNth type f index pkg) = modifyNth type (g ∘ f) index pkg
  | _, [] => rfl
  | index, s :: pkg => by
    by_cases hs : s.type = type
    · cases index with
      | zero => simp [modifyNth, hs]
      | succ index => simp [modifyNth, hs, modifyNth_modifyNth index pkg]
    · simp [modifyNth, hs, modifyNth_modifyNth index pkg]

/-- A package stays exactly if the options of `@type[index]` do. -/
theorem modifyNth_eq_self_iff : ∀ (index : Nat) (pkg : UciPackage),
    modifyNth type f index pkg = pkg ↔
      ∀ s, (pkg.ofType type)[index]? = some s → f s.options = s.options
  | _, [] => by simp [modifyNth, UciPackage.ofType]
  | index, s :: pkg => by
    by_cases hs : s.type = type
    · cases index with
      | zero =>
        cases s
        simp_all [modifyNth, UciPackage.ofType]
      | succ index =>
        have hrest := modifyNth_eq_self_iff index pkg
        simp only [UciPackage.ofType] at hrest ⊢
        simp [modifyNth, hs, hrest]
    · have hrest := modifyNth_eq_self_iff index pkg
      simp only [UciPackage.ofType] at hrest ⊢
      simp [modifyNth, hs, hrest]

/-- All that a package holds, apart from some options of `@type[index]`, is as before. -/
structure KeepsRest (type : List UInt8) (index : Nat) (given : List UInt8 → Prop)
    (pkg pkg' : UciPackage) : Prop where
  options : ∀ s s', (pkg.ofType type)[index]? = some s → (pkg'.ofType type)[index]? = some s' →
    ∀ name, ¬ given name → s'.options name = s.options name
  count : (pkg'.ofType type).length = (pkg.ofType type).length
  siblings : ∀ j, j ≠ index → (pkg'.ofType type)[j]? = (pkg.ofType type)[j]?
  others : pkg'.otherTypes type = pkg.otherTypes type

/-- A change of one section keeps the rest exactly if it keeps the other options of this section. -/
theorem keepsRest_modifyNth_iff {given : List UInt8 → Prop} {index : Nat} {pkg : UciPackage}
    {s : UciSection} (hs : (pkg.ofType type)[index]? = some s) :
    KeepsRest type index given pkg (modifyNth type f index pkg) ↔
      ∀ name, ¬ given name → f s.options name = s.options name := by
  have hchanged : ((modifyNth type f index pkg).ofType type)[index]? =
      some { s with options := f s.options } := by
    rw [ofType_modifyNth, List.getElem?_modify_eq, hs]
    rfl
  refine ⟨fun h => h.options s _ hs hchanged, fun h => ⟨?_, ?_, ?_, otherTypes_modifyNth index pkg⟩⟩
  · intro s1 s2 hs1 hs2
    obtain rfl := Option.some.inj (hs.symm.trans hs1)
    obtain rfl := Option.some.inj (hchanged.symm.trans hs2)
    exact h
  · rw [ofType_modifyNth, List.length_modify]
  · intro j hj
    rw [ofType_modifyNth, List.getElem?_modify_ne _ _ (Ne.symm hj)]

/-! ## 3. The deltas -/

/-- A package as it is committed, and as every `uci_load` shows it. -/
structure UciStore where
  committed : UciPackage
  visible : UciPackage

/-- Edits of `@type[index]`, each of them saved. -/
def UciStore.edit (store : UciStore) (uci : Libuci) (type : List UInt8) (index : Nat)
    (edits : List UciEdit) : UciStore :=
  { store with visible := modifyNth type (runEdits uci edits) index store.visible }

def UciStore.commit (store : UciStore) : UciStore := ⟨store.visible, store.visible⟩

/-- `uci_add_section`, saved: it becomes the last of its type. -/
def UciStore.addSection (store : UciStore) (type : List UInt8) : UciStore :=
  { store with visible := store.visible ++ [⟨type, fun _ => none⟩] }

/-- `uci_delete` of a section, saved. -/
def UciStore.deleteSection (store : UciStore) (type : List UInt8) (index : Nat) : UciStore :=
  { store with visible := deleteNth type index store.visible }

@[simp] theorem UciStore.visible_edit (store : UciStore) (index : Nat) (edits : List UciEdit) :
    (store.edit uci type index edits).visible =
      modifyNth type (runEdits uci edits) index store.visible := rfl

@[simp] theorem UciStore.visible_commit (store : UciStore) : store.commit.visible = store.visible := rfl

@[simp] theorem UciStore.visible_deleteSection (store : UciStore) (index : Nat) :
    (store.deleteSection type index).visible = deleteNth type index store.visible := rfl

/-- An added section is the last of its type. -/
theorem UciStore.ofType_addSection (store : UciStore) :
    (store.addSection type).visible.ofType type =
      store.visible.ofType type ++ [⟨type, fun _ => none⟩] := by
  simp [UciStore.addSection, UciPackage.ofType]

/-- Edits after edits are saved like all of them at once. -/
theorem UciStore.edit_edit (store : UciStore) (index : Nat) (edits edits' : List UciEdit) :
    (store.edit uci type index edits).edit uci type index edits' =
      store.edit uci type index (edits ++ edits') := by
  simp only [UciStore.edit, modifyNth_modifyNth]
  congr 2
  funext options
  exact (runEdits_append edits edits' options).symm

/-- `fwx_uci_get_value`: the text of an option, cut to the buffer. -/
def UciSection.getValue (s : UciSection) (name : List UInt8) (outLen : Nat) : Option (List UInt8) :=
  match s.options name with
  | some (.string text) => some (text.take (outLen - 1))
  | _ => none

end Oaf
