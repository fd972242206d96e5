/-
# Character arrays, and what overruns them

`CArray n` is a C `char a[n]`.  `strncpy`, `strcpy`, `memcpy` and a store at an index are total
functions that either give the array afterwards or report the overrun, with a tag the caller
chooses for the array.

* `strncpy_eq_ok`, `strcpy_eq_ok`: when a copy stays inside, and what it leaves.
* `Holds.read`, `Holds.read_full`: reading the string back.  An array without a terminator reads
  on into the memory behind it, which is an argument (`beyond`) because the array does not
  determine it.
* `tokens`: the loop `while (*p++) if (*p == d) ..`, which never tests the first byte.
-/
import Oaf.Lib.CStr

namespace CLib

/-- `char a[n]`. -/
structure CArray (n : Nat) where
  bytes : List UInt8
  size : bytes.length = n
deriving DecidableEq

namespace CArray

variable {n : Nat} {ε : Type}

/-- `char a[n] = {0}`. -/
def zeros (n : Nat) : CArray n := ⟨List.replicate n 0, List.length_replicate⟩

/-- Storing `l` from the start of the array on. -/
def write (a : CArray n) (e : ε) (l : List UInt8) : Except ε (CArray n) :=
  if h : l.length ≤ n then
    .ok ⟨l ++ a.bytes.drop l.length, by simp [a.size]; omega⟩
  else .error e

/-- The `k` bytes `strncpy` stores: the string cut to `k`, or padded with NULs up to `k`. -/
def padded (src : List UInt8) (k : Nat) : List UInt8 :=
  src.take k ++ List.replicate (k - src.length) 0

/-- `strncpy(a, src, k)`.  A negative `k` is a `size_t` beyond every array. -/
def strncpy (a : CArray n) (e : ε) (src : List UInt8) (k : Int) : Except ε (CArray n) :=
  if k < 0 then .error e else a.write e (padded src k.toNat)

/-- `strcpy(a, s)`. -/
def strcpy (a : CArray n) (e : ε) (s : CStr) : Except ε (CArray n) := a.write e (s.bytes ++ [0])

/-- `a[i] = v`. -/
def store (a : CArray n) (e : ε) (i : Nat) (v : UInt8) : Except ε (CArray n) :=
  if i < n then .ok ⟨a.bytes.set i v, by simp [a.size]⟩ else .error e

/-- The string at the start of the array; without a terminator it goes on with the string found
right behind the array. -/
def read (a : CArray n) (beyond : CStr) : CStr := .ofBytes (a.bytes ++ beyond.bytes)

/-! ## 1. Copies that stay inside -/

@[simp] theorem padded_length (src : List UInt8) (k : Nat) : (padded src k).length = k := by
  simp [padded]
  omega

theorem write_eq_ok {a : CArray n} {e : ε} {l : List UInt8} (h : l.length ≤ n) :
    ∃ a', a.write e l = .ok a' ∧ a'.bytes = l ++ a.bytes.drop l.length :=
  ⟨_, dif_pos h, rfl⟩

theorem write_eq_error {a : CArray n} {e : ε} {l : List UInt8} (h : n < l.length) :
    a.write e l = .error e := dif_neg (by omega)

theorem strncpy_eq_ok {a : CArray n} {e : ε} {l : List UInt8} {k : Int} (h0 : 0 ≤ k)
    (h : k ≤ n) : ∃ a', a.strncpy e l k = .ok a' ∧
      a'.bytes = padded l k.toNat ++ a.bytes.drop k.toNat := by
  obtain ⟨a', h1, h2⟩ := write_eq_ok (a := a) (e := e) (l := padded l k.toNat)
    (by rw [padded_length]; omega)
  refine ⟨a', ?_, by simpa using h2⟩
  rw [strncpy, if_neg (by omega), h1]

theorem strncpy_eq_error {a : CArray n} {e : ε} {src : List UInt8} {k : Int}
    (h : k < 0 ∨ (n : Int) < k) : a.strncpy e src k = .error e := by
  unfold strncpy
  split
  · rfl
  · exact write_eq_error (by rw [padded_length]; omega)

theorem strcpy_eq_ok {a : CArray n} {e : ε} {s : CStr} (h : s.strlen < n) :
    ∃ a', a.strcpy e s = .ok a' ∧ a'.bytes = s.bytes ++ [0] ++ a.bytes.drop (s.strlen + 1) := by
  obtain ⟨a', h1, h2⟩ := write_eq_ok (a := a) (e := e) (l := s.bytes ++ [0])
    (by rw [CStr.strlen] at h; simp; omega)
  exact ⟨a', h1, by simpa [CStr.strlen] using h2⟩

theorem strcpy_eq_error {a : CArray n} {e : ε} {s : CStr} (h : n ≤ s.strlen) :
    a.strcpy e s = .error e :=
  write_eq_error (by simp [CStr.strlen] at h ⊢; omega)

/-! ## 2. Reading back -/

theorem read_of_nul {a : CArray n} {s : CStr} {r : List UInt8}
    (h : a.bytes = s.bytes ++ 0 :: r) (beyond : CStr) : a.read beyond = s := by
  rw [read, h, List.append_assoc, List.cons_append]
  exact CStr.ofBytes_append_nul s _

theorem read_of_full {a : CArray n} {s : CStr} (h : a.bytes = s.bytes) (beyond : CStr) :
    (a.read beyond).bytes = s.bytes ++ beyond.bytes := by
  rw [read, h]
  refine CStr.ofBytes_of_noNul ?_
  rw [List.mem_append, not_or]
  exact ⟨s.noNul, beyond.noNul⟩

@[simp] theorem read_zeros (beyond : CStr) : (zeros (n + 1)).read beyond = .empty :=
  read_of_nul (r := List.replicate n 0) (by simp [zeros, List.replicate_succ]) beyond

/-- A string copied with its terminator reads back, whatever the array held before. -/
theorem strncpy_read {a : CArray n} {e : ε} {s : CStr} (h : s.strlen < n) :
    ∃ a', a.strncpy e s.bytes (s.strlen + 1) = .ok a' ∧ ∀ beyond, a'.read beyond = s := by
  obtain ⟨a', h1, h2⟩ := strncpy_eq_ok (a := a) (e := e) (l := s.bytes) (k := s.strlen + 1)
    (by omega) (by omega)
  refine ⟨a', h1, read_of_nul (r := a.bytes.drop (s.strlen + 1)) ?_⟩
  have hk : ((s.strlen : Int) + 1).toNat = s.bytes.length + 1 := by
    rw [CStr.strlen]
    omega
  rw [h2, hk]
  simp [padded, CStr.strlen]

theorem strcpy_read {a : CArray n} {e : ε} {s : CStr} (h : s.strlen < n) :
    ∃ a', a.strcpy e s = .ok a' ∧ ∀ beyond, a'.read beyond = s := by
  obtain ⟨a', h1, h2⟩ := strcpy_eq_ok (a := a) (e := e) h
  refine ⟨a', h1, read_of_nul (r := a.bytes.drop (s.strlen + 1)) ?_⟩
  rw [h2, List.append_assoc]
  rfl

/-- The array holds `s` and NULs behind it, if there is room for any. -/
structure Holds (a : CArray n) (s : CStr) : Prop where
  fits : s.strlen ≤ n
  bytes : a.bytes = s.bytes ++ List.replicate (n - s.strlen) 0

theorem zeros_holds : (zeros n).Holds .empty := ⟨Nat.zero_le _, by simp [zeros, CStr.strlen]⟩

theorem Holds.read {a : CArray n} {s : CStr} (h : a.Holds s) (hlt : s.strlen < n)
    (beyond : CStr) : a.read beyond = s := by
  obtain ⟨d, hd⟩ : ∃ d, n - s.strlen = d + 1 := ⟨n - s.strlen - 1, by omega⟩
  refine read_of_nul (r := List.replicate d 0) ?_ beyond
  rw [h.bytes, hd, List.replicate_succ]

/-- A string that fills the array reads on behind it. -/
theorem Holds.read_full {a : CArray n} {s : CStr} (h : a.Holds s) (heq : s.strlen = n)
    (beyond : CStr) : (a.read beyond).bytes = s.bytes ++ beyond.bytes := by
  refine read_of_full ?_ beyond
  rw [h.bytes, heq, Nat.sub_self, List.replicate_zero, List.append_nil]

/-- A string copied into a zeroed array without its terminator. -/
theorem zeros_strncpy {e : ε} {s : CStr} (h : s.strlen ≤ n) :
    ∃ a', (zeros n).strncpy e s.bytes s.strlen = .ok a' ∧ a'.Holds s := by
  obtain ⟨a', h1, h2⟩ := strncpy_eq_ok (a := zeros n) (e := e) (l := s.bytes) (k := s.strlen)
    (by omega) (by omega)
  refine ⟨a', h1, h, ?_⟩
  have hk : (s.strlen : Int).toNat = s.bytes.length := by
    rw [CStr.strlen]
    omega
  rw [h2, hk, padded, List.take_length, Nat.sub_self, zeros, List.drop_replicate]
  simp [CStr.strlen]

theorem zeros_strncpy_nul {e : ε} {s : CStr} (h : s.strlen < n) :
    ∃ a', (zeros n).strncpy e s.bytes (s.strlen + 1) = .ok a' ∧ a'.Holds s := by
  obtain ⟨a', h1, h2⟩ := strncpy_eq_ok (a := zeros n) (e := e) (l := s.bytes) (k := s.strlen + 1)
    (by omega) (by omega)
  refine ⟨a', h1, by omega, ?_⟩
  have hk : ((s.strlen : Int) + 1).toNat = s.bytes.length + 1 := by
    rw [CStr.strlen]
    omega
  obtain ⟨d, hd⟩ : ∃ d, n = s.bytes.length + (d + 1) :=
    ⟨n - s.bytes.length - 1, by rw [CStr.strlen] at h; omega⟩
  have hn : n - (s.bytes.length + 1) = d := by omega
  have hn' : n - s.bytes.length = d + 1 := by omega
  rw [h2, hk, padded, zeros, List.drop_replicate, hn, CStr.strlen, hn', List.replicate_succ]
  simp

/-- `memcpy` of a string and a NUL stored behind it. -/
theorem write_store_read {a : CArray n} {e : ε} {s : CStr} (h : s.strlen < n) :
    ∃ a' a'', a.write e s.bytes = .ok a' ∧ a'.store e s.strlen 0 = .ok a'' ∧
      ∀ beyond, a''.read beyond = s := by
  rw [CStr.strlen] at h
  obtain ⟨a', h1, h2⟩ := write_eq_ok (a := a) (e := e) (l := s.bytes) (by omega)
  have hdrop : a.bytes.drop s.bytes.length ≠ [] := by
    rw [Ne, List.drop_eq_nil_iff, a.size]
    omega
  obtain ⟨x, t, ht⟩ := List.exists_cons_of_ne_nil hdrop
  refine ⟨a', _, h1, if_pos h, read_of_nul (r := t) ?_⟩
  show a'.bytes.set s.bytes.length 0 = _
  rw [h2, ht, List.set_append_right _ _ (Nat.le_refl _)]
  simp

end CArray

/-! ## 3. Runs that meet no overrun -/

/-- The run reports no overrun. -/
def IsOk {ε α : Type} (x : Except ε α) : Prop := ∃ a, x = .ok a

/-- The overrun a run reports. -/
def overrunOf {ε α : Type} : Except ε α → Option ε
  | .ok _ => none
  | .error e => some e

theorem isOk_iff {ε α : Type} {x : Except ε α} : IsOk x ↔ overrunOf x = none := by
  cases x with
  | ok a => exact ⟨fun _ => rfl, fun _ => ⟨a, rfl⟩⟩
  | error e => exact ⟨fun ⟨_, h⟩ => (by cases h), fun h => (by cases h)⟩

theorem isOk_ok {ε α : Type} (a : α) : IsOk (.ok a : Except ε α) := ⟨a, rfl⟩

theorem not_isOk_error {ε α : Type} (e : ε) : ¬ IsOk (.error e : Except ε α) := by
  rintro ⟨a, h⟩
  cases h

@[simp] theorem ok_bind {ε α β : Type} (a : α) (f : α → Except ε β) : (.ok a >>= f) = f a := rfl

@[simp] theorem error_bind {ε α β : Type} (e : ε) (f : α → Except ε β) :
    (.error e >>= f) = .error e := rfl

theorem bind_eq_ok {ε α β : Type} {x : Except ε α} {f : α → Except ε β} {b : β} :
    (x >>= f) = .ok b ↔ ∃ a, x = .ok a ∧ f a = .ok b := by
  cases x with
  | ok a => exact ⟨fun h => ⟨a, rfl, h⟩, fun ⟨a', ha, h⟩ => by cases ha; exact h⟩
  | error e => exact ⟨fun h => (by cases h), fun ⟨a, h, _⟩ => (by cases h)⟩

theorem isOk_bind {ε α β : Type} {x : Except ε α} {f : α → Except ε β} :
    IsOk (x >>= f) ↔ ∃ a, x = .ok a ∧ IsOk (f a) := by
  constructor
  · rintro ⟨b, h⟩
    obtain ⟨a, h1, h2⟩ := bind_eq_ok.mp h
    exact ⟨a, h1, b, h2⟩
  · rintro ⟨a, h1, b, h2⟩
    exact ⟨b, bind_eq_ok.mpr ⟨a, h1, h2⟩⟩

/-! ## 4. The tokenizer `while (*p++) if (*p == d) ..` -/

/-- The loop at `p`: `cur` is what lies between `begin` and `p`. -/
def tokensFrom (d : UInt8) : List UInt8 → List UInt8 → List (List UInt8) × List UInt8
  | cur, [] => ([], cur)
  | cur, c :: rest =>
    if c = d then (cur :: (tokensFrom d [] rest).1, (tokensFrom d [] rest).2)
    else tokensFrom d (cur ++ [c]) rest

/-- The bytes from `begin` to `p` each time `*p == d`, and those from `begin` to the terminator
when the loop ends.  `p` starts behind the first byte. -/
def tokens (d : UInt8) (s : CStr) : List CStr × CStr :=
  match s.bytes with
  | [] => ([], .empty)
  | c :: rest => ((tokensFrom d [c] rest).1.map .ofBytes, .ofBytes (tokensFrom d [c] rest).2)

theorem tokensFrom_length_le (d : UInt8) : ∀ (l cur : List UInt8),
    (∀ t ∈ (tokensFrom d cur l).1, t.length ≤ cur.length + l.length) ∧
      (tokensFrom d cur l).2.length ≤ cur.length + l.length
  | [], cur => by simp [tokensFrom]
  | c :: l, cur => by
    unfold tokensFrom
    split
    · obtain ⟨h1, h2⟩ := tokensFrom_length_le d l []
      simp only [List.length_nil, Nat.zero_add] at h1 h2
      refine ⟨?_, by simp only [List.length_cons]; omega⟩
      intro t ht
      rcases List.mem_cons.mp ht with rfl | ht
      · omega
      · have := h1 t ht
        simp only [List.length_cons]
        omega
    · obtain ⟨h1, h2⟩ := tokensFrom_length_le d l (cur ++ [c])
      simp only [List.length_append, List.length_singleton] at h1 h2
      simp only [List.length_cons]
      exact ⟨fun t ht => by have := h1 t ht; omega, by omega⟩

/-- No token is longer than the string. -/
theorem tokens_strlen_le (d : UInt8) (s : CStr) :
    (∀ t ∈ (tokens d s).1, t.strlen ≤ s.strlen) ∧ (tokens d s).2.strlen ≤ s.strlen := by
  unfold tokens
  split
  · simp [CStr.strlen]
  · rename_i c rest hs
    obtain ⟨h1, h2⟩ := tokensFrom_length_le d rest [c]
    have hlen : s.strlen = 1 + rest.length := by
      rw [CStr.strlen, hs, List.length_cons, Nat.add_comm]
    rw [hlen]
    refine ⟨?_, (CStr.ofBytes_strlen_le _).trans h2⟩
    intro t ht
    obtain ⟨l, hl, rfl⟩ := List.mem_map.mp ht
    exact (CStr.ofBytes_strlen_le l).trans (h1 l hl)

/-- Up to the next delimiter. -/
theorem tokensFrom_append {d : UInt8} : ∀ {w : List UInt8}, d ∉ w → ∀ (cur rest : List UInt8),
    tokensFrom d cur (w ++ d :: rest) =
      ((cur ++ w) :: (tokensFrom d [] rest).1, (tokensFrom d [] rest).2)
  | [], _, cur, rest => by simp [tokensFrom]
  | c :: w, h, cur, rest => by
    rw [List.mem_cons, not_or] at h
    rw [List.cons_append, tokensFrom, if_neg (Ne.symm h.1), tokensFrom_append h.2]
    simp

/-- Behind the last delimiter. -/
theorem tokensFrom_last {d : UInt8} : ∀ {w : List UInt8}, d ∉ w → ∀ cur : List UInt8,
    tokensFrom d cur w = ([], cur ++ w)
  | [], _, cur => by simp [tokensFrom]
  | c :: w, h, cur => by
    rw [List.mem_cons, not_or] at h
    rw [tokensFrom, if_neg (Ne.symm h.1), tokensFrom_last h.2]
    simp

theorem tokensFrom_nil {d : UInt8} : ∀ {l cur : List UInt8}, (tokensFrom d cur l).1 = [] →
    (tokensFrom d cur l).2 = cur ++ l
  | [], cur, _ => by simp [tokensFrom]
  | c :: l, cur, h => by
    unfold tokensFrom at h ⊢
    split at h
    · simp at h
    · rename_i hc
      rw [if_neg hc, tokensFrom_nil h, List.append_assoc, List.singleton_append]

/-- Without a delimiter the string is one token. -/
theorem tokens_nil {d : UInt8} {s : CStr} (h : (tokens d s).1 = []) : (tokens d s).2 = s := by
  unfold tokens at h ⊢
  split at h
  · rename_i hs
    exact CStr.ext hs.symm
  · rename_i c rest hs
    rw [List.map_eq_nil_iff] at h
    rw [tokensFrom_nil h, List.singleton_append, ← hs, CStr.ofBytes_bytes]

theorem mem_tokensFrom (d : UInt8) : ∀ (l cur : List UInt8) {x : UInt8},
    ((∃ t ∈ (tokensFrom d cur l).1, x ∈ t) ∨ x ∈ (tokensFrom d cur l).2) → x ∈ cur ∨ x ∈ l
  | [], cur, x, h => by simpa [tokensFrom] using h
  | c :: l, cur, x, h => by
    unfold tokensFrom at h
    split at h
    · have h' : x ∈ cur ∨ ((∃ t ∈ (tokensFrom d [] l).1, x ∈ t) ∨ x ∈ (tokensFrom d [] l).2) := by
        simpa [or_assoc] using h
      rcases h' with h' | h'
      · exact Or.inl h'
      · rcases mem_tokensFrom d l [] h' with h' | h'
        · simp at h'
        · exact Or.inr (List.mem_cons_of_mem _ h')
    · rcases mem_tokensFrom d l (cur ++ [c]) h with h' | h'
      · rcases List.mem_append.mp h' with h' | h'
        · exact Or.inl h'
        · exact Or.inr (by rw [List.mem_singleton.mp h']; exact List.mem_cons_self ..)
      · exact Or.inr (List.mem_cons_of_mem _ h')

/-- The bytes of the tokens. -/
theorem tokens_cons {d : UInt8} {s : CStr} {c : UInt8} {rest : List UInt8}
    (hs : s.bytes = c :: rest) :
    (tokens d s).1.map CStr.bytes = (tokensFrom d [c] rest).1 ∧
      (tokens d s).2.bytes = (tokensFrom d [c] rest).2 := by
  have hnul : ∀ x : UInt8, ((∃ t ∈ (tokensFrom d [c] rest).1, x ∈ t) ∨
      x ∈ (tokensFrom d [c] rest).2) → x ≠ 0 := by
    rintro x hx rfl
    refine s.noNul ?_
    rw [hs, ← List.singleton_append, List.mem_append]
    exact mem_tokensFrom d rest [c] hx
  have htok : tokens d s =
      ((tokensFrom d [c] rest).1.map .ofBytes, .ofBytes (tokensFrom d [c] rest).2) := by
    unfold tokens
    rw [hs]
  rw [htok]
  refine ⟨?_, CStr.ofBytes_of_noNul (fun h => hnul 0 (Or.inr h) rfl)⟩
  rw [List.map_map]
  refine (List.map_congr_left (g := id) ?_).trans (List.map_id _)
  intro t ht
  exact CStr.ofBytes_of_noNul (fun h => hnul 0 (Or.inl ⟨t, ht, h⟩) rfl)

/-- The loop over pieces put together with the delimiter: `cur` goes in front of the first. -/
theorem tokensFrom_intercalate {d : UInt8} {last : List UInt8} (hlast : d ∉ last) :
    ∀ (init : List (List UInt8)) (cur : List UInt8), (∀ t ∈ init, d ∉ t) →
    tokensFrom d cur ([d].intercalate (init ++ [last])) =
      match init with
      | [] => ([], cur ++ last)
      | t :: rest => ((cur ++ t) :: rest, last)
  | [], cur, _ => by simpa using tokensFrom_last hlast cur
  | t :: rest, cur, h => by
    have hne : rest ++ [last] ≠ [] := by simp
    obtain ⟨x, l, hx⟩ := List.exists_cons_of_ne_nil hne
    have hcut : [d].intercalate (t :: (rest ++ [last])) =
        t ++ d :: [d].intercalate (rest ++ [last]) := by
      rw [hx, List.intercalate_cons_cons]
      simp
    rw [List.cons_append, hcut, tokensFrom_append (h t (List.mem_cons_self ..)),
      tokensFrom_intercalate hlast rest [] (fun x hx => h x (List.mem_cons_of_mem _ hx))]
    cases rest with
    | nil => simp
    | cons t' rest => simp

/-- **Pieces put together with a delimiter come apart again**, when the first one is not empty. -/
theorem tokens_intercalate {d : UInt8} {s : CStr} {init : List CStr} {last : CStr}
    (hinit : ∀ t ∈ init, d ∉ t.bytes) (hlast : d ∉ last.bytes)
    (hs : s.bytes = [d].intercalate (init.map CStr.bytes ++ [last.bytes]))
    (hfirst : ∀ t, (init ++ [last]).head? = some t → t.bytes ≠ []) :
    tokens d s = (init, last) := by
  -- the first byte is not tested; it is no delimiter
  obtain ⟨c, rest, hc, hd⟩ : ∃ c rest, s.bytes = c :: rest ∧ c ≠ d := by
    cases init with
    | nil =>
      obtain ⟨c, l, hl⟩ := List.exists_cons_of_ne_nil (hfirst last rfl)
      refine ⟨c, l, by simpa [hl] using hs, ?_⟩
      rintro rfl
      exact hlast (hl ▸ List.mem_cons_self ..)
    | cons t init =>
      obtain ⟨c, l, hl⟩ := List.exists_cons_of_ne_nil (hfirst t rfl)
      obtain ⟨x, m, hx⟩ := List.exists_cons_of_ne_nil
        (show init.map CStr.bytes ++ [last.bytes] ≠ [] by simp)
      rw [List.map_cons, List.cons_append, hx, List.intercalate_cons_cons, hl] at hs
      refine ⟨c, _, hs, ?_⟩
      rintro rfl
      exact hinit t (List.mem_cons_self ..) (hl ▸ List.mem_cons_self ..)
  have hrun : tokensFrom d [c] rest = (init.map CStr.bytes, last.bytes) := by
    have hstep : tokensFrom d [] (c :: rest) = tokensFrom d [c] rest := by
      rw [tokensFrom, if_neg hd, List.nil_append]
    rw [← hstep, ← hc, hs, tokensFrom_intercalate hlast _ _ (by simpa using hinit)]
    cases init with
    | nil => simp
    | cons t init => simp
  obtain ⟨h1, h2⟩ := tokens_cons (d := d) hc
  rw [hrun] at h1 h2
  refine Prod.ext ?_ (CStr.ext h2)
  exact List.map_injective_iff.mpr (fun a b hab => CStr.ext hab) h1

end CLib
