/-
# A HTTP request in a payload

`HttpRequest` is a request as the grammar of HTTP/1.x writes it: the request line, header
lines with one `Host` among them, the empty line and what follows.  `dpi_http_proto` should
find its method, its URL and the value of `Host`.

It looks for `"Host:"` but steps over six bytes, as if one blank always followed, and takes
the rest of the line.  So one blank too few costs the first byte of the value, and any other
blank, before or behind the value, becomes part of it.

* `dpiHttpLoop_lines`: the scan handles the lines of a header one by one.
* `dpiHttpProto_parses_iff`: the request is read as it is iff `Host` has exactly one blank
  before its value and none behind it.
-/
import Oaf.Dpi.Reads
import Mathlib.Algebra.Order.Ring.Int
import Mathlib.Data.List.Infix

namespace Oaf

open CLib

/-! ## 1. The scan, line by line -/

section

variable {m : Mem} {len i start : Int} {http : HttpProto}

/-- Bytes that are no `\r` are stepped over. -/
theorem dpiHttpLoop_skip {line : List UInt8} (hline : 13 ∉ line) (hm : m.Holds i line)
    (hfit : i + line.length ≤ len) (fuel : Nat) :
    (dpiHttpLoop len (fuel + line.length) http i start).val m =
      (dpiHttpLoop len fuel http (i + line.length) start).val m := by
  induction line generalizing i with
  | nil => simp
  | cons c line ih =>
    rw [List.length_cons] at hfit
    obtain ⟨hc, hm⟩ := hm
    have hcrlf : ¬ (isCrlf i).val m = true := by
      rw [val_isCrlf]
      rintro ⟨hcr, -⟩
      rw [hc] at hcr
      exact hline (List.mem_cons.mpr (Or.inl hcr.symm))
    have hlt : i < len := by omega
    rw [List.length_cons, ← Nat.add_assoc, dpiHttpLoop, if_pos hlt, Rd.val_bind, Rd.val_ite,
      if_neg hcrlf, ih (fun h => hline (List.mem_cons_of_mem _ h)) hm (by omega)]
    have hshift : i + 1 + (line.length : Int) = i + ((line.length + 1 : Nat) : Int) := by omega
    rw [hshift]

/-- The lines of a header, each with its end. -/
def linesText (lines : List (List UInt8)) : List UInt8 := lines.flatMap (· ++ [13, 10])

@[simp] theorem linesText_nil : linesText [] = [] := rfl

@[simp] theorem linesText_cons (line : List UInt8) (lines : List (List UInt8)) :
    linesText (line :: lines) = line ++ 13 :: 10 :: linesText lines := by
  simp [linesText]

theorem linesText_append (lines lines' : List (List UInt8)) :
    linesText (lines ++ lines') = linesText lines ++ linesText lines' :=
  List.flatMap_append

/-- What the scan makes of one line after the other. -/
def httpLines (m : Mem) : HttpProto → Int → List (List UInt8) → HttpProto
  | http, _, [] => http
  | http, start, line :: lines =>
    httpLines m ((dpiHttpLine http start (start + line.length)).val m)
      (start + line.length + 2) lines

theorem httpLines_append (http : HttpProto) (start : Int) (lines lines' : List (List UInt8)) :
    httpLines m http start (lines ++ lines') =
      httpLines m (httpLines m http start lines) (start + (linesText lines).length) lines' := by
  induction lines generalizing http start with
  | nil => simp [httpLines]
  | cons line lines ih =>
    rw [List.cons_append, httpLines, ih, httpLines, linesText_cons]
    have hshift : start + line.length + 2 + (linesText lines).length =
        start + (line ++ 13 :: 10 :: linesText lines).length := by
      simp only [List.length_append, List.length_cons]
      omega
    rw [hshift]

/-- No line begins the way an empty one does. -/
theorem not_crlfAt_line {line rest : List UInt8} (hne : line ≠ []) (hline : 13 ∉ line)
    (hm : m.Holds i (line ++ rest)) : ¬ CrlfAt m i := by
  obtain ⟨c, line, rfl⟩ := List.exists_cons_of_ne_nil hne
  rintro ⟨hcr, -⟩
  rw [hm.1] at hcr
  exact hline (List.mem_cons.mpr (Or.inl hcr.symm))

/-- **The scan of a header**: every line is looked at, up to the empty one. -/
theorem dpiHttpLoop_lines {line : List UInt8} {lines : List (List UInt8)}
    (hlines : ∀ l ∈ line :: lines, l ≠ [] ∧ 13 ∉ l)
    (hm : m.Holds start (linesText (line :: lines) ++ [13, 10]))
    (hfit : start + (linesText (line :: lines)).length + 2 ≤ len) {fuel : Nat}
    (hfuel : start + fuel = len) :
    ∃ dataPos dataLen, (dpiHttpLoop len fuel http start start).val m =
      { httpLines m http start (line :: lines) with dataPos := dataPos, dataLen := dataLen } := by
  induction lines generalizing line start fuel http with
  | nil =>
    obtain ⟨-, hline⟩ := hlines line List.mem_cons_self
    simp only [linesText_cons, linesText_nil, List.append_assoc, List.cons_append, List.nil_append,
      List.length_append, List.length_cons, List.length_nil] at hm hfit
    obtain ⟨hm, hcr, hlf, hcr2, hlf2, -⟩ := Mem.holds_append.mp hm
    obtain ⟨fuel, rfl⟩ : ∃ k, fuel = k + 1 + line.length := ⟨fuel - line.length - 1, by omega⟩
    have hend : (isCrlf (start + line.length)).val m = true := val_isCrlf.mpr ⟨hcr, hlf⟩
    have hblank : (isCrlf (start + line.length + 2)).val m = true :=
      val_isCrlf.mpr ⟨by rw [← hcr2]; congr 1; omega, by rw [← hlf2]; congr 1; omega⟩
    have hlt : start + (line.length : Int) < len := by omega
    rw [dpiHttpLoop_skip hline hm (by omega), dpiHttpLoop, if_pos hlt, Rd.val_bind, Rd.val_ite,
      if_pos hend, Rd.val_bind, Rd.val_bind, Rd.val_ite, if_pos hblank]
    exact ⟨_, _, rfl⟩
  | cons next lines ih =>
    obtain ⟨-, hline⟩ := hlines line List.mem_cons_self
    obtain ⟨hnext, hnext13⟩ := hlines next (List.mem_cons_of_mem _ List.mem_cons_self)
    rw [linesText_cons, List.append_assoc] at hm
    rw [linesText_cons, List.length_append, List.length_cons, List.length_cons] at hfit
    obtain ⟨hm, hcr, hlf, hrest⟩ := Mem.holds_append.mp hm
    have hshift : start + (line.length : Int) + 1 + 1 = start + line.length + 2 := by omega
    have hlen : (linesText (next :: lines)).length + 2 ≤ (fuel : Int) - line.length - 2 := by omega
    obtain ⟨fuel, rfl⟩ : ∃ k, fuel = k + 1 + 1 + line.length := ⟨fuel - line.length - 2, by omega⟩
    have hend : (isCrlf (start + line.length)).val m = true := val_isCrlf.mpr ⟨hcr, hlf⟩
    have hblank : ¬ (isCrlf (start + line.length + 2)).val m = true := by
      rw [val_isCrlf, ← hshift]
      rw [List.append_eq, linesText_cons, List.append_assoc] at hrest
      exact not_crlfAt_line hnext hnext13 hrest
    -- the `\n` of the line end is looked at as well
    have hlfno : ¬ (isCrlf (start + line.length + 1)).val m = true := by
      rw [val_isCrlf]
      rintro ⟨hcr', -⟩
      rw [hlf] at hcr'
      exact absurd hcr' (by decide)
    have hlt : start + (line.length : Int) < len := by omega
    have hlt' : start + (line.length : Int) + 1 < len := by omega
    rw [dpiHttpLoop_skip hline hm (by omega), dpiHttpLoop, if_pos hlt, Rd.val_bind, Rd.val_ite,
      if_pos hend, Rd.val_bind, Rd.val_bind, Rd.val_ite, if_neg hblank, dpiHttpLoop, if_pos hlt',
      Rd.val_bind, Rd.val_ite, if_neg hlfno, hshift]
    rw [hshift] at hrest
    exact ih (fun l hl => hlines l (List.mem_cons_of_mem _ hl)) hrest (by omega) (by omega)

end

/-! ## 2. What a line begins with -/

theorem prefix_of_prefix_append {p line rest : List UInt8} {c : UInt8} (hc : c ∉ p)
    (h : p <+: line ++ c :: rest) : p <+: line := by
  have hline : line ++ [c] <+: line ++ c :: rest := ⟨rest, by simp⟩
  rcases List.prefix_or_prefix_of_prefix h hline with h | h
  · rcases List.prefix_concat_iff.mp h with rfl | h
    · exact absurd (by simp) hc
    · exact h
  · exact absurd (h.subset (by simp)) hc

/-- A comparison at a line start is about the line alone. -/
theorem val_memEq_line {m : Mem} {start : Int} {p line : List UInt8} (hp : 13 ∉ p)
    (hm : m.Holds start (line ++ [13])) : (Rd.memEq start p).val m = true ↔ p <+: line := by
  rw [Rd.val_memEq]
  constructor
  · intro h
    rcases h.prefix_or hm with hpre | hpre
    · exact prefix_of_prefix_append hp hpre
    · exact absurd (hpre.subset (by simp)) hp
  · intro hpre
    exact hm.of_prefix (hpre.trans (List.prefix_append _ _))

theorem ascii_post : ascii "POST " = [80, 79, 83, 84, 32] := by decide +kernel

theorem ascii_get : ascii "GET " = [71, 69, 84, 32] := by decide +kernel

theorem ascii_host : ascii "Host:" = [72, 111, 115, 116, 58] := by decide +kernel

section

variable {m : Mem} {start i : Int} {line : List UInt8}

/-- **What one line does to `flow->http`.** -/
theorem val_dpiHttpLine (http : HttpProto) (hm : m.Holds start (line ++ [13])) :
    (dpiHttpLine http start i).val m =
      if [80, 79, 83, 84, 32] <+: line then
        { http with matched := true, method := HTTP_METHOD_POST,
                    urlPos := some (start + 5), urlLen := i - start - 5 }
      else if [71, 69, 84, 32] <+: line then
        { http with matched := true, method := HTTP_METHOD_GET,
                    urlPos := some (start + 4), urlLen := i - start - 4 }
      else if [72, 111, 115, 116, 58] <+: line then
        { http with hostPos := some (start + 6), hostLen := i - start - 6 }
      else http := by
  have hpost := @val_memEq_line m start (ascii "POST ") line (by rw [ascii_post]; decide) hm
  have hget := @val_memEq_line m start (ascii "GET ") line (by rw [ascii_get]; decide) hm
  have hhost := @val_memEq_line m start (ascii "Host:") line (by rw [ascii_host]; decide) hm
  rw [ascii_post] at hpost
  rw [ascii_get] at hget
  rw [ascii_host] at hhost
  rw [dpiHttpLine, ascii_post, ascii_get, ascii_host]
  simp only [Rd.val_bind, Rd.val_ite, hpost, hget, hhost, Rd.val_pure]

end

/-! ## 3. Requests -/

inductive Method
  | get
  | post

def Method.text : Method → List UInt8
  | .get => [71, 69, 84]
  | .post => [80, 79, 83, 84]

/-- The code `flow->http.method` has for it. -/
def Method.code : Method → Nat
  | .get => HTTP_METHOD_GET
  | .post => HTTP_METHOD_POST

/-- A blank of the grammar: a space or a tab. -/
def isOws (c : UInt8) : Bool := c == 32 || c == 9

/-- A header line: a name without blanks and colons, a colon, and the rest of the line. -/
structure HeaderLine where
  name : List UInt8
  value : List UInt8
  name_ne : name ≠ []
  name_token : ∀ c ∈ name, isOws c = false ∧ c ≠ 58 ∧ c ≠ 13
  value_line : 13 ∉ value

def HeaderLine.text (h : HeaderLine) : List UInt8 := h.name ++ 58 :: h.value

/-- The name of the line that gives the host. -/
def hostName : List UInt8 := [72, 111, 115, 116]

/-- A HTTP/1.x request: `before` and `after` are the header lines before and after the one of
the host, `leading` and `trailing` the blanks around its value. -/
structure HttpRequest where
  method : Method
  target : List UInt8
  minor : UInt8
  before : List HeaderLine
  leading : List UInt8
  host : List UInt8
  trailing : List UInt8
  after : List HeaderLine
  body : List UInt8
  target_ne : target ≠ []
  target_line : ∀ c ∈ target, isOws c = false ∧ c ≠ 13
  minor_digit : isdigit minor = true
  one_host : ∀ h ∈ before ++ after, h.name ≠ hostName
  leading_ows : ∀ c ∈ leading, isOws c = true
  trailing_ows : ∀ c ∈ trailing, isOws c = true
  host_line : 13 ∉ host
  host_trimmed : (∀ c, host.head? = some c → isOws c = false) ∧
    ∀ c, host.getLast? = some c → isOws c = false

namespace HttpRequest

variable (request : HttpRequest)

/-- The request line. -/
def line : List UInt8 :=
  request.method.text ++ 32 :: request.target ++ [32, 72, 84, 84, 80, 47, 49, 46, request.minor]

def hostLine : List UInt8 :=
  hostName ++ 58 :: (request.leading ++ request.host ++ request.trailing)

/-- The lines up to the one of the host. -/
def linesBefore : List (List UInt8) := request.line :: request.before.map (·.text)

def lines : List (List UInt8) :=
  request.linesBefore ++ request.hostLine :: request.after.map (·.text)

/-- The payload of the request. -/
def text : List UInt8 := linesText request.lines ++ 13 :: 10 :: request.body

/-- Where the line of the host starts. -/
def hostStart : Int := ((linesText request.linesBefore).length : Nat)

end HttpRequest

theorem HeaderLine.colon_notMem (h : HeaderLine) : 58 ∉ h.name :=
  fun hc => (h.name_token 58 hc).2.1 rfl

theorem HeaderLine.text_line (h : HeaderLine) : h.text ≠ [] ∧ 13 ∉ h.text := by
  refine ⟨by simp [HeaderLine.text], fun hcr => ?_⟩
  rcases List.mem_append.mp hcr with hname | hvalue
  · exact (h.name_token 13 hname).2.2 rfl
  · rcases List.mem_cons.mp hvalue with heq | hvalue
    · exact absurd heq (by decide)
    · exact h.value_line hvalue

/-- No header line begins with a method and a blank. -/
theorem HeaderLine.not_prefix (h : HeaderLine) {p : List UInt8} (hcolon : 58 ∉ p) (hblank : 32 ∈ p) :
    ¬ p <+: h.text := by
  intro hp
  have hname := (prefix_of_prefix_append hcolon hp).subset hblank
  exact absurd (h.name_token 32 hname).1 (by decide)

/-- Only the line of the host begins with its name and a colon. -/
theorem HeaderLine.not_host (h : HeaderLine) (hname : h.name ≠ hostName) :
    ¬ [72, 111, 115, 116, 58] <+: h.text := by
  rintro ⟨rest, hrest⟩
  have heq : hostName ++ 58 :: rest = h.name ++ 58 :: h.value := hrest
  have hle : hostName <+: h.name := by
    refine @prefix_of_prefix_append hostName h.name h.value 58 (by decide) ?_
    rw [← heq]
    exact List.prefix_append _ _
  have hge : h.name <+: hostName := by
    refine @prefix_of_prefix_append h.name hostName rest 58 h.colon_notMem ?_
    rw [heq]
    exact List.prefix_append _ _
  exact hname (hge.eq_of_length_le hle.length_le)

section

variable {m : Mem} {http : HttpProto} {start : Int}

/-- The other header lines change nothing. -/
theorem httpLines_headers {headers : List HeaderLine} (hother : ∀ h ∈ headers, h.name ≠ hostName)
    (hm : m.Holds start (linesText (headers.map (·.text)))) :
    httpLines m http start (headers.map (·.text)) = http := by
  induction headers generalizing start with
  | nil => rfl
  | cons h headers ih =>
    rw [List.map_cons, linesText_cons] at hm
    have hline : m.Holds start (h.text ++ [13]) := hm.of_prefix ⟨10 :: linesText (headers.map (·.text)), by simp⟩
    have hrest := (Mem.holds_append.mp hm).2.2.2
    rw [List.map_cons, httpLines, val_dpiHttpLine http hline,
      if_neg (h.not_prefix (by decide) (by decide)), if_neg (h.not_prefix (by decide) (by decide)),
      if_neg (h.not_host (hother h List.mem_cons_self))]
    refine ih (fun g hg => hother g (List.mem_cons_of_mem _ hg)) ?_
    rwa [show start + (h.text.length : Int) + 1 + 1 = start + h.text.length + 2 by omega] at hrest

variable (request : HttpRequest)

/-- The request line. -/
theorem val_dpiHttpLine_request (hm : m.Holds 0 (request.line ++ [13])) :
    (dpiHttpLine http 0 (0 + request.line.length)).val m =
      { http with
        matched := true
        method := request.method.code
        urlPos := some (request.method.text.length + 1)
        urlLen := request.line.length - (request.method.text.length + 1) } := by
  rw [val_dpiHttpLine http hm]
  cases hmethod : request.method with
  | get =>
    have hpost : ¬ [80, 79, 83, 84, 32] <+: request.line := by
      simp [HttpRequest.line, hmethod, Method.text]
    have hget : [71, 69, 84, 32] <+: request.line := by
      simp [HttpRequest.line, hmethod, Method.text]
    rw [if_neg hpost, if_pos hget]
    simp [Method.code, Method.text]
  | post =>
    have hpost : [80, 79, 83, 84, 32] <+: request.line := by
      simp [HttpRequest.line, hmethod, Method.text]
    rw [if_pos hpost]
    simp [Method.code, Method.text]

/-- **The line of the host**: from the sixth byte on, to its end. -/
theorem val_dpiHttpLine_host (hm : m.Holds start (request.hostLine ++ [13])) :
    (dpiHttpLine http start (start + request.hostLine.length)).val m =
      { http with
        hostPos := some (start + 6)
        hostLen := request.leading.length + request.host.length + request.trailing.length - 1 } := by
  have hpost : ¬ [80, 79, 83, 84, 32] <+: request.hostLine := by
    simp [HttpRequest.hostLine, hostName]
  have hget : ¬ [71, 69, 84, 32] <+: request.hostLine := by
    simp [HttpRequest.hostLine, hostName]
  have hhost : [72, 111, 115, 116, 58] <+: request.hostLine := by
    simp [HttpRequest.hostLine, hostName]
  rw [val_dpiHttpLine http hm, if_neg hpost, if_neg hget, if_pos hhost]
  have hlen : start + (request.hostLine.length : Int) - start - 6 =
      request.leading.length + request.host.length + request.trailing.length - 1 := by
    simp only [HttpRequest.hostLine, hostName, List.length_append, List.length_cons,
      List.length_nil]
    omega
  rw [hlen]

end

/-! ## 4. `dpi_http_proto` -/

theorem isOws_ne {c : UInt8} (h : isOws c = true) : c ≠ 13 := by
  rintro rfl
  exact absurd h (by decide)

namespace HttpRequest

variable (request : HttpRequest)

theorem line_line : request.line ≠ [] ∧ 13 ∉ request.line := by
  have hmethod : 13 ∉ request.method.text := by cases request.method <;> decide
  have htarget : 13 ∉ request.target := fun h => (request.target_line 13 h).2 rfl
  have hminor : request.minor ≠ 13 := by
    intro h
    have hdigit := request.minor_digit
    rw [h] at hdigit
    exact absurd hdigit (by decide)
  simp [line, hmethod, htarget, hminor.symm]

theorem hostLine_line : request.hostLine ≠ [] ∧ 13 ∉ request.hostLine := by
  have hleading : 13 ∉ request.leading := fun h => isOws_ne (request.leading_ows 13 h) rfl
  have htrailing : 13 ∉ request.trailing := fun h => isOws_ne (request.trailing_ows 13 h) rfl
  simp [hostLine, hostName, hleading, htrailing, request.host_line]

theorem lines_line : ∀ l ∈ request.lines, l ≠ [] ∧ 13 ∉ l := by
  intro l hl
  simp only [lines, linesBefore, List.cons_append, List.mem_cons, List.mem_append,
    List.mem_map] at hl
  rcases hl with rfl | ⟨h, -, rfl⟩ | rfl | ⟨h, -, rfl⟩
  · exact request.line_line
  · exact h.text_line
  · exact request.hostLine_line
  · exact h.text_line

/-- A whole request has the 16 bytes that `dpi_http_proto` asks for. -/
theorem length_text : MIN_HTTP_DATA_LEN ≤ (request.text.length : Int) := by
  have hmethod : 3 ≤ request.method.text.length := by cases request.method <;> decide
  simp only [text, lines, linesBefore, List.cons_append, linesText_cons, line, List.length_append,
    List.length_cons, List.length_nil, MIN_HTTP_DATA_LEN]
  omega

end HttpRequest

/-- The flow carries these bytes over TCP. -/
structure CarriesTcp (flow : FlowInfo) (text : List UInt8) : Prop where
  tcp : flow.l4Protocol = IPPROTO_TCP
  len : flow.l4Len = text.length
  holds : Mem.Holds flow.l4Data 0 text

/-- What is found is the request: its method, the rest of its line, and the value of `Host`. -/
structure FindsRequest (http : HttpProto) (request : HttpRequest) : Prop where
  matched : http.matched = true
  method : http.method = request.method.code
  urlPos : http.urlPos = some (request.method.text.length + 1)
  urlLen : http.urlLen = request.line.length - (request.method.text.length + 1)
  hostPos : http.hostPos = some (request.hostStart + 5 + request.leading.length)
  hostLen : http.hostLen = request.host.length

/-- The three parts of the header. -/
theorem httpLines_request {m : Mem} (http : HttpProto) {request : HttpRequest}
    (hm : m.Holds 0 (linesText request.lines)) :
    httpLines m http 0 request.lines =
      { http with
        matched := true
        method := request.method.code
        urlPos := some (request.method.text.length + 1)
        urlLen := request.line.length - (request.method.text.length + 1)
        hostPos := some (request.hostStart + 6)
        hostLen := request.leading.length + request.host.length + request.trailing.length - 1 } := by
  have hother := request.one_host
  rw [HttpRequest.lines, linesText_append, linesText_cons] at hm
  obtain ⟨hbefore, hrest⟩ := Mem.holds_append.mp hm
  rw [Int.zero_add, ← HttpRequest.hostStart] at hrest
  have hhost : m.Holds request.hostStart (request.hostLine ++ [13]) :=
    hrest.of_prefix ⟨10 :: linesText (request.after.map (·.text)), by simp⟩
  have hafter := (Mem.holds_append.mp hrest).2.2.2
  rw [HttpRequest.linesBefore, linesText_cons] at hbefore
  have hline : m.Holds 0 (request.line ++ [13]) :=
    hbefore.of_prefix ⟨10 :: linesText (request.before.map (·.text)), by simp⟩
  have hheaders := (Mem.holds_append.mp hbefore).2.2.2
  rw [show (0 : Int) + (request.line.length : Int) + 1 + 1 = 0 + request.line.length + 2 by omega]
    at hheaders
  rw [show request.hostStart + (request.hostLine.length : Int) + 1 + 1 =
    request.hostStart + request.hostLine.length + 2 by omega] at hafter
  have hfirst : httpLines m http 0 request.linesBefore =
      { http with
        matched := true
        method := request.method.code
        urlPos := some (request.method.text.length + 1)
        urlLen := request.line.length - (request.method.text.length + 1) } := by
    rw [HttpRequest.linesBefore, httpLines, val_dpiHttpLine_request request hline,
      httpLines_headers (fun h hh => hother h (List.mem_append_left _ hh)) hheaders]
  rw [HttpRequest.lines, httpLines_append, Int.zero_add, ← HttpRequest.hostStart, hfirst, httpLines,
    val_dpiHttpLine_host request hhost,
    httpLines_headers (fun h hh => hother h (List.mem_append_right _ hh)) hafter]

/-- **What `dpi_http_proto` makes of a request.** -/
theorem dpiHttpProto_request {flow : FlowInfo} {request : HttpRequest}
    (hflow : CarriesTcp flow request.text) :
    ∃ dataPos dataLen, ((dpiHttpProto flow).val flow.l4Data).http =
      { matched := true
        method := request.method.code
        urlPos := some (request.method.text.length + 1)
        urlLen := request.line.length - (request.method.text.length + 1)
        hostPos := some (request.hostStart + 6)
        hostLen := request.leading.length + request.host.length + request.trailing.length - 1
        dataPos := dataPos
        dataLen := dataLen } := by
  have hlen := request.length_text
  have hholds := hflow.holds
  have hlines := hholds.of_prefix (show linesText request.lines ++ [13, 10] <+: request.text from
    ⟨request.body, by simp [HttpRequest.text]⟩)
  have hfit : (0 : Int) + (linesText request.lines).length + 2 ≤ flow.l4Len := by
    rw [hflow.len, HttpRequest.text, List.length_append, List.length_cons, List.length_cons]
    omega
  obtain ⟨dataPos, dataLen, hloop⟩ : ∃ dataPos dataLen,
      (dpiHttpLoop flow.l4Len flow.l4Len.toNat flow.http 0 0).val flow.l4Data =
        { httpLines flow.l4Data flow.http 0 request.lines with
          dataPos := dataPos, dataLen := dataLen } :=
    dpiHttpLoop_lines request.lines_line hlines hfit (by rw [hflow.len]; omega)
  have hproto : ((dpiHttpProto flow).val flow.l4Data).http =
      (dpiHttpLoop flow.l4Len flow.l4Len.toNat flow.http 0 0).val flow.l4Data := by
    rw [dpiHttpProto, if_neg (not_not.mpr hflow.tcp), if_neg (by rw [hflow.len]; omega)]
    rfl
  refine ⟨dataPos, dataLen, ?_⟩
  rw [hproto, hloop, httpLines_request flow.http (Mem.holds_append.mp hlines).1]

/-- **A request is read as it is iff its host has one blank before it and none behind it.** -/
theorem dpiHttpProto_parses_iff (request : HttpRequest) (flow : FlowInfo)
    (hflow : CarriesTcp flow request.text) :
    FindsRequest ((dpiHttpProto flow).val flow.l4Data).http request ↔
      request.leading.length = 1 ∧ request.trailing = [] := by
  obtain ⟨dataPos, dataLen, hval⟩ := dpiHttpProto_request hflow
  rw [hval]
  constructor
  · intro h
    have hpos : request.hostStart + 6 = request.hostStart + 5 + request.leading.length :=
      Option.some.inj h.hostPos
    have hlen : (request.leading.length : Int) + request.host.length + request.trailing.length - 1 =
        request.host.length := h.hostLen
    exact ⟨by omega, List.length_eq_zero_iff.mp (by omega)⟩
  · rintro ⟨hleading, htrailing⟩
    refine ⟨rfl, rfl, rfl, rfl, ?_, ?_⟩
    · simp only [hleading, Nat.cast_one, Option.some.injEq]
      omega
    · simp only [hleading, htrailing, List.length_nil, Nat.cast_one]
      omega

/-- `GET / HTTP/1.1`, then `Host:` with the given blanks before `a.b`. -/
def rootRequest (leading : List UInt8) (h : ∀ c ∈ leading, isOws c = true) : HttpRequest where
  method := .get
  target := [47]
  minor := 49
  before := []
  leading := leading
  host := [97, 46, 98]
  trailing := []
  after := []
  body := []
  target_ne := by simp
  target_line := by simp [isOws]
  minor_digit := by decide
  one_host := by simp
  leading_ows := h
  trailing_ows := by simp
  host_line := by decide
  host_trimmed := by simp [isOws]

/-- A flow that carries a text over TCP. -/
def tcpFlow (text : List UInt8) : FlowInfo where
  l4Protocol := IPPROTO_TCP
  l4Data i := text.getD i.toNat 0
  l4Len := text.length

/-- One blank before the value. -/
def blankRequest : HttpRequest := rootRequest [32] (by simp [isOws])

/-- No blank. -/
def tightRequest : HttpRequest := rootRequest [] (by simp)

theorem dpiHttpProto_parses_iff_root :
    FindsRequest ((dpiHttpProto (tcpFlow blankRequest.text)).val
      (tcpFlow blankRequest.text).l4Data).http blankRequest :=
  (dpiHttpProto_parses_iff blankRequest _
    { tcp := rfl, len := rfl, holds := by decide }).mpr ⟨rfl, rfl⟩

/-- **Without a blank the first byte of the value is lost**: `Host:a.b` is read as `.b`. -/
theorem host_without_blank_cut :
    CarriesTcp (tcpFlow tightRequest.text) tightRequest.text ∧
      ((dpiHttpProto (tcpFlow tightRequest.text)).val
        (tcpFlow tightRequest.text).l4Data).http.hostLen = 2 ∧
      ¬ FindsRequest ((dpiHttpProto (tcpFlow tightRequest.text)).val
        (tcpFlow tightRequest.text).l4Data).http tightRequest := by
  have hlen : ((dpiHttpProto (tcpFlow tightRequest.text)).val
      (tcpFlow tightRequest.text).l4Data).http.hostLen = 2 := by decide +kernel
  refine ⟨{ tcp := rfl, len := rfl, holds := by decide }, hlen, fun h => ?_⟩
  have hhost := h.hostLen
  rw [hlen] at hhost
  exact absurd hhost (by decide)

end Oaf
