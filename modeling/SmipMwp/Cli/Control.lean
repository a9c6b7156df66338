import SmipMwp.AfXdp.Headroom
import SmipMwp.Foundations.Text
import SmipMwp.Foundations.Words

/-!
# The control endpoint

The metrics server reads a request into a buffer of 4096 zeros and works on the whole buffer: what
follows the request is part of the body. A number is then followed by zeros, which are no white
space, and does not parse; and a label ends with them. So a request that leaves room in the buffer
sets nothing (`sockets_serve`) and is never handled as it asks (`serve_ne_perform`); one that fills
it is (`serve_eq_perform_iff`).

The registry keeps weak references. A socket whose reference cannot be upgraded, or whose mutex is
poisoned, is not `live`.
-/

namespace SmipMwp.Cli

open AfXdp

/-! ## The registry -/

structure RegisteredSocket where
  label : String
  freeList : FreeList
  live : Bool

def setFreelistHeadroomAll (headroom : BitVec 64) (sockets : List RegisteredSocket) :
    List RegisteredSocket × List (String × BitVec 64 × BitVec 64) :=
  (sockets.map fun s =>
      if s.live then { s with freeList := s.freeList.setHeadroom headroom } else s,
    (sockets.filter RegisteredSocket.live).map fun s => (s.label, s.freeList.headroom, headroom))

def setFreelistHeadroomFor (label : String) (headroom : BitVec 64) :
    List RegisteredSocket → List RegisteredSocket × Option (BitVec 64 × BitVec 64)
  | [] => ([], none)
  | s :: sockets =>
    if s.live ∧ s.label = label then
      ({ s with freeList := s.freeList.setHeadroom headroom } :: sockets,
        some (s.freeList.headroom, headroom))
    else
      let rest := setFreelistHeadroomFor label headroom sockets
      (s :: rest.1, rest.2)

def snapshotFreelistHeadrooms (sockets : List RegisteredSocket) : List (String × BitVec 64) :=
  (sockets.filter RegisteredSocket.live).map fun s => (s.label, s.freeList.headroom)

/-! ## The handler -/

/-- The JSON object for a socket. -/
structure SocketResult where
  label : String
  old : Option (BitVec 64)
  new : BitVec 64
  ok : Bool

inductive Reply
  | metrics
  | headrooms (sockets : List (String × BitVec 64))
  | socketResult (result : SocketResult)
  | socketResults (results : List SocketResult)
  | badRequest
  | notFound

def Reply.status : Reply → ℕ
  | badRequest => 400
  | notFound => 404
  | _ => 200

/-- What a body asks for: a headroom for all sockets or for one. -/
inductive ControlCommand
  | all (n : BitVec 64)
  | socket (label : String) (n : BitVec 64)

/-- The blank line that ends the header. -/
def blankLine : List Char := "\r\n\r\n".toList

def headroomKey : List Char := "headroom=".toList

def labelKey : List Char := "label=".toList

def labelEnds : List Char := ['&', ' ', '\n', '\r']

def parseControl (body : List Char) : Option ControlCommand :=
  match afterFirst headroomKey body with
  | none => none
  | some rest =>
    match parseUsize (firstWord rest) with
    | none => none
    | some n =>
      let label := (afterFirst labelKey body).map fun rest =>
        rest.takeWhile fun c => !labelEnds.contains c
      match label.filter fun label => !label.isEmpty with
      | some label => some (.socket (String.ofList label) n)
      | none => some (.all n)

def perform (sockets : List RegisteredSocket) : ControlCommand → List RegisteredSocket × Reply
  | .socket label n =>
    let res := setFreelistHeadroomFor label n sockets
    match res.2 with
    | some (old, new) => (res.1, .socketResult ⟨label, some old, new, true⟩)
    | none => (res.1, .socketResult ⟨label, none, n, false⟩)
  | .all n =>
    let before := snapshotFreelistHeadrooms sockets
    let applied := setFreelistHeadroomAll n sockets
    let failed := before.filter fun b => !applied.2.any fun a => a.1 == b.1
    (applied.1, .socketResults ((applied.2.map fun a => ⟨a.1, some a.2.1, a.2.2, true⟩) ++
      failed.map fun b => ⟨b.1, some b.2, n, false⟩))

def respond (sockets : List RegisteredSocket) :
    Option ControlCommand → List RegisteredSocket × Reply
  | some command => perform sockets command
  | none => (sockets, .badRequest)

def handle (sockets : List RegisteredSocket) (req : List Char) :
    List RegisteredSocket × Reply :=
  if "GET /metrics".toList <+: req ∨ "GET / ".toList <+: req then (sockets, .metrics)
  else if "GET /control".toList <+: req then
    (sockets, .headrooms (snapshotFreelistHeadrooms sockets))
  else if "POST /control".toList <+: req then
    let body := ((afterFirst blankLine req).map (beforeFirst blankLine)).getD []
    respond sockets (parseControl body)
  else (sockets, .notFound)

/-- The handling of a request that is delivered in one read. -/
def serve (sockets : List RegisteredSocket) (request : Bytes) : List RegisteredSocket × Reply :=
  handle sockets (fromUtf8Lossy ((request.take 4096).rightpad 4096 0))

/-! ## Requests -/

namespace ControlCommand

/-- The body that asks for it. -/
def text : ControlCommand → List Char
  | all n => headroomKey ++ decimal n
  | socket label n => headroomKey ++ (decimal n ++ ' ' :: (labelKey ++ label.toList))

/-- A label is not empty and has no separator in it. -/
def PlainLabel : ControlCommand → Prop
  | all _ => True
  | socket label _ => label ≠ "" ∧ ∀ c ∈ label.toList, c ∉ labelEnds

end ControlCommand

/-- **The request is a `POST /control` that asks for this.** The header can be any bytes. -/
structure Asks (request : Bytes) (command : ControlCommand) : Prop where
  post : utf8Bytes "POST /control".toList <+: request
  body : afterFirst (utf8Bytes blankLine) request = some (utf8Bytes command.text)
  plainLabel : command.PlainLabel

/-! ## The zeros behind a request -/

/-- What `k` bytes of zero are read as. -/
def zeros (k : ℕ) : List Char := List.replicate k '\x00'

namespace ControlCommand

/-- What is understood of a body with `k` zeros behind it. -/
def withZeros (k : ℕ) : ControlCommand → Option ControlCommand
  | all n => if k = 0 then some (all n) else none
  | socket label n => some (socket (String.ofList (label.toList ++ zeros k)) n)

end ControlCommand

theorem notMem_zeros {c : Char} (h : c ≠ '\x00') (k : ℕ) : c ∉ zeros k := fun hc =>
  h (List.eq_of_mem_replicate hc)

theorem notMem_decimal {c : Char} (h : c.isDigit = false) (n : BitVec 64) : c ∉ decimal n :=
  fun hc => by simp [isDigit_of_mem_decimal hc] at h

theorem utf8Bytes_zeros (k : ℕ) : utf8Bytes (zeros k) = List.replicate k 0 := by
  induction k with
  | zero => rfl
  | succ k ih =>
    rw [zeros, List.replicate_succ, utf8Bytes, List.flatMap_cons, List.replicate_succ, ← ih]
    rfl

theorem takeWhile_zeros {p : Char → Bool} (hp : p '\x00' = true) (k : ℕ) :
    (zeros k).takeWhile p = zeros k := by
  rw [zeros, List.takeWhile_replicate, if_pos hp]

/-- A zero is no white space. -/
theorem firstWord_decimal_zeros (n : BitVec 64) (k : ℕ) :
    firstWord (decimal n ++ zeros k) = decimal n ++ zeros k := by
  rw [firstWord_decimal_append, takeWhile_zeros (by decide)]

theorem firstWord_decimal_space (n : BitVec 64) (t : List Char) :
    firstWord (decimal n ++ ' ' :: t) = decimal n := by
  rw [firstWord_decimal_append]
  exact List.append_nil _

/-- A zero is no digit. -/
theorem parseUsize_decimal_zeros (n : BitVec 64) (k : ℕ) :
    parseUsize (decimal n ++ zeros k) = if k = 0 then some n else none := by
  split_ifs with hk
  · rw [hk, zeros, List.replicate_zero, List.append_nil, parseUsize_decimal]
  · rw [parseUsize_decimal_append, if_neg]
    intro hall
    have hmem : '\x00' ∈ zeros k := List.mem_replicate.mpr ⟨hk, rfl⟩
    exact absurd (List.all_eq_true.mp hall _ hmem) (by decide)

theorem parseControl_all (n : BitVec 64) (k : ℕ) :
    parseControl ((ControlCommand.all n).text ++ zeros k) =
      if k = 0 then some (.all n) else none := by
  have hlabel : afterFirst labelKey ((ControlCommand.all n).text ++ zeros k) = none := by
    have hmem : 'l' ∉ (ControlCommand.all n).text ++ zeros k := by
      simp only [ControlCommand.text, List.mem_append, not_or]
      exact ⟨⟨by decide, notMem_decimal (by decide) n⟩, notMem_zeros (by decide) k⟩
    exact afterFirst_of_notMem (by decide) hmem
  unfold parseControl
  rw [hlabel, ControlCommand.text, List.append_assoc, afterFirst_append_self]
  simp only [firstWord_decimal_zeros, parseUsize_decimal_zeros]
  split_ifs
  · rfl
  · rfl

/-- The key of the label is found where it was put. -/
theorem afterFirst_labelKey (label : String) (n : BitVec 64) (k : ℕ) :
    afterFirst labelKey ((ControlCommand.socket label n).text ++ zeros k) =
      some (label.toList ++ zeros k) := by
  have hmem : 'l' ∉ headroomKey ++ (decimal n ++ [' ']) := by
    simp only [List.mem_append, not_or]
    exact ⟨by decide, notMem_decimal (by decide) n, by decide⟩
  have hsplit : (ControlCommand.socket label n).text ++ zeros k =
      (headroomKey ++ (decimal n ++ [' '])) ++ (labelKey ++ (label.toList ++ zeros k)) := by
    simp only [ControlCommand.text, List.append_assoc, List.cons_append, List.nil_append]
  rw [hsplit, afterFirst_skip (by decide) hmem, afterFirst_append_self]

/-- A zero does not end a label. -/
theorem takeWhile_label_zeros {label : String} (h : ∀ c ∈ label.toList, c ∉ labelEnds) (k : ℕ) :
    (label.toList ++ zeros k).takeWhile (fun c => !labelEnds.contains c) =
      label.toList ++ zeros k := by
  rw [List.takeWhile_append_of_pos fun c hc => by simpa using h c hc,
    takeWhile_zeros (by decide)]

theorem parseControl_socket {label : String} {n : BitVec 64}
    (h : (ControlCommand.socket label n).PlainLabel) (k : ℕ) :
    parseControl ((ControlCommand.socket label n).text ++ zeros k) =
      some (.socket (String.ofList (label.toList ++ zeros k)) n) := by
  have hne : (label.toList ++ zeros k).isEmpty = false := by
    simpa using fun hnil => absurd hnil h.1
  unfold parseControl
  rw [afterFirst_labelKey, ControlCommand.text, List.append_assoc, afterFirst_append_self,
    List.append_assoc, List.cons_append]
  simp only [firstWord_decimal_space, parseUsize_decimal, Option.map_some,
    takeWhile_label_zeros h.2]
  rw [Option.filter_some_pos (by rw [hne]; rfl)]

theorem parseControl_text {command : ControlCommand} (h : command.PlainLabel) (k : ℕ) :
    parseControl (command.text ++ zeros k) = command.withZeros k := by
  cases command with
  | all n => exact parseControl_all n k
  | socket label n => exact parseControl_socket h k

/-- A body is one line. -/
theorem notMem_text {command : ControlCommand} (h : command.PlainLabel) : '\r' ∉ command.text := by
  cases command with
  | all n =>
    simp only [ControlCommand.text, List.mem_append, not_or]
    exact ⟨by decide, notMem_decimal (by decide) n⟩
  | socket label n =>
    simp only [ControlCommand.text, List.mem_append, List.mem_cons, not_or]
    exact ⟨by decide, notMem_decimal (by decide) n, by decide, by decide,
      fun hmem => h.2 _ hmem (by decide)⟩

theorem handle_post {req : List Char} (h : "POST /control".toList <+: req)
    (sockets : List RegisteredSocket) :
    handle sockets req =
      respond sockets
        (parseControl (((afterFirst blankLine req).map (beforeFirst blankLine)).getD [])) := by
  have hget : ∀ path : List Char, path.head? = some 'G' → ¬ path <+: req := by
    obtain ⟨rest, rfl⟩ := h
    exact fun path hpath => not_prefix_cons (a := 'P') hpath (by decide)
  have hmetrics : ¬ ("GET /metrics".toList <+: req ∨ "GET / ".toList <+: req) :=
    not_or.mpr ⟨hget _ (by decide), hget _ (by decide)⟩
  rw [handle, if_neg hmetrics, if_neg (hget _ (by decide)), if_pos h]

/-! ## What becomes of a request -/

section Requests

variable {request : Bytes} {command : ControlCommand} (h : Asks request command)
include h

/-- **A request is understood as if its body ended with the zeros behind it.** -/
theorem serve_of_asks (hlen : request.length ≤ 4096) (sockets : List RegisteredSocket) :
    serve sockets request = respond sockets (command.withZeros (4096 - request.length)) := by
  set k := 4096 - request.length with hk
  have hbuffer : (request.take 4096).rightpad 4096 0 = request ++ utf8Bytes (zeros k) := by
    rw [List.take_of_length_le hlen, List.rightpad, utf8Bytes_zeros]
  have hpost : "POST /control".toList <+: fromUtf8Lossy (request ++ utf8Bytes (zeros k)) := by
    rw [prefix_fromUtf8Lossy_iff (ascii_of_all (by decide))]
    exact h.post.trans (List.prefix_append _ _)
  have hbody : afterFirst blankLine (fromUtf8Lossy (request ++ utf8Bytes (zeros k))) =
      some (command.text ++ zeros k) := by
    rw [afterFirst_fromUtf8Lossy (ascii_of_all (by decide)) (by decide),
      afterFirst_append h.body, Option.map_some, fromUtf8Lossy_utf8Bytes]
    have hzeros := fromUtf8Lossy_utf8Bytes (zeros k) []
    rw [List.append_nil, fromUtf8Lossy, List.append_nil] at hzeros
    rw [hzeros]
  have hline : '\r' ∉ command.text ++ zeros k :=
    mt List.mem_append.mp (not_or.mpr ⟨notMem_text h.plainLabel, notMem_zeros (by decide) k⟩)
  rw [serve, hbuffer, handle_post hpost, hbody, Option.map_some, Option.getD_some,
    beforeFirst_of_notMem (by decide) hline, parseControl_text h.plainLabel]

omit h in
theorem perform_socket_label (sockets : List RegisteredSocket) (label : String) (n : BitVec 64) :
    ∃ result, (perform sockets (.socket label n)).2 = .socketResult result ∧
      result.label = label := by
  rw [perform]
  split
  · exact ⟨_, rfl, rfl⟩
  · exact ⟨_, rfl, rfl⟩

omit h in
/-- The answer shows that something else was understood. -/
theorem respond_withZeros_ne {k : ℕ} (hk : k ≠ 0) (sockets : List RegisteredSocket) :
    respond sockets (command.withZeros k) ≠ perform sockets command := by
  intro heq
  cases command with
  | all n =>
    rw [ControlCommand.withZeros, if_neg hk] at heq
    exact Reply.noConfusion (congrArg Prod.snd heq)
  | socket label n =>
    obtain ⟨understood, hreply, hlabel⟩ :=
      perform_socket_label sockets (String.ofList (label.toList ++ zeros k)) n
    obtain ⟨asked, hreply', hlabel'⟩ := perform_socket_label sockets label n
    have hresult : understood = asked := by
      have hsnd := congrArg Prod.snd heq
      rw [ControlCommand.withZeros, respond, hreply, hreply'] at hsnd
      exact Reply.socketResult.inj hsnd
    have hchars := congrArg (fun l => l.toList.length) (hlabel.symm.trans (hresult ▸ hlabel'))
    simp [zeros] at hchars
    exact hk hchars

omit h in
theorem setFreelistHeadroomFor_of_forall_ne {label : String} {sockets : List RegisteredSocket}
    (hlabel : ∀ s ∈ sockets, s.label ≠ label) (headroom : BitVec 64) :
    setFreelistHeadroomFor label headroom sockets = (sockets, none) := by
  induction sockets with
  | nil => rfl
  | cons s sockets ih =>
    obtain ⟨hs, hsockets⟩ := List.forall_mem_cons.mp hlabel
    rw [setFreelistHeadroomFor, if_neg fun hfound => hs hfound.2, ih hsockets]

/-- **A request that leaves room in the buffer sets nothing**, where no label has a zero in it. -/
theorem sockets_serve (hlt : request.length < 4096) {sockets : List RegisteredSocket}
    (hlabels : ∀ s ∈ sockets, '\x00' ∉ s.label.toList) : (serve sockets request).1 = sockets := by
  have hk : 4096 - request.length ≠ 0 := by omega
  rw [serve_of_asks h hlt.le]
  cases command with
  | all n => rw [ControlCommand.withZeros, if_neg hk, respond]
  | socket label n =>
    have hlabel : ∀ s ∈ sockets,
        s.label ≠ String.ofList (label.toList ++ zeros (4096 - request.length)) := by
      intro s hs heq
      refine hlabels s hs ?_
      rw [heq, String.toList_ofList]
      exact List.mem_append_right _ (List.mem_replicate.mpr ⟨hk, rfl⟩)
    rw [ControlCommand.withZeros, respond, perform,
      setFreelistHeadroomFor_of_forall_ne hlabel]

/-- Exactly the requests that fill the buffer are handled as they ask. -/
theorem serve_eq_perform_iff (hlen : request.length ≤ 4096) (sockets : List RegisteredSocket) :
    serve sockets request = perform sockets command ↔ request.length = 4096 := by
  rw [serve_of_asks h hlen]
  constructor
  · intro heq
    by_contra hne
    exact respond_withZeros_ne (by omega) sockets heq
  · intro hfull
    rw [hfull]
    cases command with
    | all n => rfl
    | socket label n =>
      rw [ControlCommand.withZeros, zeros, List.replicate_zero, List.append_nil,
        String.ofList_toList]
      rfl

/-- **A request that leaves room in the buffer is never handled as it asks.** -/
theorem serve_ne_perform (hlt : request.length < 4096) (sockets : List RegisteredSocket) :
    serve sockets request ≠ perform sockets command := fun heq =>
  hlt.ne ((serve_eq_perform_iff h hlt.le sockets).mp heq)

end Requests

/-! ## A sample request -/

/-- A socket with the label "xdp0". -/
def sampleSocket : RegisteredSocket := ⟨"xdp0", .withCapacity 4 none, true⟩

/-- The request of a client that asks for this. -/
def controlRequest (command : ControlCommand) : Bytes :=
  utf8Bytes "POST /control HTTP/1.1\r\nHost: localhost\r\nContent-Length: ".toList ++
    utf8Bytes (Nat.toDigits 10 command.text.length) ++ utf8Bytes blankLine ++
    utf8Bytes command.text

theorem asks_controlRequest_all : Asks (controlRequest (.all 128)) (.all 128) where
  post := by decide
  body := by decide
  plainLabel := trivial

theorem asks_controlRequest_socket :
    Asks (controlRequest (.socket "xdp0" 128)) (.socket "xdp0" 128) where
  post := by decide
  body := by decide
  plainLabel := ⟨by decide, by simp [labelEnds]⟩

/-- The socket named is not the one looked for. -/
theorem serve_ne_perform_socket :
    serve [sampleSocket] (controlRequest (.socket "xdp0" 128)) ≠
      perform [sampleSocket] (.socket "xdp0" 128) :=
  serve_ne_perform asks_controlRequest_socket (by decide) [sampleSocket]

/-- The request for all sockets is a bad one. -/
theorem serve_all_badRequest :
    Asks (controlRequest (.all 128)) (.all 128) ∧
      (controlRequest (.all 128)).length < 4096 ∧
      (serve [sampleSocket] (controlRequest (.all 128))).2.status = 400 ∧
      serve [sampleSocket] (controlRequest (.all 128)) ≠ perform [sampleSocket] (.all 128) := by
  have hlt : (controlRequest (.all 128)).length < 4096 := by decide
  refine ⟨asks_controlRequest_all, hlt, ?_, fun heq => ?_⟩
  · rw [serve_of_asks asks_controlRequest_all hlt.le, ControlCommand.withZeros,
      if_neg (by omega), respond, Reply.status]
  · exact hlt.ne ((serve_eq_perform_iff asks_controlRequest_all hlt.le _).mp heq)

end SmipMwp.Cli
