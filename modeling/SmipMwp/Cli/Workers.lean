import SmipMwp.Cli.Bridge
import SmipMwp.Foundations.RoundRobin
import SmipMwp.Foundations.Runs
import SmipMwp.Foundations.Text
import Mathlib.Data.List.DropRight
import Mathlib.Data.List.Forall2

/-!
# Worker cores

The cores of the workers are given as a text such as `0, 2-5`: chunks between commas, each a number
or a range, with white space around chunks and around the ends of a range, and empty chunks skipped.
What the parser accepts is the grammar of `CoreChunk.IsText`, and the result is the chunks' cores in
their order (`parseCoreList_eq_ok_iff`); chunks written down are read back (`parseCoreList_text`).

The workers go round the cores, all of them in order as often as they fit, and then the first ones;
cores that the list has once get equally many workers, up to one (`workers_go_round`).

A range is expanded to a list, so one that does not fit into memory aborts the process; the list
here has no bound.
-/

namespace SmipMwp.Cli

/-! ## Numbers -/

/-- `ParseIntError`, as far as `parse::<usize>` returns it. -/
inductive ParseIntError
  | empty
  | invalidDigit
  | posOverflow
  deriving DecidableEq

def ParseIntError.text : ParseIntError → List Char
  | empty => "cannot parse integer from empty string".toList
  | invalidDigit => "invalid digit found in string".toList
  | posOverflow => "number too large to fit in target type".toList

/-- The digits are read in order, up to the first that is none or that does not fit. -/
def readDigits (value : ℕ) : List Char → Except ParseIntError ℕ
  | [] => .ok value
  | c :: cs =>
    if c.isDigit then
      let value := 10 * value + (c.toNat - '0'.toNat)
      if value < 2 ^ 64 then readDigits value cs else .error .posOverflow
    else .error .invalidDigit

/-- `parse::<usize>`, with its error. -/
def parseNumber (text : List Char) : Except ParseIntError ℕ :=
  if text = [] then .error .empty
  else if text = ['+'] then .error .invalidDigit
  else if text.head? = some '+' then readDigits 0 text.tail
  else readDigits 0 text

/-! ## Core lists -/

/-- `str::trim`. -/
def trim (text : List Char) : List Char := (text.dropWhile isWhitespace).rdropWhile isWhitespace

/-- A core id, which an error shows as `shown`. -/
def parseCoreId (shown text : List Char) : Except (List Char) ℕ :=
  (parseNumber text).mapError fun err =>
    "invalid core id '".toList ++ shown ++ "': ".toList ++ err.text

/-- The cores of a chunk. The errors show the ends of a range before they are trimmed. -/
def parseChunk (chunk : List Char) : Except (List Char) (List ℕ) :=
  match afterFirst ['-'] chunk with
  | some rest => do
    let start ← parseCoreId (beforeFirst ['-'] chunk) (trim (beforeFirst ['-'] chunk))
    let last ← parseCoreId rest (trim rest)
    if start > last then .error ("invalid core range '".toList ++ chunk ++ "'".toList)
    else .ok (List.range' start (last + 1 - start))
  | none => (parseCoreId chunk chunk).map fun core => [core]

/-- The chunks between the commas that are not empty. -/
def coreChunks (spec : List Char) : List (List Char) :=
  ((spec.splitOn ',').map trim).filter fun chunk => !chunk.isEmpty

def parseCoreList (spec : List Char) : Except (List Char) (List ℕ) := do
  let cores ← (coreChunks spec).foldlM (fun cores chunk => (parseChunk chunk).map (cores ++ ·)) []
  if cores.isEmpty then .error "no worker cores specified".toList else .ok cores

/-- `resolve_worker_cores`, with the variable `MOHAWK_WORKER_CORES` and the cores of the machine. -/
def resolveWorkerCores (spec : Option (List Char)) (availableCoreIds : List ℕ) : List ℕ :=
  match spec.map parseCoreList with
  | some (.ok cores) => cores
  | _ => availableCoreIds

/-! ## The grammar -/

/-- A number: digits, perhaps behind a plus sign. -/
def IsNumber (n : ℕ) (text : List Char) : Prop :=
  ∃ digits, digits ≠ [] ∧ (∀ c ∈ digits, c.isDigit) ∧ (text = digits ∨ text = '+' :: digits) ∧
    Nat.ofDigitChars 10 digits 0 = n

/-- A core, or a range of cores, which is not empty. -/
inductive CoreChunk
  | core (n : ℕ) (lt : n < 2 ^ 64)
  | range (start last : ℕ) (le : start ≤ last) (lt : last < 2 ^ 64)

namespace CoreChunk

def cores : CoreChunk → List ℕ
  | core n _ => [n]
  | range start last _ _ => List.range' start (last + 1 - start)

/-- The texts of a chunk: a range has its ends on either side of a hyphen. -/
def IsText (text : List Char) : CoreChunk → Prop
  | core n _ => IsNumber n text
  | range start last _ _ =>
    ∃ before after, text = before ++ '-' :: after ∧ IsNumber start (trim before) ∧
      IsNumber last (trim after)

/-- The text without white space and plus signs. -/
def text : CoreChunk → List Char
  | core n _ => Nat.toDigits 10 n
  | range start last _ _ => Nat.toDigits 10 start ++ '-' :: Nat.toDigits 10 last

theorem cores_ne_nil (chunk : CoreChunk) : chunk.cores ≠ [] := by
  cases chunk with
  | core n _ => exact List.cons_ne_nil _ _
  | range start last hle _ =>
    have hlen : 0 < last + 1 - start := by omega
    exact List.ne_nil_of_length_pos (List.length_range' ▸ hlen)

end CoreChunk

/-! ## Numbers are read -/

theorem le_ofDigitChars (cs : List Char) (value : ℕ) : value ≤ Nat.ofDigitChars 10 cs value := by
  induction cs generalizing value with
  | nil => exact Nat.le_of_eq Nat.ofDigitChars_nil.symm
  | cons c cs ih =>
    rw [Nat.ofDigitChars_cons]
    exact Nat.le_trans (by omega) (ih _)

theorem readDigits_eq_ok_iff {cs : List Char} {value n : ℕ} (hvalue : value < 2 ^ 64) :
    readDigits value cs = .ok n ↔
      (∀ c ∈ cs, c.isDigit) ∧ Nat.ofDigitChars 10 cs value = n ∧ n < 2 ^ 64 := by
  induction cs generalizing value with
  | nil =>
    rw [readDigits, Nat.ofDigitChars_nil, Except.ok.injEq]
    refine ⟨fun h => ⟨List.forall_mem_nil _, h, h ▸ hvalue⟩, fun h => h.2.1⟩
  | cons c cs ih =>
    have hle := le_ofDigitChars cs (10 * value + (c.toNat - '0'.toNat))
    rw [readDigits, Nat.ofDigitChars_cons, List.forall_mem_cons]
    by_cases hdigit : c.isDigit
    · simp only [if_pos hdigit]
      by_cases hlt : 10 * value + (c.toNat - '0'.toNat) < 2 ^ 64
      · rw [if_pos hlt, ih hlt, and_iff_right hdigit]
      · rw [if_neg hlt]
        constructor
        · rintro ⟨⟩
        · rintro ⟨-, rfl, hn⟩
          exact absurd (hle.trans_lt hn) hlt
    · simp [hdigit]

/-- No digit is a plus sign. -/
theorem ne_plus_of_isDigit {c : Char} (h : c.isDigit) : c ≠ '+' := by
  rintro rfl
  exact absurd h (by decide)

/-- A number has digits only, unless it begins with a plus sign. -/
theorem isNumber_cons_iff {c : Char} {cs : List Char} {n : ℕ} (hc : c ≠ '+') :
    IsNumber n (c :: cs) ↔
      (∀ d ∈ c :: cs, d.isDigit) ∧ Nat.ofDigitChars 10 (c :: cs) 0 = n := by
  constructor
  · rintro ⟨digits, -, hdigits, rfl | h, hn⟩
    · exact ⟨hdigits, hn⟩
    · exact absurd (List.cons.inj h).1 hc
  · rintro ⟨hdigits, hn⟩
    exact ⟨c :: cs, List.cons_ne_nil c cs, hdigits, .inl rfl, hn⟩

theorem isNumber_plus_iff {cs : List Char} {n : ℕ} :
    IsNumber n ('+' :: cs) ↔
      cs ≠ [] ∧ (∀ d ∈ cs, d.isDigit) ∧ Nat.ofDigitChars 10 cs 0 = n := by
  constructor
  · rintro ⟨digits, hne, hdigits, rfl | h, hn⟩
    · exact absurd rfl (ne_plus_of_isDigit (hdigits '+' List.mem_cons_self))
    · obtain rfl := (List.cons.inj h).2
      exact ⟨hne, hdigits, hn⟩
  · rintro ⟨hne, hdigits, hn⟩
    exact ⟨cs, hne, hdigits, .inr rfl, hn⟩

theorem not_isNumber_nil (n : ℕ) : ¬ IsNumber n [] := by
  rintro ⟨digits, hne, -, rfl | h, -⟩
  · exact hne rfl
  · cases h

/-- **The numbers that are read** are those that fit. -/
theorem parseNumber_eq_ok_iff {text : List Char} {n : ℕ} :
    parseNumber text = .ok n ↔ IsNumber n text ∧ n < 2 ^ 64 := by
  rw [parseNumber]
  rcases text with _ | ⟨c, cs⟩
  · rw [if_pos rfl]
    exact ⟨fun h => (by cases h), fun h => absurd h.1 (not_isNumber_nil n)⟩
  rw [if_neg (List.cons_ne_nil c cs)]
  by_cases hc : c = '+'
  · subst hc
    rw [isNumber_plus_iff]
    by_cases hcs : cs = []
    · rw [if_pos (by rw [hcs])]
      exact ⟨fun h => (by cases h), fun h => absurd hcs h.1.1⟩
    · have hne : '+' :: cs ≠ ['+'] := fun h => hcs (List.cons.inj h).2
      rw [if_neg hne, if_pos List.head?_cons, List.tail_cons,
        readDigits_eq_ok_iff (by decide), and_iff_right hcs, and_assoc]
  · have hne : c :: cs ≠ ['+'] := fun h => hc (List.cons.inj h).1
    have hhead : (c :: cs).head? ≠ some '+' := fun h => hc (Option.some.inj h)
    rw [if_neg hne, if_neg hhead, isNumber_cons_iff hc, readDigits_eq_ok_iff (by decide), and_assoc]

/-- A number is a word. -/
theorem IsNumber.mem {text : List Char} {n : ℕ} (h : IsNumber n text) {c : Char} (hc : c ∈ text) :
    c.isDigit ∨ c = '+' := by
  obtain ⟨digits, -, hdigits, rfl | rfl, -⟩ := h
  · exact .inl (hdigits c hc)
  · obtain rfl | hc := List.mem_cons.mp hc
    · exact .inr rfl
    · exact .inl (hdigits c hc)

theorem IsNumber.hyphen_notMem {text : List Char} {n : ℕ} (h : IsNumber n text) : '-' ∉ text := by
  intro hmem
  obtain hdigit | heq := h.mem hmem
  · exact absurd hdigit (by decide)
  · exact absurd heq (by decide)

theorem isNumber_toDigits (n : ℕ) : IsNumber n (Nat.toDigits 10 n) :=
  ⟨_, Nat.toDigits_ne_nil, fun _ hc => Nat.isDigit_of_mem_toDigits (by decide) (by decide) hc,
    .inl rfl, Nat.ofDigitChars_ten_toDigits⟩

/-! ## White space is trimmed -/

theorem trim_eq_self {text : List Char} (h : ∀ c ∈ text, isWhitespace c = false) :
    trim text = text := by
  have hdrop : text.dropWhile isWhitespace = text := by
    cases text with
    | nil => rfl
    | cons c cs =>
      exact List.dropWhile_cons_of_neg (by rw [h c List.mem_cons_self]; exact Bool.false_ne_true)
  rw [trim, hdrop, List.rdropWhile_eq_self_iff]
  intro hne
  rw [h _ (List.getLast_mem hne)]
  exact Bool.false_ne_true

/-- Only white space is trimmed. -/
theorem mem_trim_or {text : List Char} {c : Char} (h : c ∈ text) :
    c ∈ trim text ∨ isWhitespace c := by
  rw [← List.takeWhile_append_dropWhile (p := isWhitespace) (l := text),
    ← List.rdropWhile_append_rtakeWhile (p := isWhitespace) (l := text.dropWhile isWhitespace)] at h
  obtain hfront | hmid | hback := by simpa only [List.mem_append] using h
  · exact .inr (List.mem_takeWhile_imp hfront)
  · exact .inl hmid
  · exact .inr (List.mem_rtakeWhile_imp hback)

/-! ## Chunks are read -/

theorem parseCoreId_eq_ok_iff {shown text : List Char} {n : ℕ} :
    parseCoreId shown text = .ok n ↔ IsNumber n text ∧ n < 2 ^ 64 := by
  rw [← parseNumber_eq_ok_iff, parseCoreId]
  cases parseNumber text with
  | ok m => exact ⟨fun h => congrArg _ (Except.ok.inj h), fun h => congrArg _ (Except.ok.inj h)⟩
  | error e => exact ⟨fun h => (by cases h), fun h => (by cases h)⟩

theorem parseChunk_of_some {chunk after : List Char} (h : afterFirst ['-'] chunk = some after) :
    parseChunk chunk =
      (parseCoreId (beforeFirst ['-'] chunk) (trim (beforeFirst ['-'] chunk))).bind fun start =>
        (parseCoreId after (trim after)).bind fun last =>
          if start > last then .error ("invalid core range '".toList ++ chunk ++ "'".toList)
          else .ok (List.range' start (last + 1 - start)) := by
  rw [parseChunk, h]
  rfl

theorem parseChunk_of_none {chunk : List Char} (h : afterFirst ['-'] chunk = none) :
    parseChunk chunk = (parseCoreId chunk chunk).map fun core => [core] := by
  rw [parseChunk, h]

/-- **The chunks that are read** are the texts of chunks. -/
theorem parseChunk_eq_ok_iff {text : List Char} {cores : List ℕ} :
    parseChunk text = .ok cores ↔ ∃ chunk : CoreChunk, chunk.IsText text ∧ cores = chunk.cores := by
  constructor
  · intro h
    cases hafter : afterFirst ['-'] text with
    | none =>
      rw [parseChunk_of_none hafter] at h
      cases hid : parseCoreId text text with
      | error e => simp [hid, Except.map] at h
      | ok n =>
        obtain ⟨hn, hlt⟩ := parseCoreId_eq_ok_iff.mp hid
        simp only [hid, Except.map, Except.ok.injEq] at h
        exact ⟨.core n hlt, hn, h.symm⟩
    | some after =>
      have htext := beforeFirst_append_afterFirst hafter
      rw [parseChunk_of_some hafter] at h
      generalize beforeFirst ['-'] text = before at h htext
      cases hstart : parseCoreId before (trim before) with
      | error e =>
        rw [hstart] at h
        cases h
      | ok start =>
        cases hlast : parseCoreId after (trim after) with
        | error e =>
          rw [hstart, hlast] at h
          cases h
        | ok last =>
          obtain ⟨hstart', -⟩ := parseCoreId_eq_ok_iff.mp hstart
          obtain ⟨hlast', hlt⟩ := parseCoreId_eq_ok_iff.mp hlast
          rw [hstart, hlast] at h
          change (if start > last then _ else _) = _ at h
          split_ifs at h with hgt
          exact ⟨.range start last (Nat.not_lt.mp hgt) hlt, ⟨before, after, htext.symm, hstart',
            hlast'⟩, (Except.ok.inj h).symm⟩
  · rintro ⟨chunk, htext, rfl⟩
    cases chunk with
    | core n hlt =>
      have hnone : afterFirst ['-'] text = none := afterFirst_of_notMem rfl htext.hyphen_notMem
      rw [parseChunk_of_none hnone, parseCoreId_eq_ok_iff.mpr ⟨htext, hlt⟩]
      rfl
    | range start last hle hlt =>
      obtain ⟨before, after, rfl, hstart, hlast⟩ := htext
      have hnot : '-' ∉ before := by
        intro hmem
        obtain htrim | hspace := mem_trim_or hmem
        · exact hstart.hyphen_notMem htrim
        · exact absurd hspace (by decide)
      have hafter : afterFirst ['-'] (before ++ (['-'] ++ after)) = some after := by
        rw [afterFirst_skip rfl hnot, afterFirst_append_self]
      rw [← List.singleton_append, parseChunk_of_some hafter, beforeFirst_append rfl hnot,
        parseCoreId_eq_ok_iff.mpr ⟨hstart, hle.trans_lt hlt⟩,
        parseCoreId_eq_ok_iff.mpr ⟨hlast, hlt⟩]
      exact if_neg (Nat.not_lt.mpr hle)

/-! ## Lists are read -/

/-- Texts are read one by one. -/
theorem map_parseChunk_iff {texts : List (List Char)} {parts : List (List ℕ)} :
    texts.map parseChunk = parts.map .ok ↔
      ∃ chunks, List.Forall₂ CoreChunk.IsText texts chunks ∧
        parts = chunks.map CoreChunk.cores := by
  induction texts generalizing parts with
  | nil =>
    constructor
    · intro h
      exact ⟨[], .nil, List.map_eq_nil_iff.mp h.symm⟩
    · rintro ⟨_, ⟨⟩, rfl⟩
      rfl
  | cons text texts ih =>
    constructor
    · intro h
      cases parts with
      | nil => cases h
      | cons part parts =>
        rw [List.map_cons, List.map_cons, List.cons.injEq, parseChunk_eq_ok_iff, ih] at h
        obtain ⟨⟨chunk, htext, rfl⟩, chunks, htexts, rfl⟩ := h
        exact ⟨chunk :: chunks, .cons htext htexts, rfl⟩
    · rintro ⟨_, _ | ⟨htext, htexts⟩, rfl⟩
      rw [List.map_cons, List.map_cons, List.map_cons, parseChunk_eq_ok_iff.mpr ⟨_, htext, rfl⟩,
        ih.mpr ⟨_, htexts, rfl⟩]

theorem flatMap_cores_eq_nil {chunks : List CoreChunk} (h : chunks.flatMap CoreChunk.cores = []) :
    chunks = [] := by
  cases chunks with
  | nil => rfl
  | cons chunk chunks =>
    rw [List.flatMap_cons] at h
    exact absurd (List.append_eq_nil_iff.mp h).1 chunk.cores_ne_nil

theorem parseCoreList_of_ok {spec : List Char} {cores : List ℕ}
    (h : (coreChunks spec).foldlM (fun cores chunk => (parseChunk chunk).map (cores ++ ·)) [] =
      .ok cores) :
    parseCoreList spec =
      if cores.isEmpty then .error "no worker cores specified".toList else .ok cores := by
  rw [parseCoreList, h]
  rfl

theorem parseCoreList_of_error {spec e : List Char}
    (h : (coreChunks spec).foldlM (fun cores chunk => (parseChunk chunk).map (cores ++ ·)) [] =
      .error e) :
    parseCoreList spec = .error e := by
  rw [parseCoreList, h]
  rfl

/-- **The core lists that are accepted**: there is a chunk, and all chunks are texts of the grammar;
the cores are theirs in order. -/
theorem parseCoreList_eq_ok_iff {spec : List Char} {cores : List ℕ} :
    parseCoreList spec = .ok cores ↔
      ∃ chunks, chunks ≠ [] ∧ List.Forall₂ CoreChunk.IsText (coreChunks spec) chunks ∧
        cores = chunks.flatMap CoreChunk.cores := by
  constructor
  · intro h
    cases hfold : (coreChunks spec).foldlM
        (fun cores chunk => (parseChunk chunk).map (cores ++ ·)) [] with
    | error e =>
      rw [parseCoreList_of_error hfold] at h
      cases h
    | ok r =>
      rw [parseCoreList_of_ok hfold] at h
      split_ifs at h with hempty
      obtain rfl := Except.ok.inj h
      obtain ⟨parts, hparts, rfl⟩ := foldlM_append_eq_ok_iff.mp hfold
      obtain ⟨chunks, htexts, rfl⟩ := map_parseChunk_iff.mp hparts
      refine ⟨chunks, ?_, htexts, ?_⟩
      · rintro rfl
        exact hempty rfl
      · rw [List.nil_append, List.flatMap_def]
  · rintro ⟨chunks, hne, htexts, rfl⟩
    have hfold : (coreChunks spec).foldlM
        (fun cores chunk => (parseChunk chunk).map (cores ++ ·)) [] =
          .ok (chunks.flatMap CoreChunk.cores) := by
      refine foldlM_append_eq_ok_iff.mpr ⟨_, map_parseChunk_iff.mpr ⟨chunks, htexts, rfl⟩, ?_⟩
      rw [List.nil_append, List.flatMap_def]
    rw [parseCoreList_of_ok hfold, if_neg]
    exact fun hempty => hne (flatMap_cores_eq_nil (List.isEmpty_iff.mp hempty))

/-- **The error of a core list** is that of its first chunk that is no text of the grammar, or that
there is no chunk. -/
theorem parseCoreList_eq_error_iff {spec e : List Char} :
    parseCoreList spec = .error e ↔
      coreChunks spec = [] ∧ e = "no worker cores specified".toList ∨
      ∃ front chunk back, coreChunks spec = front ++ chunk :: back ∧
        (∀ text ∈ front, ∃ c : CoreChunk, c.IsText text) ∧ parseChunk chunk = .error e := by
  have hread (text : List Char) :
      (∃ part, parseChunk text = .ok part) ↔ ∃ c : CoreChunk, c.IsText text := by
    simp only [parseChunk_eq_ok_iff]
    exact ⟨fun ⟨_, c, hc, _⟩ => ⟨c, hc⟩, fun ⟨c, hc⟩ => ⟨_, c, hc, rfl⟩⟩
  have herror : (coreChunks spec).foldlM
      (fun cores chunk => (parseChunk chunk).map (cores ++ ·)) [] = .error e ↔ _ :=
    foldlM_append_eq_error_iff
  simp only [hread] at herror
  cases hfold : (coreChunks spec).foldlM
      (fun cores chunk => (parseChunk chunk).map (cores ++ ·)) [] with
  | error e' =>
    rw [hfold] at herror
    rw [parseCoreList_of_error hfold, herror, or_iff_right]
    rintro ⟨hnil, -⟩
    rw [hnil] at hfold
    cases hfold
  | ok r =>
    rw [hfold] at herror
    have hnot := mt herror.mpr (by rintro ⟨⟩)
    rw [parseCoreList_of_ok hfold, or_iff_left hnot]
    obtain ⟨parts, hparts, rfl⟩ := foldlM_append_eq_ok_iff.mp hfold
    obtain ⟨chunks, htexts, rfl⟩ := map_parseChunk_iff.mp hparts
    rw [List.nil_append, ← List.flatMap_def]
    cases chunks with
    | nil =>
      rw [List.forall₂_nil_right_iff.mp htexts]
      exact ⟨fun h => ⟨rfl, (Except.error.inj h).symm⟩, fun h => congrArg _ h.2.symm⟩
    | cons chunk chunks =>
      have hne : (chunk :: chunks).flatMap CoreChunk.cores ≠ [] := fun h =>
        List.cons_ne_nil _ _ (flatMap_cores_eq_nil h)
      rw [if_neg (mt List.isEmpty_iff.mp hne)]
      constructor
      · rintro ⟨⟩
      · rintro ⟨hnil, -⟩
        rw [hnil] at htexts
        cases htexts

/-! ## The round trip -/

theorem mem_text {chunk : CoreChunk} {c : Char} (h : c ∈ chunk.text) : c.isDigit ∨ c = '-' := by
  have hdigits {n : ℕ} (h : c ∈ Nat.toDigits 10 n) : c.isDigit :=
    Nat.isDigit_of_mem_toDigits (by decide) (by decide) h
  cases chunk with
  | core n _ => exact .inl (hdigits h)
  | range start last _ _ =>
    obtain hstart | hyphen | hlast := by
      simpa only [CoreChunk.text, List.mem_append, List.mem_cons] using h
    · exact .inl (hdigits hstart)
    · exact .inr hyphen
    · exact .inl (hdigits hlast)

theorem not_isWhitespace_of_mem_text {chunk : CoreChunk} {c : Char} (h : c ∈ chunk.text) :
    isWhitespace c = false := by
  obtain hdigit | rfl := mem_text h
  · exact not_isWhitespace_of_isDigit hdigit
  · decide

theorem comma_notMem_text (chunk : CoreChunk) : ',' ∉ chunk.text := by
  intro h
  obtain hdigit | heq := mem_text h
  · exact absurd hdigit (by decide)
  · exact absurd heq (by decide)

theorem isText_text (chunk : CoreChunk) : chunk.IsText chunk.text := by
  have htrim (n : ℕ) : trim (Nat.toDigits 10 n) = Nat.toDigits 10 n :=
    trim_eq_self fun c hc => not_isWhitespace_of_isDigit
      (Nat.isDigit_of_mem_toDigits (by decide) (by decide) hc)
  cases chunk with
  | core n _ => exact isNumber_toDigits n
  | range start last _ _ =>
    refine ⟨_, _, rfl, ?_, ?_⟩
    · rw [htrim]
      exact isNumber_toDigits start
    · rw [htrim]
      exact isNumber_toDigits last

theorem text_ne_nil (chunk : CoreChunk) : chunk.text ≠ [] := by
  cases chunk with
  | core n _ => exact Nat.toDigits_ne_nil
  | range start last _ _ => exact List.append_ne_nil_of_right_ne_nil _ (List.cons_ne_nil _ _)

theorem coreChunks_intercalate {chunks : List CoreChunk} (h : chunks ≠ []) :
    coreChunks ([','].intercalate (chunks.map CoreChunk.text)) = chunks.map CoreChunk.text := by
  have hcomma : ∀ text ∈ chunks.map CoreChunk.text, ',' ∉ text :=
    List.forall_mem_map.mpr fun chunk _ => comma_notMem_text chunk
  rw [coreChunks, List.splitOn_intercalate ',' hcomma (mt List.map_eq_nil_iff.mp h), List.map_map]
  have htrim : trim ∘ CoreChunk.text = CoreChunk.text := by
    funext chunk
    exact trim_eq_self fun c hc => not_isWhitespace_of_mem_text hc
  rw [htrim, List.filter_eq_self]
  refine List.forall_mem_map.mpr fun chunk _ => ?_
  rw [List.isEmpty_eq_false_iff.mpr (text_ne_nil chunk)]
  rfl

/-- **Chunks written down are read back.** -/
theorem parseCoreList_text (chunks : List CoreChunk) (h : chunks ≠ []) :
    parseCoreList ([','].intercalate (chunks.map CoreChunk.text)) =
      .ok (chunks.flatMap CoreChunk.cores) := by
  refine parseCoreList_eq_ok_iff.mpr ⟨chunks, h, ?_, rfl⟩
  rw [coreChunks_intercalate h]
  exact List.forall₂_map_left_iff.mpr (List.forall₂_same.mpr fun chunk _ => isText_text chunk)

theorem parseCoreList_text_two : parseCoreList "7,2-3".toList = .ok [7, 2, 3] := by
  have htext : [','].intercalate
      ([.core 7 (by decide), .range 2 3 (by decide) (by decide)].map CoreChunk.text) =
        "7,2-3".toList := by decide
  rw [← htext]
  exact parseCoreList_text _ (List.cons_ne_nil _ _)

/-! ## Workers -/

theorem map_workerIndex_buildWorkerPlan (workerCount : ℕ) (coreIds : List ℕ) :
    (buildWorkerPlan workerCount coreIds).map WorkerAssignment.workerIndex =
      List.range workerCount := by
  rw [buildWorkerPlan]
  by_cases hzero : workerCount = 0
  · rw [if_pos hzero, hzero]
    rfl
  · rw [if_neg hzero]
    dsimp only
    rw [List.map_map]
    exact List.map_id _

theorem map_coreId_buildWorkerPlan (workerCount : ℕ) {coreIds : List ℕ} (h : coreIds ≠ []) :
    (buildWorkerPlan workerCount coreIds).map WorkerAssignment.coreId =
      (List.range workerCount).map fun i => coreIds.getD (i % coreIds.length) 0 := by
  unfold buildWorkerPlan
  split_ifs with hzero hempty
  · rw [hzero]
    rfl
  · exact absurd (List.isEmpty_iff.mp hempty) h
  · rw [List.map_map]
    rfl

/-- **The workers of an accepted core list** are pinned in rounds over the cores, and cores that the
list has once have equally many of them, up to one. -/
theorem workers_go_round {spec : List Char} {cores : List ℕ} (h : parseCoreList spec = .ok cores)
    (availableCoreIds : List ℕ) (workerCount : ℕ) :
    let plan := buildWorkerPlan workerCount (resolveWorkerCores (some spec) availableCoreIds)
    plan.map WorkerAssignment.workerIndex = List.range workerCount ∧
      plan.map WorkerAssignment.coreId =
        (List.replicate (workerCount / cores.length) cores).flatten ++
          cores.take (workerCount % cores.length) ∧
      ∀ c d, cores.count c = 1 → cores.count d = 1 →
        (plan.map WorkerAssignment.coreId).count c ≤
          (plan.map WorkerAssignment.coreId).count d + 1 := by
  have hresolve : resolveWorkerCores (some spec) availableCoreIds = cores := by
    rw [resolveWorkerCores, Option.map_some, h]
  obtain ⟨chunks, hchunks, -, hcores⟩ := parseCoreList_eq_ok_iff.mp h
  have hne : cores ≠ [] := hcores ▸ mt flatMap_cores_eq_nil hchunks
  intro plan
  have hplan : plan.map WorkerAssignment.coreId =
      (List.range workerCount).map fun i => cores.getD (i % cores.length) 0 := by
    rw [← map_coreId_buildWorkerPlan workerCount hne, ← hresolve]
  refine ⟨map_workerIndex_buildWorkerPlan _ _, ?_, fun c d hc hd => ?_⟩
  · rw [hplan]
    exact map_getD_mod hne 0 workerCount
  · rw [hplan]
    exact count_getD_mod_le 0 workerCount hc hd

theorem workers_go_round_five :
    (buildWorkerPlan 5 (resolveWorkerCores (some "7, 2-3".toList) [0])).map
      WorkerAssignment.coreId = [7, 2, 3, 7, 2] := by
  have h : parseCoreList "7, 2-3".toList = .ok [7, 2, 3] := by decide
  exact (workers_go_round h [0] 5).2.1

end SmipMwp.Cli
