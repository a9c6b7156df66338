import Mathlib.Algebra.Group.Nat.Defs
import Mathlib.Data.List.Basic

/-!
# Text in bytes

Bytes are read as text in chunks. A character in UTF-8 stands for itself; where no character can be
read, U+FFFD stands for as many bytes as begin one, or for a single byte. What is text in UTF-8 is
read as that text, whatever follows it (`fromUtf8Lossy_utf8Bytes`), and an ASCII separator is found
in the text exactly where it is in the bytes (`afterFirst_fromUtf8Lossy`).
-/

namespace SmipMwp

/-! ## Separators -/

section Separators

variable {α : Type*} [DecidableEq α] {sep l l' : List α}

/-- What follows the first occurrence of a separator. -/
def afterFirst (sep : List α) : List α → Option (List α)
  | [] => if sep = [] then some [] else none
  | a :: l => if sep <+: a :: l then some ((a :: l).drop sep.length) else afterFirst sep l

/-- What comes before the first occurrence of a separator, everything if there is none. -/
def beforeFirst (sep : List α) : List α → List α
  | [] => []
  | a :: l => if sep <+: a :: l then [] else a :: beforeFirst sep l

theorem afterFirst_append_self (sep l : List α) : afterFirst sep (sep ++ l) = some l := by
  cases h : sep ++ l with
  | nil =>
    obtain ⟨rfl, rfl⟩ := List.append_eq_nil_iff.mp h
    rfl
  | cons a l' => rw [afterFirst, ← h, if_pos (List.prefix_append sep l), List.drop_left]

theorem length_le_of_afterFirst (h : afterFirst sep l = some l') : sep.length ≤ l.length := by
  induction l with
  | nil =>
    rw [afterFirst] at h
    split_ifs at h with hsep
    exact Nat.le_of_eq (congrArg List.length hsep)
  | cons a l ih =>
    rw [afterFirst] at h
    split_ifs at h with hpre
    · exact hpre.length_le
    · exact Nat.le_succ_of_le (ih h)

/-- What comes after the first occurrence goes on with the list. -/
theorem afterFirst_append (h : afterFirst sep l = some l') (t : List α) :
    afterFirst sep (l ++ t) = some (l' ++ t) := by
  induction l with
  | nil =>
    rw [afterFirst] at h
    split_ifs at h with hsep
    obtain rfl := Option.some.inj h
    rw [hsep]
    exact afterFirst_append_self [] t
  | cons a l ih =>
    have hlen := length_le_of_afterFirst h
    rw [afterFirst] at h
    rw [List.cons_append, afterFirst, ← List.cons_append]
    split_ifs at h with hpre
    · rw [if_pos (hpre.trans (List.prefix_append _ t)), ← Option.some.inj h,
        List.drop_append_of_le_length hlen]
    · have hnot : ¬ sep <+: a :: l ++ t := fun hpre' =>
        hpre (List.prefix_of_prefix_length_le hpre' (List.prefix_append _ t) hlen)
      rw [if_neg hnot, ih h]

variable {s : α} {pre : List α}

omit [DecidableEq α] in
theorem not_prefix_cons (hs : sep.head? = some s) {a : α} (h : s ≠ a) : ¬ sep <+: a :: l := by
  obtain ⟨sep, rfl⟩ := List.head?_eq_some_iff.mp hs
  exact fun hpre => h (List.cons_prefix_cons.mp hpre).1

/-- No occurrence begins where the first entry of the separator is missing. -/
theorem afterFirst_skip (hs : sep.head? = some s) (h : s ∉ pre) (l : List α) :
    afterFirst sep (pre ++ l) = afterFirst sep l := by
  induction pre with
  | nil => rfl
  | cons a pre ih =>
    obtain ⟨ha, hpre⟩ := not_or.mp (mt List.mem_cons.mpr h)
    rw [List.cons_append, afterFirst, if_neg (not_prefix_cons hs ha), ih hpre]

theorem afterFirst_of_notMem (hs : sep.head? = some s) (h : s ∉ l) : afterFirst sep l = none := by
  have hne : sep ≠ [] := by
    rintro rfl
    exact Option.some_ne_none s hs.symm
  rw [← List.append_nil l, afterFirst_skip hs h, afterFirst, if_neg hne]

theorem beforeFirst_of_notMem (hs : sep.head? = some s) (h : s ∉ l) : beforeFirst sep l = l := by
  induction l with
  | nil => rfl
  | cons a l ih =>
    obtain ⟨ha, hl⟩ := not_or.mp (mt List.mem_cons.mpr h)
    rw [beforeFirst, if_neg (not_prefix_cons hs ha), ih hl]

theorem beforeFirst_append (hs : sep.head? = some s) (h : s ∉ pre) (l : List α) :
    beforeFirst sep (pre ++ (sep ++ l)) = pre := by
  induction pre with
  | nil =>
    obtain ⟨sep, rfl⟩ := List.head?_eq_some_iff.mp hs
    exact if_pos (List.prefix_append (s :: sep) l)
  | cons a pre ih =>
    obtain ⟨ha, hpre⟩ := not_or.mp (mt List.mem_cons.mpr h)
    rw [List.cons_append, beforeFirst, if_neg (not_prefix_cons hs ha), ih hpre]

/-- A list with a separator is cut there. -/
theorem beforeFirst_append_afterFirst (h : afterFirst sep l = some l') :
    beforeFirst sep l ++ (sep ++ l') = l := by
  induction l with
  | nil =>
    rw [afterFirst] at h
    split_ifs at h with hsep
    rw [hsep, ← Option.some.inj h]
    rfl
  | cons a l ih =>
    rw [afterFirst] at h
    rw [beforeFirst]
    split_ifs at h ⊢ with hpre
    · obtain ⟨rest, hrest⟩ := hpre
      rw [← hrest, List.drop_left] at h
      rw [List.nil_append, ← Option.some.inj h, hrest]
    · rw [List.cons_append, ih h]

end Separators

/-! ## UTF-8 -/

/-- The bytes of a text. -/
def utf8Bytes (text : List Char) : List UInt8 := text.flatMap String.utf8EncodeChar

/-- A byte 10xxxxxx. -/
def isContinuation (b : UInt8) : Bool := 0x80 ≤ b && b ≤ 0xBF

/-- The second bytes of the characters of three and four bytes that begin so. -/
def isSecond (first second : UInt8) : Bool :=
  if first = 0xE0 then 0xA0 ≤ second && second ≤ 0xBF
  else if first = 0xED then 0x80 ≤ second && second ≤ 0x9F
  else if first = 0xF0 then 0x90 ≤ second && second ≤ 0xBF
  else if first = 0xF4 then 0x80 ≤ second && second ≤ 0x8F
  else 0xE1 ≤ first && first ≤ 0xF3 && isContinuation second

/-- The number of bytes that are replaced where no character can be read. -/
def rejectedLength : List UInt8 → ℕ
  | first :: second :: rest =>
    if isSecond first second then
      if 0xF0 ≤ first ∧ rest.head?.any isContinuation then 3 else 2
    else 1
  | _ => 1

/-- The character at the front, and the number of bytes it is read from. -/
def nextChar (bs : List UInt8) : Char × ℕ :=
  match bs.toByteArray.utf8DecodeChar? 0 with
  | some c => (c, c.utf8Size)
  | none => ('\uFFFD', rejectedLength bs)

theorem rejectedLength_pos (bs : List UInt8) : 0 < rejectedLength bs := by
  unfold rejectedLength
  split
  · split_ifs <;> decide
  · decide

theorem nextChar_pos (bs : List UInt8) : 0 < (nextChar bs).2 := by
  unfold nextChar
  split
  · exact Char.utf8Size_pos _
  · exact rejectedLength_pos bs

/-- `String::from_utf8_lossy`. -/
def fromUtf8Lossy : List UInt8 → List Char
  | [] => []
  | b :: bs => (nextChar (b :: bs)).1 :: fromUtf8Lossy ((b :: bs).drop (nextChar (b :: bs)).2)
termination_by bs => bs.length
decreasing_by
  have hpos := nextChar_pos (b :: bs)
  rw [List.length_drop, List.length_cons]
  omega

theorem utf8EncodeChar_of_lt {c : Char} (h : c.toNat < 128) :
    String.utf8EncodeChar c = [UInt8.ofNat c.toNat] :=
  if_pos (Nat.le_of_lt_succ h)

/-- The bytes of the other characters are not ASCII. -/
theorem le_of_mem_utf8EncodeChar {c : Char} (h : 128 ≤ c.toNat) {x : UInt8}
    (hx : x ∈ String.utf8EncodeChar c) : 128 ≤ x.toNat := by
  have hval : c.val.toNat = c.toNat := rfl
  unfold String.utf8EncodeChar at hx
  simp only [hval] at hx
  split_ifs at hx with h₁ h₂ h₃
  · omega
  all_goals
    simp only [List.mem_cons, List.not_mem_nil, or_false] at hx
    rcases hx with rfl | rfl | rfl | rfl <;> rw [UInt8.toNat_ofNat'] <;> omega

theorem nextChar_utf8EncodeChar (c : Char) (bs : List UInt8) :
    nextChar (String.utf8EncodeChar c ++ bs) = (c, c.utf8Size) := by
  rw [nextChar, List.toByteArray_append, ByteArray.utf8DecodeChar?_utf8EncodeChar_append]

theorem fromUtf8Lossy_of_ne_nil {bs : List UInt8} (h : bs ≠ []) :
    fromUtf8Lossy bs = (nextChar bs).1 :: fromUtf8Lossy (bs.drop (nextChar bs).2) := by
  obtain ⟨b, bs, rfl⟩ := List.exists_cons_of_ne_nil h
  rw [fromUtf8Lossy]

theorem utf8EncodeChar_ne_nil (c : Char) : String.utf8EncodeChar c ≠ [] :=
  List.ne_nil_of_length_pos (String.length_utf8EncodeChar c ▸ Char.utf8Size_pos c)

theorem fromUtf8Lossy_utf8EncodeChar (c : Char) (bs : List UInt8) :
    fromUtf8Lossy (String.utf8EncodeChar c ++ bs) = c :: fromUtf8Lossy bs := by
  have hne := List.append_ne_nil_of_left_ne_nil (utf8EncodeChar_ne_nil c) bs
  rw [fromUtf8Lossy_of_ne_nil hne, nextChar_utf8EncodeChar, ← String.length_utf8EncodeChar,
    List.drop_left]

/-- **Text in UTF-8 is read as that text**, and the bytes behind it as they would be alone. -/
theorem fromUtf8Lossy_utf8Bytes (text : List Char) (bs : List UInt8) :
    fromUtf8Lossy (utf8Bytes text ++ bs) = text ++ fromUtf8Lossy bs := by
  induction text with
  | nil => rfl
  | cons c text ih =>
    rw [utf8Bytes, List.flatMap_cons, List.append_assoc, fromUtf8Lossy_utf8EncodeChar]
    exact congrArg (c :: ·) ih

/-- A chunk of some bytes: a character, and the bytes that it is read from. -/
structure IsChunk (c : Char) (chunk : List UInt8) : Prop where
  ne_nil : chunk ≠ []
  ascii : c.toNat < 128 → chunk = [UInt8.ofNat c.toNat]
  other : 128 ≤ c.toNat → ∀ x ∈ chunk, 128 ≤ x.toNat

theorem isChunk_utf8EncodeChar (c : Char) : IsChunk c (String.utf8EncodeChar c) where
  ne_nil := utf8EncodeChar_ne_nil c
  ascii := utf8EncodeChar_of_lt
  other h _ := le_of_mem_utf8EncodeChar h

theorem le_of_isContinuation {b : UInt8} (h : isContinuation b) : 128 ≤ b.toNat := by
  simp only [isContinuation, Bool.and_eq_true, decide_eq_true_eq, UInt8.le_iff_toNat_le] at h
  exact h.1

theorem le_of_isSecond {first second : UInt8} (h : isSecond first second) :
    128 ≤ second.toNat := by
  unfold isSecond at h
  split_ifs at h
  case neg =>
    simp only [Bool.and_eq_true] at h
    exact le_of_isContinuation h.2
  all_goals
    simp only [Bool.and_eq_true, decide_eq_true_eq, UInt8.le_iff_toNat_le, UInt8.toNat_ofNat] at h
    omega

/-- An ASCII byte can always be read. -/
theorem le_of_utf8DecodeChar?_eq_none {b : UInt8} {bs : List UInt8}
    (h : (b :: bs).toByteArray.utf8DecodeChar? 0 = none) : 128 ≤ b.toNat := by
  by_contra hlt
  have hc : (Char.ofNat b.toNat).toNat = b.toNat := by
    rw [Char.ofNat, dif_pos (Or.inl (by omega))]
    rfl
  have hb : b :: bs = String.utf8EncodeChar (Char.ofNat b.toNat) ++ bs := by
    rw [utf8EncodeChar_of_lt (by omega), hc, UInt8.ofNat_toNat]
    rfl
  rw [hb, List.toByteArray_append, ByteArray.utf8DecodeChar?_utf8EncodeChar_append] at h
  exact Option.some_ne_none _ h

/-- No ASCII byte is replaced. -/
theorem le_of_mem_rejected {b : UInt8} (hb : 128 ≤ b.toNat) (bs : List UInt8) :
    ∀ x ∈ (b :: bs).take (rejectedLength (b :: bs)), 128 ≤ x.toNat := by
  cases bs with
  | nil => exact List.forall_mem_singleton.mpr hb
  | cons second rest =>
    rw [rejectedLength]
    split_ifs with hsecond hthird
    · obtain ⟨third, hhead, hcont⟩ := (Option.any_eq_true _ _).mp hthird.2
      obtain ⟨rest, rfl⟩ := List.head?_eq_some_iff.mp hhead
      simp only [List.take_succ_cons, List.take_zero, List.forall_mem_cons]
      exact ⟨hb, le_of_isSecond hsecond, le_of_isContinuation hcont, by simp⟩
    · simp only [List.take_succ_cons, List.take_zero, List.forall_mem_cons]
      exact ⟨hb, le_of_isSecond hsecond, by simp⟩
    · exact List.forall_mem_singleton.mpr hb

/-- Bytes are read chunk by chunk. -/
theorem exists_isChunk {bs : List UInt8} (h : bs ≠ []) :
    ∃ c chunk rest, IsChunk c chunk ∧ bs = chunk ++ rest ∧
      fromUtf8Lossy bs = c :: fromUtf8Lossy rest := by
  cases hdec : bs.toByteArray.utf8DecodeChar? 0 with
  | some c =>
    obtain ⟨t, ht⟩ := ByteArray.exists_of_utf8DecodeChar?_eq_some hdec
    have hbs : bs = String.utf8EncodeChar c ++ t.data.toList := by
      have hdata := congrArg (fun bytes => bytes.data.toList) ht
      simpa only [ByteArray.toList_data_append, List.toList_data_toByteArray] using hdata
    exact ⟨c, _, t.data.toList, isChunk_utf8EncodeChar c, hbs,
      hbs ▸ fromUtf8Lossy_utf8EncodeChar c t.data.toList⟩
  | none =>
    obtain ⟨b, bs, rfl⟩ := List.exists_cons_of_ne_nil h
    have hnext : nextChar (b :: bs) = ('\uFFFD', rejectedLength (b :: bs)) := by
      rw [nextChar, hdec]
    refine ⟨'\uFFFD', _, (b :: bs).drop (rejectedLength (b :: bs)), ⟨?_, ?_, fun _ => ?_⟩,
      (List.take_append_drop _ _).symm, ?_⟩
    case refine_1 =>
      have hpos := rejectedLength_pos (b :: bs)
      exact mt List.take_eq_nil_iff.mp (by simp; omega)
    case refine_2 => exact fun hlt => absurd hlt (by decide)
    case refine_3 => exact le_of_mem_rejected (le_of_utf8DecodeChar?_eq_none hdec) bs
    case refine_4 => rw [fromUtf8Lossy_of_ne_nil h, hnext]

/-! ## ASCII separators -/

section Ascii

theorem ascii_of_all {text : List Char} (h : text.all fun c => c.toNat < 128) :
    ∀ c ∈ text, c.toNat < 128 := by
  simpa using h

variable {sep : List Char} (hsep : ∀ c ∈ sep, c.toNat < 128)
include hsep

theorem utf8Bytes_of_ascii : utf8Bytes sep = sep.map fun c => UInt8.ofNat c.toNat := by
  induction sep with
  | nil => rfl
  | cons s sep ih =>
    obtain ⟨hs, hsep⟩ := List.forall_mem_cons.mp hsep
    rw [utf8Bytes, List.flatMap_cons, utf8EncodeChar_of_lt hs, List.map_cons, ← ih hsep]
    rfl

theorem prefix_of_prefix_fromUtf8Lossy {bs : List UInt8} (h : sep <+: fromUtf8Lossy bs) :
    utf8Bytes sep <+: bs := by
  induction sep generalizing bs with
  | nil => exact List.nil_prefix
  | cons s sep ih =>
    obtain ⟨hs, hsep'⟩ := List.forall_mem_cons.mp hsep
    have hne : bs ≠ [] := by
      rintro rfl
      exact absurd (List.prefix_nil.mp (fromUtf8Lossy.eq_1 ▸ h)) (List.cons_ne_nil s sep)
    obtain ⟨c, chunk, rest, hchunk, rfl, hread⟩ := exists_isChunk hne
    rw [hread, List.cons_prefix_cons] at h
    obtain ⟨rfl, hrest⟩ := h
    rw [hchunk.ascii hs, utf8Bytes, List.flatMap_cons, utf8EncodeChar_of_lt hs]
    exact (List.prefix_append_right_inj _).mpr (ih hsep' hrest)

/-- **An ASCII text is at the front of what is read exactly if** its bytes are at the front. -/
theorem prefix_fromUtf8Lossy_iff {bs : List UInt8} :
    sep <+: fromUtf8Lossy bs ↔ utf8Bytes sep <+: bs := by
  constructor
  · exact prefix_of_prefix_fromUtf8Lossy hsep
  · rintro ⟨rest, rfl⟩
    exact ⟨fromUtf8Lossy rest, (fromUtf8Lossy_utf8Bytes sep rest).symm⟩

/-- No occurrence of the bytes begins within a chunk. -/
theorem afterFirst_isChunk (hne : sep ≠ []) {c : Char} {chunk rest : List UInt8}
    (hchunk : IsChunk c chunk) (hnot : ¬ utf8Bytes sep <+: chunk ++ rest) :
    afterFirst (utf8Bytes sep) (chunk ++ rest) = afterFirst (utf8Bytes sep) rest := by
  rcases Nat.lt_or_ge c.toNat 128 with hc | hc
  · rw [hchunk.ascii hc] at hnot ⊢
    exact if_neg hnot
  · obtain ⟨s, sep, rfl⟩ := List.exists_cons_of_ne_nil hne
    rw [utf8Bytes_of_ascii hsep, List.map_cons]
    refine afterFirst_skip rfl (fun hmem => ?_) rest
    have hs := hsep s List.mem_cons_self
    have hle := hchunk.other hc _ hmem
    rw [UInt8.toNat_ofNat_of_lt' (by change _ < 256; omega)] at hle
    omega

/-- **An ASCII separator is found in what is read where its bytes are.** -/
theorem afterFirst_fromUtf8Lossy (hne : sep ≠ []) (bs : List UInt8) :
    afterFirst sep (fromUtf8Lossy bs) = (afterFirst (utf8Bytes sep) bs).map fromUtf8Lossy := by
  -- Chunk by chunk: what is left of the bytes gets shorter.
  induction hn : bs.length using Nat.strongRecOn generalizing bs with
  | _ n ih =>
  subst hn
  rcases eq_or_ne bs [] with rfl | hbs
  · have hbytes : utf8Bytes sep ≠ [] := by
      rw [utf8Bytes_of_ascii hsep]
      exact mt List.map_eq_nil_iff.mp hne
    rw [fromUtf8Lossy, afterFirst, afterFirst, if_neg hne, if_neg hbytes, Option.map_none]
  by_cases hpre : utf8Bytes sep <+: bs
  · obtain ⟨rest, rfl⟩ := hpre
    rw [fromUtf8Lossy_utf8Bytes, afterFirst_append_self, afterFirst_append_self, Option.map_some]
  · obtain ⟨c, chunk, rest, hchunk, rfl, hread⟩ := exists_isChunk hbs
    have hlt : rest.length < (chunk ++ rest).length := by
      rw [List.length_append]
      exact Nat.lt_add_of_pos_left (List.length_pos_of_ne_nil hchunk.ne_nil)
    have hnot : ¬ sep <+: c :: fromUtf8Lossy rest :=
      hread ▸ mt (prefix_of_prefix_fromUtf8Lossy hsep) hpre
    rw [hread, afterFirst_isChunk hsep hne hchunk hpre, afterFirst, if_neg hnot, ih _ hlt rest rfl]

end Ascii

/-! ## Words and numbers -/

/-- `char::is_whitespace`, the Unicode property `White_Space`. -/
def isWhitespace (c : Char) : Bool :=
  [0x20, 0x85, 0xA0, 0x1680, 0x2028, 0x2029, 0x202F, 0x205F, 0x3000].contains c.toNat ||
    9 ≤ c.toNat && c.toNat ≤ 13 || 0x2000 ≤ c.toNat && c.toNat ≤ 0x200A

/-- `split_whitespace().next().unwrap_or("")`. -/
def firstWord (text : List Char) : List Char :=
  (text.dropWhile isWhitespace).takeWhile fun c => !isWhitespace c

/-- `parse::<usize>`. -/
def parseUsize (text : List Char) : Option (BitVec 64) :=
  let digits := if text.head? = some '+' then text.tail else text
  if !digits.isEmpty && digits.all Char.isDigit then
    let value := Nat.ofDigitChars 10 digits 0
    if value < 2 ^ 64 then some (BitVec.ofNat 64 value) else none
  else none

/-- A number as `Display` writes it. -/
def decimal (n : BitVec 64) : List Char := Nat.toDigits 10 n.toNat

theorem isDigit_of_mem_decimal {n : BitVec 64} {c : Char} (h : c ∈ decimal n) : c.isDigit :=
  Nat.isDigit_of_mem_toDigits (by decide) (by decide) h

theorem decimal_ne_nil (n : BitVec 64) : decimal n ≠ [] := Nat.toDigits_ne_nil

theorem not_isWhitespace_of_isDigit {c : Char} (h : c.isDigit) : isWhitespace c = false := by
  have hrange : 48 ≤ c.toNat ∧ c.toNat ≤ 57 := Char.isDigit_iff_toNat.mp h
  simp [isWhitespace]
  omega

theorem firstWord_append {word : List Char} (hne : word ≠ [])
    (hword : ∀ c ∈ word, isWhitespace c = false) (t : List Char) :
    firstWord (word ++ t) = word ++ t.takeWhile fun c => !isWhitespace c := by
  have hdrop : (word ++ t).dropWhile isWhitespace = word ++ t := by
    obtain ⟨c, word, rfl⟩ := List.exists_cons_of_ne_nil hne
    rw [List.cons_append, List.dropWhile_cons_of_neg]
    rw [hword c List.mem_cons_self]
    exact Bool.false_ne_true
  rw [firstWord, hdrop, List.takeWhile_append_of_pos fun c hc => ?_]
  rw [hword c hc]
  rfl

theorem firstWord_decimal_append (n : BitVec 64) (t : List Char) :
    firstWord (decimal n ++ t) = decimal n ++ t.takeWhile fun c => !isWhitespace c :=
  firstWord_append (decimal_ne_nil n)
    (fun _ hc => not_isWhitespace_of_isDigit (isDigit_of_mem_decimal hc)) t

/-- A number does not begin with a plus sign. -/
theorem parseUsize_decimal_append (n : BitVec 64) (t : List Char) :
    parseUsize (decimal n ++ t) =
      if t.all Char.isDigit then
        if Nat.ofDigitChars 10 (decimal n ++ t) 0 < 2 ^ 64 then
          some (BitVec.ofNat 64 (Nat.ofDigitChars 10 (decimal n ++ t) 0))
        else none
      else none := by
  obtain ⟨c, digits, hdigits⟩ := List.exists_cons_of_ne_nil (decimal_ne_nil n)
  have hhead : (decimal n ++ t).head? ≠ some '+' := by
    intro h
    have hc := isDigit_of_mem_decimal (hdigits ▸ List.mem_cons_self : c ∈ decimal n)
    rw [hdigits, List.cons_append, List.head?_cons] at h
    obtain rfl := Option.some.inj h
    exact absurd hc (by decide)
  have hall : (decimal n).all Char.isDigit :=
    List.all_eq_true.mpr fun c hc => isDigit_of_mem_decimal hc
  have hne : (decimal n ++ t).isEmpty = false := by
    rw [hdigits]
    rfl
  rw [parseUsize, if_neg hhead]
  simp only [hne, Bool.not_false, Bool.true_and, List.all_append, hall]

/-- **A number is read back.** -/
theorem parseUsize_decimal (n : BitVec 64) : parseUsize (decimal n) = some n := by
  have h := parseUsize_decimal_append n []
  have hvalue : Nat.ofDigitChars 10 (decimal n) 0 = n.toNat := Nat.ofDigitChars_ten_toDigits
  rw [List.append_nil, hvalue, List.all_nil, if_pos rfl, if_pos n.isLt, BitVec.ofNat_toNat,
    BitVec.setWidth_eq] at h
  exact h

end SmipMwp
