import SmipMwp.Wire.Codec

/-!
# The mutable header view

`HeaderView` is the second zero-copy view: a pointer to the first 96 bytes of a packet, with a
getter and a setter for each field. A setter is a raw write through the pointer, so nothing but its
offset keeps it inside the header. Here the offsets are those of the codec's layout, a setter
replaces one of the seven encodings (`buf_set`), and a run of setters is a parse, an update of the
header and a marshal (`buf_run`, `views_refine_codec`).
-/

namespace SmipMwp.Wire

/-- A mutable borrow of a packet, cast to its first 96 bytes. The buffer is the whole packet: the
writes go through the pointer. -/
structure HeaderView where
  buf : Bytes
  le_length : headerSize ≤ buf.length

/-- The arguments of a setter, one constructor for each. -/
inductive Setter
  | srcId (id : Id)
  | dstId (id : Id)
  | flowLabel (v : UInt32)
  | seqNum (v : UInt64)
  | sessionId (id : Vector UInt8 16)
  | flags (v : UInt16)
  | length (v : UInt16)
  deriving DecidableEq

namespace HeaderView

/-- `HeaderView::view`: the length check, then the cast. -/
def view (b : Bytes) : Except ErrBufferTooSmall HeaderView :=
  if h : b.length < headerSize then .error .mk else .ok ⟨b, not_lt.mp h⟩

def srcId (h : HeaderView) : Id := readArray h.buf srcOffset 32
def dstId (h : HeaderView) : Id := readArray h.buf dstOffset 32
def flowLabel (h : HeaderView) : UInt32 := UInt32.ofNat (readBe h.buf flowOffset 4)
def seqNum (h : HeaderView) : UInt64 := UInt64.ofNat (readBe h.buf seqOffset 8)
def sessionId (h : HeaderView) : Vector UInt8 16 := readArray h.buf sessionOffset 16
def flags (h : HeaderView) : UInt16 := UInt16.ofNat (readBe h.buf flagsOffset 2)
def length (h : HeaderView) : UInt16 := UInt16.ofNat (readBe h.buf lenOffset 2)

/-- A raw write of `src` at `off`, inside the header. -/
def write (h : HeaderView) (off : ℕ) (src : Bytes) (hin : off + src.length ≤ headerSize) :
    HeaderView where
  buf := overwrite h.buf off src
  le_length := by
    rw [length_overwrite (hin.trans h.le_length)]
    exact h.le_length

def setSrcId (h : HeaderView) (id : Id) : HeaderView :=
  h.write srcOffset id.toList (by rw [Vector.length_toList]; decide)

def setDstId (h : HeaderView) (id : Id) : HeaderView :=
  h.write dstOffset id.toList (by rw [Vector.length_toList]; decide)

def setFlowLabel (h : HeaderView) (v : UInt32) : HeaderView :=
  h.write flowOffset (beBytes 4 v.toNat) (by rw [length_beBytes]; decide)

def setSeqNum (h : HeaderView) (v : UInt64) : HeaderView :=
  h.write seqOffset (beBytes 8 v.toNat) (by rw [length_beBytes]; decide)

def setSessionId (h : HeaderView) (id : Vector UInt8 16) : HeaderView :=
  h.write sessionOffset id.toList (by rw [Vector.length_toList]; decide)

def setFlags (h : HeaderView) (v : UInt16) : HeaderView :=
  h.write flagsOffset (beBytes 2 v.toNat) (by rw [length_beBytes]; decide)

def setLength (h : HeaderView) (v : UInt16) : HeaderView :=
  h.write lenOffset (beBytes 2 v.toNat) (by rw [length_beBytes]; decide)

/-- The setter with these arguments. -/
def set (h : HeaderView) : Setter → HeaderView
  | .srcId id => h.setSrcId id
  | .dstId id => h.setDstId id
  | .flowLabel v => h.setFlowLabel v
  | .seqNum v => h.setSeqNum v
  | .sessionId id => h.setSessionId id
  | .flags v => h.setFlags v
  | .length v => h.setLength v

/-- The setters `ss`, in order. -/
def run (h : HeaderView) (ss : List Setter) : HeaderView := ss.foldl set h

@[simp] theorem run_cons (h : HeaderView) (s : Setter) (ss : List Setter) :
    h.run (s :: ss) = (h.set s).run ss := rfl

end HeaderView

/-! ## Setters on the owned header -/

namespace Setter

/-- The position of the field in the layout. -/
def index : Setter → ℕ
  | .srcId _ => 0
  | .dstId _ => 1
  | .flowLabel _ => 2
  | .seqNum _ => 3
  | .sessionId _ => 4
  | .flags _ => 5
  | .length _ => 6

/-- The encoding of the value. -/
def bytes : Setter → Bytes
  | .srcId id => id.toList
  | .dstId id => id.toList
  | .flowLabel v => beBytes 4 v.toNat
  | .seqNum v => beBytes 8 v.toNat
  | .sessionId id => id.toList
  | .flags v => beBytes 2 v.toNat
  | .length v => beBytes 2 v.toNat

end Setter

namespace Header

/-- The header with the field replaced. -/
def replace (h : Header) : Setter → Header
  | .srcId id => { h with srcId := id }
  | .dstId id => { h with dstId := id }
  | .flowLabel v => { h with flowLabel := v }
  | .seqNum v => { h with seqNum := v }
  | .sessionId id => { h with sessionId := id }
  | .flags v => { h with flags := v }
  | .length v => { h with length := v }

/-- Replacing a field replaces its encoding. -/
theorem fields_replace (h : Header) (s : Setter) :
    (h.replace s).fields = h.fields.set s.index s.bytes := by
  cases s <;> rfl

/-- A field that no setter names keeps its encoding. -/
theorem getElem?_fields_foldl_replace (h : Header) {ss : List Setter} {i : ℕ}
    (hi : ∀ s ∈ ss, s.index ≠ i) : (ss.foldl replace h).fields[i]? = h.fields[i]? := by
  induction ss generalizing h with
  | nil => rfl
  | cons s ss ih =>
    rw [List.foldl_cons, ih _ fun s' hs' => hi s' (List.mem_cons_of_mem _ hs'), fields_replace,
      List.getElem?_set_ne (hi s List.mem_cons_self)]

end Header

namespace HeaderView

/-! ## Setters on the buffer -/

/-- A setter writes the encoding of its value at the offset the layout gives its field. -/
theorem exists_offset (h : HeaderView) (s : Setter) :
    ∃ o, Header.layout[s.index]? = some o ∧ s.bytes.length = o.2 ∧
      (h.set s).buf = overwrite h.buf o.1 s.bytes := by
  cases s with
  | srcId id => exact ⟨(srcOffset, 32), rfl, Vector.length_toList, rfl⟩
  | dstId id => exact ⟨(dstOffset, 32), rfl, Vector.length_toList, rfl⟩
  | flowLabel v => exact ⟨(flowOffset, 4), rfl, length_beBytes _ _, rfl⟩
  | seqNum v => exact ⟨(seqOffset, 8), rfl, length_beBytes _ _, rfl⟩
  | sessionId id => exact ⟨(sessionOffset, 16), rfl, Vector.length_toList, rfl⟩
  | flags v => exact ⟨(flagsOffset, 2), rfl, length_beBytes _ _, rfl⟩
  | length v => exact ⟨(lenOffset, 2), rfl, length_beBytes _ _, rfl⟩

/-- One setter: the encoding of the header with the field replaced, and the bytes behind. -/
theorem buf_set {h : HeaderView} {p : Header} {rest : Bytes}
    (hbuf : h.buf = p.fields.flatten ++ rest) (s : Setter) :
    (h.set s).buf = (p.replace s).fields.flatten ++ rest := by
  obtain ⟨o, ho, hlen, hset⟩ := h.exists_offset s
  have hmem : o ∈ Header.layout := List.mem_of_getElem? ho
  have hin : o.1 + s.bytes.length ≤ p.fields.flatten.length := by
    rw [hlen, p.length_flatten_fields]
    exact Header.contiguous_layout.inBounds o hmem
  rw [← p.offsetsFrom_fields] at ho
  have hfield := overwrite_append_flatten [] ho hlen
  rw [List.nil_append, List.nil_append, ← p.fields_replace] at hfield
  rw [hset, hbuf, overwrite_append_left hin, hfield]

/-- A run of setters. -/
theorem buf_run {h : HeaderView} {p : Header} {rest : Bytes}
    (hbuf : h.buf = p.fields.flatten ++ rest) (ss : List Setter) :
    (h.run ss).buf = (ss.foldl Header.replace p).fields.flatten ++ rest := by
  induction ss generalizing h p with
  | nil => exact hbuf
  | cons s ss ih =>
    rw [run_cons, List.foldl_cons]
    exact ih (buf_set hbuf s)

end HeaderView

/-- The getters of a `HeaderViewRef`, as a header. -/
theorem HeaderViewRef.new_eq_header {b : Bytes} (h : headerSize ≤ b.length) :
    ∃ r, HeaderViewRef.new b = .ok r ∧
      (⟨r.srcId, r.dstId, r.flowLabel, r.seqNum, r.sessionId, r.flags, r.length⟩ : Header) =
        Packet.header b :=
  ⟨_, dif_neg (not_lt.mpr h), Packet.header_take b⟩

/-- **The zero-copy views refine the codec.** On a buffer of at least 96 bytes both views exist, and
their getters are the fields of the parsed header. After any run of setters the buffer is the one
obtained by replacing the fields in the parsed header and marshalling it back: a field that no
setter names keeps its bytes, and so does everything past the header. -/
theorem views_refine_codec (b : Bytes) (h : headerSize ≤ b.length) :
    ∃ p r v, Header.parse b = .ok p ∧ HeaderViewRef.new b = .ok r ∧ HeaderView.view b = .ok v ∧
      (⟨r.srcId, r.dstId, r.flowLabel, r.seqNum, r.sessionId, r.flags, r.length⟩ : Header) = p ∧
      (⟨v.srcId, v.dstId, v.flowLabel, v.seqNum, v.sessionId, v.flags, v.length⟩ : Header) = p ∧
      ∀ ss : List Setter,
        (ss.foldl Header.replace p).marshalInto b = (.ok (), (v.run ss).buf) ∧
        (v.run ss).buf.drop headerSize = b.drop headerSize ∧
        ∀ i, (∀ s ∈ ss, s.index ≠ i) →
          (cut (v.run ss).buf Header.layout)[i]? = (cut b Header.layout)[i]? := by
  obtain ⟨r, hr, hget⟩ := HeaderViewRef.new_eq_header h
  have hb : b = (Packet.header b).fields.flatten ++ b.drop headerSize := by
    rw [Header.flatten_fields_header h, List.take_append_drop]
  refine ⟨Packet.header b, r, ⟨b, h⟩, Packet.parse_eq h, hr, dif_neg (not_lt.mpr h), hget, rfl,
    fun ss => ?_⟩
  have hrun := HeaderView.buf_run (h := ⟨b, h⟩) hb ss
  have hlen := (ss.foldl Header.replace (Packet.header b)).length_flatten_fields
  refine ⟨?_, ?_, fun i hi => ?_⟩
  · rw [Header.marshalInto_of_le _ h, hrun]
  · rw [hrun, ← hlen, List.drop_left]
  · have hcut := cut_offsetsFrom [] (ss.foldl Header.replace (Packet.header b)).fields
    rw [List.nil_append, List.length_nil, Header.offsetsFrom_fields] at hcut
    have hin : ∀ o ∈ Header.layout,
        o.1 + o.2 ≤ (ss.foldl Header.replace (Packet.header b)).fields.flatten.length := by
      rw [hlen]
      exact Header.contiguous_layout.inBounds
    rw [hrun, cut_append_left hin, hcut, Header.cut_layout h,
      Header.getElem?_fields_foldl_replace _ hi]

/-- Two setters on the first header of a longer packet. -/
theorem views_refine_codec_sample :
    headerSize ≤ (List.replicate 100 (7 : UInt8)).length ∧
    ∃ p v, Header.parse (List.replicate 100 7) = .ok p ∧
      HeaderView.view (List.replicate 100 7) = .ok v ∧
      ([.flags 1, .length 4].foldl Header.replace p).marshalInto (List.replicate 100 7) =
        (.ok (), (v.run [.flags 1, .length 4]).buf) := by
  have hle : headerSize ≤ (List.replicate 100 (7 : UInt8)).length := by decide
  obtain ⟨p, -, v, hp, -, hv, -, -, hrun⟩ := views_refine_codec _ hle
  exact ⟨hle, p, v, hp, hv, (hrun _).1⟩

end SmipMwp.Wire
