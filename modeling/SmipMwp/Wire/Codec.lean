import SmipMwp.Foundations.Packing
import SmipMwp.Wire.Header

/-!
# The header codec

`Header::marshal_into` writes the seven fields of a header at the offsets that `Header::parse` reads
them from. The fields tile the first 96 bytes (`contiguous_layout`), so marshalling puts their
encodings one after another (`marshalInto_of_le`), and a buffer cut along the layout is the
encoding of the header it parses to (`cut_layout`). Headers and 96-byte strings are therefore in
bijection, and the codec is that bijection in both directions (`header_codec`).
-/

namespace SmipMwp.Wire

/-- A big-endian scalar of `n` bytes written at `off`: `write_unaligned(v.to_be())`. -/
def writeBe (b : Bytes) (off n v : ℕ) : Bytes := overwrite b off (beBytes n v)

namespace Header

/-- `marshal_into`: the result, and the buffer as it leaves it. -/
def marshalInto (h : Header) (buf : Bytes) : Except ErrBufferTooSmall Unit × Bytes :=
  if buf.length < headerSize then (.error .mk, buf)
  else
    let buf := overwrite buf srcOffset h.srcId.toList
    let buf := overwrite buf dstOffset h.dstId.toList
    let buf := writeBe buf flowOffset 4 h.flowLabel.toNat
    let buf := writeBe buf seqOffset 8 h.seqNum.toNat
    let buf := overwrite buf sessionOffset h.sessionId.toList
    let buf := writeBe buf flagsOffset 2 h.flags.toNat
    let buf := writeBe buf lenOffset 2 h.length.toNat
    (.ok (), buf)

/-- The offset and width of each field. -/
def layout : List (ℕ × ℕ) :=
  [(srcOffset, 32), (dstOffset, 32), (flowOffset, 4), (seqOffset, 8), (sessionOffset, 16),
    (flagsOffset, 2), (lenOffset, 2)]

/-- The encodings of the fields, in the order of the layout. -/
def fields (h : Header) : List Bytes :=
  [h.srcId.toList, h.dstId.toList, beBytes 4 h.flowLabel.toNat, beBytes 8 h.seqNum.toNat,
    h.sessionId.toList, beBytes 2 h.flags.toNat, beBytes 2 h.length.toNat]

/-- **The fields tile the header**: no gap, no overlap, 96 bytes. -/
theorem contiguous_layout : Contiguous 0 layout headerSize := by
  simp only [Contiguous, layout]
  decide

theorem offsetsFrom_fields (h : Header) : offsetsFrom 0 h.fields = layout := by
  simp only [offsetsFrom, fields, Vector.length_toList, length_beBytes]
  rfl

theorem length_flatten_fields (h : Header) : h.fields.flatten.length = headerSize := by
  simp only [fields, List.length_flatten, List.map_cons, List.map_nil, Vector.length_toList,
    length_beBytes]
  rfl

/-! ## Marshalling -/

theorem marshalInto_of_lt (h : Header) {buf : Bytes} (hlt : buf.length < headerSize) :
    h.marshalInto buf = (.error .mk, buf) := if_pos hlt

/-- The first 96 bytes become the encodings of the fields, the others stay. -/
theorem marshalInto_of_le (h : Header) {buf : Bytes} (hle : headerSize ≤ buf.length) :
    h.marshalInto buf = (.ok (), h.fields.flatten ++ buf.drop headerSize) := by
  have hlen := h.length_flatten_fields
  have hfold := foldl_overwrite_offsetsFrom h.fields
    (show 0 + h.fields.flatten.length ≤ buf.length by omega)
  rw [offsetsFrom_fields] at hfold
  rw [marshalInto, if_neg (not_lt.mpr hle)]
  refine congrArg _ (Eq.trans ?_ (hfold.trans ?_))
  · rfl
  · rw [overwrite, List.take_zero, List.nil_append, Nat.zero_add, hlen]

/-! ## Parsing -/

theorem parse_of_lt {buf : Bytes} (hlt : buf.length < headerSize) :
    Header.parse buf = .error .mk := if_pos hlt

theorem beBytes_readBe {b : Bytes} {off n : ℕ} (h : off + n ≤ b.length) :
    beBytes n (readBe b off n) = slice b off n := by
  have hback := beBytes_beNat (slice b off n)
  rwa [length_slice_of_le h] at hback

theorem readBe_lt {b : Bytes} {off n : ℕ} (h : off + n ≤ b.length) : readBe b off n < 256 ^ n := by
  have hlt := beNat_lt (slice b off n)
  rwa [length_slice_of_le h] at hlt

/-- A buffer cut along the layout is the encoding of the header it parses to. -/
theorem cut_layout {b : Bytes} (h : headerSize ≤ b.length) :
    cut b layout = (Packet.header b).fields := by
  have hin := contiguous_layout.inBounds
  have hle : ∀ o ∈ layout, o.1 + o.2 ≤ b.length := fun o ho => (hin o ho).trans h
  simp only [layout, List.forall_mem_cons] at hle
  obtain ⟨hsrc, hdst, hflow, hseq, hsession, hflags, hlength, -⟩ := hle
  simp only [cut, layout, List.map_cons, List.map_nil, fields, Packet.header, Packet.srcId,
    Packet.dstId, Packet.flowLabel, Packet.seqNum]
  rw [toList_readArray hsrc, toList_readArray hdst, toList_readArray hsession,
    UInt32.toNat_ofNat_of_lt' (readBe_lt hflow), UInt64.toNat_ofNat_of_lt' (readBe_lt hseq),
    UInt16.toNat_ofNat_of_lt' (readBe_lt hflags), UInt16.toNat_ofNat_of_lt' (readBe_lt hlength),
    beBytes_readBe hflow, beBytes_readBe hseq, beBytes_readBe hflags, beBytes_readBe hlength]

/-- A header is determined by the encodings of its fields. -/
theorem fields_injective : Function.Injective fields := by
  rintro ⟨src, dst, flow, seq, session, flags, len⟩
    ⟨src', dst', flow', seq', session', flags', len'⟩ h
  simp only [fields, List.cons.injEq, Vector.toList_inj, and_true] at h
  obtain ⟨rfl, rfl, hflow, hseq, rfl, hflags, hlen⟩ := h
  obtain rfl := UInt32.toNat_inj.mp (beBytes_injective flow.toNat_lt flow'.toNat_lt hflow)
  obtain rfl := UInt64.toNat_inj.mp (beBytes_injective seq.toNat_lt seq'.toNat_lt hseq)
  obtain rfl := UInt16.toNat_inj.mp (beBytes_injective flags.toNat_lt flags'.toNat_lt hflags)
  obtain rfl := UInt16.toNat_inj.mp (beBytes_injective len.toNat_lt len'.toNat_lt hlen)
  rfl

/-- The fields of a header, and anything behind them, parse to the header. -/
theorem parse_flatten_fields (h : Header) (rest : Bytes) :
    Header.parse (h.fields.flatten ++ rest) = .ok h := by
  have hlen := h.length_flatten_fields
  have hle : headerSize ≤ (h.fields.flatten ++ rest).length := by
    rw [List.length_append, hlen]
    exact Nat.le_add_right _ _
  have hcut := cut_offsetsFrom [] h.fields
  rw [List.nil_append, List.length_nil, offsetsFrom_fields] at hcut
  have hfields : (Packet.header (h.fields.flatten ++ rest)).fields = h.fields := by
    rw [← cut_layout hle, cut_append_left fun o ho => by
      rw [hlen]
      exact contiguous_layout.inBounds o ho, hcut]
  rw [Packet.parse_eq hle, fields_injective hfields]

/-- The encoding of a parsed header is the bytes it was parsed from. -/
theorem flatten_fields_header {b : Bytes} (h : headerSize ≤ b.length) :
    (Packet.header b).fields.flatten = b.take headerSize := by
  rw [← cut_layout h, flatten_cut contiguous_layout, Nat.sub_zero, slice_zero]

end Header

/-- **The header codec is a bijection on 96 bytes.** Into a buffer of at least 96 bytes a header is
marshalled without changing the bytes behind, and parses back; a header parsed from such a buffer
is marshalled back to the bytes it was parsed from. On a shorter buffer both fail, and marshalling
leaves it alone. -/
theorem header_codec (h : Header) (b : Bytes) :
    (headerSize ≤ b.length →
      (∃ out, h.marshalInto b = (.ok (), out) ∧ out.length = b.length ∧
        out.drop headerSize = b.drop headerSize ∧ Header.parse out = .ok h) ∧
      ∃ p, Header.parse b = .ok p ∧ ∀ b' : Bytes, headerSize ≤ b'.length →
        p.marshalInto b' = (.ok (), b.take headerSize ++ b'.drop headerSize)) ∧
    (b.length < headerSize →
      h.marshalInto b = (.error .mk, b) ∧ Header.parse b = .error .mk) := by
  refine ⟨fun hle => ⟨⟨_, h.marshalInto_of_le hle, ?_, ?_, h.parse_flatten_fields _⟩,
    Packet.header b, Packet.parse_eq hle, fun b' hle' => ?_⟩,
    fun hlt => ⟨h.marshalInto_of_lt hlt, Header.parse_of_lt hlt⟩⟩
  · rw [List.length_append, h.length_flatten_fields, List.length_drop]
    omega
  · rw [← h.length_flatten_fields, List.drop_left]
  · rw [Header.marshalInto_of_le _ hle', Header.flatten_fields_header hle]

end SmipMwp.Wire
