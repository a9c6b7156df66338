import SmipMwp.Foundations.Words

/-!
# The SMIP header

The 96-byte header in front of every packet: its fields by raw offset, the owned `Header` that
`parse` returns, and the zero-copy view `HeaderViewRef` the datapath reads with. A view carries
the proof that it covers a whole header, so its getters are total.
-/

namespace SmipMwp.Wire

/-- A node identifier, `[u8; 32]`. -/
abbrev Id := Vector UInt8 32

def headerSize : ℕ := 96

def srcOffset : ℕ := 0
def dstOffset : ℕ := 32
def flowOffset : ℕ := 64
def seqOffset : ℕ := 68
def sessionOffset : ℕ := 76
def flagsOffset : ℕ := 92
def lenOffset : ℕ := 94

structure Header where
  srcId : Id
  dstId : Id
  flowLabel : UInt32
  seqNum : UInt64
  sessionId : Vector UInt8 16
  flags : UInt16
  length : UInt16
  deriving DecidableEq

/-- "wire: buffer too small for header" -/
inductive ErrBufferTooSmall
  | mk
  deriving DecidableEq

/-- A big-endian scalar of `n` bytes read at `off`: `from_be(read_unaligned)`. -/
def readBe (b : Bytes) (off n : ℕ) : ℕ := beNat (slice b off n)

/-- `Header::parse`. -/
def Header.parse (buf : Bytes) : Except ErrBufferTooSmall Header :=
  if buf.length < headerSize then .error .mk
  else .ok
    { srcId := readArray buf srcOffset 32
      dstId := readArray buf dstOffset 32
      flowLabel := UInt32.ofNat (readBe buf flowOffset 4)
      seqNum := UInt64.ofNat (readBe buf seqOffset 8)
      sessionId := readArray buf sessionOffset 16
      flags := UInt16.ofNat (readBe buf flagsOffset 2)
      length := UInt16.ofNat (readBe buf lenOffset 2) }

/-- A borrowed view of the first `headerSize` bytes of a packet. -/
structure HeaderViewRef where
  buf : Bytes
  length_buf : buf.length = headerSize

namespace HeaderViewRef

/-- `HeaderViewRef::new`: the length check, then the cast to a 96-byte array. -/
def new (b : Bytes) : Except ErrBufferTooSmall HeaderViewRef :=
  if h : b.length < headerSize then .error .mk
  else .ok ⟨b.take headerSize, by rw [List.length_take]; omega⟩

def srcId (h : HeaderViewRef) : Id := readArray h.buf srcOffset 32
def dstId (h : HeaderViewRef) : Id := readArray h.buf dstOffset 32
def flowLabel (h : HeaderViewRef) : UInt32 := UInt32.ofNat (readBe h.buf flowOffset 4)
def seqNum (h : HeaderViewRef) : UInt64 := UInt64.ofNat (readBe h.buf seqOffset 8)
def sessionId (h : HeaderViewRef) : Vector UInt8 16 := readArray h.buf sessionOffset 16
def flags (h : HeaderViewRef) : UInt16 := UInt16.ofNat (readBe h.buf flagsOffset 2)
def length (h : HeaderViewRef) : UInt16 := UInt16.ofNat (readBe h.buf lenOffset 2)

end HeaderViewRef

/-! ## The fields of a packet

The header fields as functions of the packet's bytes. A view of a packet reads these. -/

namespace Packet

def srcId (p : Bytes) : Id := readArray p srcOffset 32
def dstId (p : Bytes) : Id := readArray p dstOffset 32
def flowLabel (p : Bytes) : UInt32 := UInt32.ofNat (readBe p flowOffset 4)
def seqNum (p : Bytes) : UInt64 := UInt64.ofNat (readBe p seqOffset 8)

/-- The payload length the header declares. -/
def payloadLen (p : Bytes) : ℕ := (UInt16.ofNat (readBe p lenOffset 2)).toNat

/-- The declared payload, `p[96..96+L)`. -/
def payload (p : Bytes) : Bytes := slice p headerSize (payloadLen p)

/-- The header that `Header::parse` reads. -/
def header (p : Bytes) : Header where
  srcId := srcId p
  dstId := dstId p
  flowLabel := flowLabel p
  seqNum := seqNum p
  sessionId := readArray p sessionOffset 16
  flags := UInt16.ofNat (readBe p flagsOffset 2)
  length := UInt16.ofNat (readBe p lenOffset 2)

theorem parse_eq {p : Bytes} (h : headerSize ≤ p.length) : Header.parse p = .ok (header p) :=
  if_neg (not_lt.mpr h)

/-- The header depends on the first 96 bytes only. -/
theorem header_take (p : Bytes) : header (p.take headerSize) = header p := by
  have h : ∀ off n, off + n ≤ headerSize → slice (p.take headerSize) off n = slice p off n :=
    fun _ _ => slice_take
  simp only [header, srcId, dstId, flowLabel, seqNum, readBe, readArray]
  rw [h _ _ (by decide), h _ _ (by decide), h _ _ (by decide), h _ _ (by decide),
    h _ _ (by decide), h _ _ (by decide), h _ _ (by decide)]

theorem length_payload {p : Bytes} (h : headerSize + payloadLen p ≤ p.length) :
    (payload p).length = payloadLen p := length_slice_of_le h

end Packet

theorem HeaderViewRef.new_of_lt {p : Bytes} (h : p.length < headerSize) :
    HeaderViewRef.new p = .error .mk := dif_pos h

/-- A packet of at least 96 bytes has a view, whose getters read the packet's own bytes. -/
theorem HeaderViewRef.new_of_le {p : Bytes} (h : headerSize ≤ p.length) :
    ∃ v, HeaderViewRef.new p = .ok v ∧ v.srcId = Packet.srcId p ∧ v.dstId = Packet.dstId p ∧
      v.flowLabel = Packet.flowLabel p ∧ v.seqNum = Packet.seqNum p ∧
      v.length.toNat = Packet.payloadLen p := by
  refine ⟨_, dif_neg (by omega), ?_, ?_, ?_, ?_, ?_⟩
  · exact readArray_congr (slice_take (by decide))
  · exact readArray_congr (slice_take (by decide))
  all_goals
    simp only [HeaderViewRef.flowLabel, HeaderViewRef.seqNum, HeaderViewRef.length,
      Packet.flowLabel, Packet.seqNum, Packet.payloadLen, readBe]
    rw [slice_take (by decide)]

end SmipMwp.Wire
