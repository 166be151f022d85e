import LiquidityArena.Engine.Connection
import LiquidityArena.Lib.Framing
import LiquidityArena.Lib.Machine

/-!
# Server framing does not depend on the chunks

The stream of a client is parsed by a rule: a header of five bytes, then as many bytes
as the header says, and an oversized header ends the connection. The receive buffer
always holds what the rule leaves of the bytes read so far, so the messages handed over
and the point of disconnection are those of the whole stream.
-/

namespace LiquidityArena

private theorem field_drop (s : List UInt8) (n offset size : Nat) :
    field (s.drop n) offset size = field s (n + offset) size := by
  rw [field, field, List.drop_drop]

private theorem field_append {s : List UInt8} {offset size : Nat} (h : offset + size ≤ s.length)
    (t : List UInt8) : field (s ++ t) offset size = field s offset size := by
  rw [field, field, List.drop_append_of_le_length (by omega), List.take_append_of_le_length]
  rw [List.length_drop]
  omega

private theorem field_take {s : List UInt8} {n offset size : Nat} (h : offset + size ≤ n)
    (hn : n ≤ s.length) : field (s.take n) offset size = field s offset size := by
  conv_rhs => rw [← List.take_append_drop n s]
  rw [field_append]
  rw [List.length_take]
  omega

namespace MsgHeader

variable {s : List UInt8}

/-- A header depends on its own bytes only. -/
theorem deserialize_append (h : size ≤ s.length) (t : List UInt8) :
    deserialize (s ++ t) = deserialize s := by
  have hfirst : 0 < s.length := Nat.lt_of_lt_of_le (by decide) h
  rw [deserialize, deserialize, field_append h, List.getD_eq_getElem?_getD,
    List.getElem?_append_left hfirst, ← List.getD_eq_getElem?_getD]

private theorem deserialize_field {offset : Nat} (h : offset + size ≤ s.length) :
    deserialize (field s offset size) = deserialize (s.drop offset) := by
  conv_rhs => rw [← List.take_append_drop size (s.drop offset)]
  rw [deserialize_append, field]
  rw [List.length_take, List.length_drop]
  omega

end MsgHeader

/-- The next message of a stream from a client. -/
def nextFrame (s : List UInt8) : Framing.Next Frame :=
  if s.length < MsgHeader.size then .more
  else
    let header := MsgHeader.deserialize s
    if maxMsgSize < MsgHeader.size + header.length then .stop
    else if s.length < MsgHeader.size + header.length then .more
    else .item (header.type, field s MsgHeader.size header.length)
      (MsgHeader.size + header.length)

section nextFrame

variable {s : List UInt8} {frame : Frame} {n : Nat}

/-- A frame is parsed exactly when its header and its declared length are in the buffer. -/
theorem nextFrame_eq_item : nextFrame s = .item frame n ↔
    MsgHeader.size ≤ s.length ∧ n = MsgHeader.size + (MsgHeader.deserialize s).length ∧
      n ≤ maxMsgSize ∧ n ≤ s.length ∧
      frame = ((MsgHeader.deserialize s).type,
        field s MsgHeader.size (MsgHeader.deserialize s).length) := by
  rw [nextFrame]
  dsimp only
  split_ifs with hshort hover hcut
  · simp only [false_iff]
    omega
  · simp only [false_iff]
    omega
  · simp only [false_iff]
    omega
  · rw [Framing.Next.item.injEq]
    constructor
    · rintro ⟨rfl, rfl⟩
      exact ⟨by omega, rfl, by omega, by omega, rfl⟩
    · rintro ⟨-, rfl, -, -, rfl⟩
      exact ⟨rfl, rfl⟩

private theorem nextFrame_eq_stop : nextFrame s = .stop ↔
    MsgHeader.size ≤ s.length ∧
      maxMsgSize < MsgHeader.size + (MsgHeader.deserialize s).length := by
  rw [nextFrame]
  dsimp only
  split_ifs <;> simp only [false_iff, true_iff] <;> omega

/-- What waits for more is shorter than the largest message. -/
theorem length_lt_of_nextFrame (h : nextFrame s = .more) : s.length < maxMsgSize := by
  rw [nextFrame] at h
  dsimp only at h
  split_ifs at h with hshort hover hcut
  · exact hshort.trans (by decide)
  · omega

end nextFrame

/-- The framing of the messages of a client. -/
def serverRule : Framing.Rule UInt8 Frame where
  next := nextFrame
  size_pos h := by
    obtain ⟨-, rfl, -⟩ := nextFrame_eq_item.mp h
    exact Nat.add_pos_left (by decide) _
  size_le h := (nextFrame_eq_item.mp h).2.2.2.1
  item_append h t := by
    obtain ⟨hsize, hn, hmax, hle, hframe⟩ := nextFrame_eq_item.mp h
    rw [nextFrame_eq_item, MsgHeader.deserialize_append hsize, field_append (hn ▸ hle),
      List.length_append]
    exact ⟨by omega, hn, hmax, by omega, hframe⟩
  stop_append h t := by
    obtain ⟨hsize, hmax⟩ := nextFrame_eq_stop.mp h
    rw [nextFrame_eq_stop, MsgHeader.deserialize_append hsize, List.length_append]
    exact ⟨by omega, hmax⟩

namespace RecvBuffer

variable {b : RecvBuffer} {pos : Nat} {data : List UInt8}

private theorem length_content (h : b.offset ≤ b.bytes.length) : b.content.length = b.offset := by
  rw [content, List.length_take, Nat.min_eq_left h]

private theorem copied_le (type : MsgType) (len : Nat) : type.copied len ≤ len := by
  cases type <;> simp only [MsgType.copied] <;> first | omega | (split_ifs <;> omega)

/-- The loop parses the unconsumed bytes and stays below the offset. -/
theorem scan_spec (h : b.offset ≤ b.bytes.length) (hpos : pos ≤ b.offset) :
    ((b.scan pos).frames, (b.scan pos).pos.map b.content.drop) =
        serverRule.parse (b.content.drop pos) ∧
      (∀ p, (b.scan pos).pos = some p → p ≤ b.offset) ∧
      ∀ a ∈ (b.scan pos).accesses, a.InBounds := by
  have hlen := length_content h
  induction hmeasure : b.offset - pos using Nat.strong_induction_on generalizing pos with
  | _ measure ih =>
    have hleft : (b.content.drop pos).length = b.offset - pos := by rw [List.length_drop, hlen]
    rw [scan]
    split_ifs with hhead
    · have hheader : MsgHeader.deserialize (field b.bytes pos MsgHeader.size) =
          MsgHeader.deserialize (b.content.drop pos) := by
        rw [← MsgHeader.deserialize_field (hlen ▸ hhead), content, field_take hhead h]
      rw [hheader]
      dsimp only
      obtain ⟨header, hdef⟩ : ∃ header, MsgHeader.deserialize (b.content.drop pos) = header :=
        ⟨_, rfl⟩
      rw [hdef]
      split_ifs with hover hcut
      · -- an oversized header
        have hstop : serverRule.next (b.content.drop pos) = .stop :=
          nextFrame_eq_stop.mpr ⟨by omega, hdef ▸ hover⟩
        rw [serverRule.parse_stop hstop]
        exact ⟨rfl, by simp, by simpa [Access.InBounds] using hhead⟩
      · -- an incomplete message
        have hmore : serverRule.next (b.content.drop pos) = .more := by
          change nextFrame _ = _
          rw [nextFrame, hdef]
          dsimp only
          rw [if_neg (by omega), if_neg hover, if_pos (by omega)]
        rw [serverRule.parse_more hmore]
        exact ⟨rfl, by simpa using hpos, by simpa [Access.InBounds] using hhead⟩
      · -- a complete message
        have hpayload : field (b.content.drop pos) MsgHeader.size header.length =
            field b.bytes (pos + MsgHeader.size) header.length := by
          rw [field_drop, content, field_take (by omega) h]
        have hitem : serverRule.next (b.content.drop pos) =
            .item (header.type, field b.bytes (pos + MsgHeader.size) header.length)
              (MsgHeader.size + header.length) := by
          refine nextFrame_eq_item.mpr ?_
          rw [hdef, hpayload]
          exact ⟨by omega, rfl, by omega, by omega, rfl⟩
        obtain ⟨hparse, hend, hbounds⟩ := ih (b.offset - (pos + (MsgHeader.size + header.length)))
          (by simp only [MsgHeader.size] at *; omega) (by omega) rfl
        rw [serverRule.parse_item hitem, List.drop_drop, ← hparse]
        refine ⟨rfl, hend, fun a ha => ?_⟩
        rcases List.mem_cons.mp ha with rfl | ha
        · exact hhead
        rcases List.mem_cons.mp ha with rfl | ha
        · have hcopied := copied_le header.type header.length
          change _ + _ ≤ _
          dsimp only
          omega
        · exact hbounds a ha
    · have hmore : serverRule.next (b.content.drop pos) = .more := by
        change nextFrame _ = _
        rw [nextFrame, if_pos (by omega)]
      rw [serverRule.parse_more hmore]
      exact ⟨rfl, by simpa using hpos, by simp⟩

private theorem content_store (h : b.offset ≤ b.bytes.length) :
    (b.store data).content = b.content ++ data := by
  rw [content, store, content]
  refine List.take_left' ?_
  rw [List.length_append, List.length_take, Nat.min_eq_left h]

private theorem length_store (h : b.offset + data.length ≤ b.bytes.length) :
    (b.store data).bytes.length = b.bytes.length := by
  rw [store, List.length_append, List.length_append, List.length_take, List.length_drop]
  omega

/-- Compacting keeps exactly the unconsumed bytes. -/
theorem compact_spec (h : b.offset ≤ b.bytes.length) (hpos : pos ≤ b.offset) :
    (b.compact pos).1.content = b.content.drop pos ∧
      (b.compact pos).1.bytes.length = b.bytes.length ∧
      (b.compact pos).1.offset ≤ b.bytes.length ∧
      ∀ a ∈ (b.compact pos).2, a.InBounds := by
  have hfield : field b.bytes pos (b.offset - pos) = b.content.drop pos := by
    rw [field, content, List.drop_take]
  have hleft : (b.content.drop pos).length = b.offset - pos := by
    rw [List.length_drop, length_content h]
  rw [compact]
  dsimp only
  split_ifs with hzero hrest
  · refine ⟨?_, ?_, by dsimp only; omega, fun a ha => ?_⟩
    · rw [content, hfield]
      exact List.take_left' hleft
    · rw [hfield, List.length_append, hleft, List.length_drop]
      omega
    · change _ + _ ≤ _
      simp only [List.mem_cons, List.not_mem_nil, or_false] at ha
      rcases ha with rfl | rfl <;> dsimp only <;> omega
  · refine ⟨?_, rfl, by dsimp only; omega, by simp⟩
    rw [List.drop_of_length_le (by rw [length_content h]; omega), content,
      Nat.eq_zero_of_not_pos hrest]
    rfl
  · obtain rfl : pos = 0 := by omega
    exact ⟨rfl, rfl, h, by simp⟩

/-- The buffer has its full size and the offset is inside it. -/
structure Sound (b : RecvBuffer) : Prop where
  length_bytes : b.bytes.length = recvBufferSize
  offset_le : b.offset ≤ b.bytes.length

/-- A call parses what was left together with what has arrived. -/
theorem handleClientRead_spec (h : b.Sound) (hpos : 0 < data.length)
    (hfit : data.length ≤ b.window) :
    ((b.handleClientRead data).frames, (b.handleClientRead data).buffer.map content) =
        serverRule.parse (b.content ++ data) ∧
      (∀ b', (b.handleClientRead data).buffer = some b' → b'.Sound) ∧
      ∀ a ∈ (b.handleClientRead data).accesses, a.InBounds := by
  have hroom : b.offset + data.length ≤ b.bytes.length := by
    have hle := h.offset_le
    rw [window] at hfit
    omega
  have hlength := length_store hroom
  have hstored : (b.store data).offset ≤ (b.store data).bytes.length := by
    rw [hlength]
    exact hroom
  obtain ⟨hparse, hend, hbounds⟩ := scan_spec hstored (Nat.zero_le _)
  rw [handleClientRead, if_neg (List.ne_nil_of_length_pos hpos)]
  rw [← content_store h.offset_le, ← List.drop_zero (l := (b.store data).content), ← hparse]
  dsimp only
  cases hp : ((b.store data).scan 0).pos with
  | none => exact ⟨rfl, by simp, hbounds⟩
  | some pos =>
    obtain ⟨hcontent, hbytes, hoffset, haccess⟩ := compact_spec hstored (hend pos hp)
    refine ⟨?_, ?_, fun a ha => ?_⟩
    · dsimp only
      rw [Option.map_some, Option.map_some, hcontent]
    · rintro b' hb'
      obtain rfl := Option.some.inj hb'
      exact ⟨hbytes.trans (hlength.trans h.length_bytes), hoffset.trans_eq hbytes.symm⟩
    · exact (List.mem_append.mp ha).elim (hbounds a) (haccess a)

/-- What a sound buffer waits for is shorter than the largest message. -/
theorem Sound.offset_lt (h : b.Sound) (hmore : serverRule.next b.content = .more) :
    b.offset < maxMsgSize ∧ 0 < b.window := by
  have hlt := length_lt_of_nextFrame hmore
  rw [length_content h.offset_le] at hlt
  refine ⟨hlt, ?_⟩
  rw [window, h.length_bytes]
  exact Nat.sub_pos_of_lt (hlt.trans (by decide))

end RecvBuffer

/-- A connection while the stream of its client arrives: its buffer unless the client was
removed, the messages handed over and the accesses so far. -/
structure Inbound where
  buffer : Option RecvBuffer := some {}
  frames : List Frame := []
  accesses : List Access := []

namespace Inbound

variable {s : Inbound} {data : List UInt8}

/-- Read the next chunk; nothing is read from a removed client. -/
def receive (s : Inbound) (data : List UInt8) : Option Inbound :=
  match s.buffer with
  | none => some s
  | some b =>
    let r := b.handleClientRead data
    some ⟨r.buffer, s.frames ++ r.frames, s.accesses ++ r.accesses⟩

/-- What `recv` returns for a client that is still there: some bytes, at most as many as there
is room for. -/
def Fits (s : Inbound) (data : List UInt8) : Prop :=
  ∀ b, s.buffer = some b → 0 < data.length ∧ data.length ≤ b.window

/-- The connection after the bytes of a stream. -/
structure Holds (s : Inbound) (stream : List UInt8) : Prop where
  parsed : (s.frames, s.buffer.map RecvBuffer.content) = serverRule.parse stream
  inBounds : ∀ a ∈ s.accesses, a.InBounds
  sound : ∀ b, s.buffer = some b → b.Sound

/-- A new connection has parsed nothing out of nothing. -/
theorem holds_init : Holds {} [] where
  parsed := (serverRule.parse_more rfl).symm
  inBounds := by simp
  sound := by
    rintro b hb
    obtain rfl := Option.some.inj hb
    exact ⟨List.length_replicate .., Nat.zero_le _⟩

/-- One chunk. -/
theorem Holds.receive {stream : List UInt8} (h : s.Holds stream) (hfits : s.Fits data) :
    ∃ s', s.receive data = some s' ∧ s'.Holds (stream ++ data) := by
  have hresume := serverRule.resume_parse stream data
  rw [← h.parsed] at hresume
  rw [Inbound.receive]
  cases hbuffer : s.buffer with
  | none =>
    rw [hbuffer] at hresume
    refine ⟨s, rfl, ?_, h.inBounds, h.sound⟩
    rw [hbuffer]
    exact hresume
  | some b =>
    rw [hbuffer] at hresume
    obtain ⟨hpos, hroom⟩ := hfits b hbuffer
    obtain ⟨hparse, hsound, hbounds⟩ :=
      RecvBuffer.handleClientRead_spec (h.sound b hbuffer) hpos hroom
    refine ⟨_, rfl, ?_, fun a ha => ?_, hsound⟩
    · rw [← hresume, Option.map_some, Framing.Rule.resume, ← hparse]
    · exact (List.mem_append.mp ha).elim (h.inBounds a) (hbounds a)

private theorem Holds.run {stream : List UInt8} (h : s.Holds stream) {chunks : List (List UInt8)}
    (hfits : Machine.Meets Inbound.receive Fits s chunks) :
    ∃ s', Machine.run Inbound.receive s chunks = some s' ∧
      s'.Holds (stream ++ chunks.flatten) := by
  induction chunks generalizing s stream with
  | nil => exact ⟨s, rfl, by rwa [List.flatten_nil, List.append_nil]⟩
  | cons data chunks ih =>
    obtain ⟨s₁, hfirst, h₁⟩ := h.receive hfits.1
    obtain ⟨s', hrun, h'⟩ := ih h₁ (hfits.2 s₁ hfirst)
    refine ⟨s', by rw [Machine.run, hfirst]; exact hrun, ?_⟩
    rwa [List.flatten_cons, ← List.append_assoc]

/-- A buffer that is left has room for the next chunk. -/
theorem Holds.offset_lt {stream : List UInt8} (h : s.Holds stream) {b : RecvBuffer}
    (hb : s.buffer = some b) : b.offset < maxMsgSize ∧ 0 < b.window := by
  have hparsed : serverRule.parse stream = (s.frames, some b.content) := by
    rw [← h.parsed, hb, Option.map_some]
  exact (h.sound b hb).offset_lt (serverRule.next_rest hparsed)

/-- Small chunks always fit. -/
theorem Holds.fits {stream : List UInt8} (h : s.Holds stream) (hpos : 0 < data.length)
    (hle : data.length ≤ recvBufferSize - maxMsgSize) : s.Fits data := by
  intro b hb
  have hlt := (h.offset_lt hb).1
  refine ⟨hpos, hle.trans ?_⟩
  rw [RecvBuffer.window, (h.sound b hb).length_bytes]
  exact Nat.sub_le_sub_left hlt.le _

private theorem Holds.meets {stream : List UInt8} (h : s.Holds stream) {chunks : List (List UInt8)}
    (hsmall : ∀ data ∈ chunks, 0 < data.length ∧ data.length ≤ recvBufferSize - maxMsgSize) :
    Machine.Meets Inbound.receive Fits s chunks := by
  induction chunks generalizing s stream with
  | nil => trivial
  | cons data chunks ih =>
    obtain ⟨hpos, hle⟩ := hsmall data List.mem_cons_self
    have hfits := h.fits hpos hle
    refine ⟨hfits, fun s' hs' => ?_⟩
    obtain ⟨s₁, hfirst, h₁⟩ := h.receive hfits
    obtain rfl := Option.some.inj (hfirst.symm.trans hs')
    exact ih h₁ fun data hdata => hsmall data (List.mem_cons_of_mem _ hdata)

end Inbound

/-- However the stream of a client is cut into chunks, the messages handed over and whether the
client is dropped are those of the whole stream; no byte at or above the offset is accessed, and
a client that is kept leaves room for the next chunk. -/
theorem framing_of_chunks (chunks : List (List UInt8))
    (hfits : Machine.Meets Inbound.receive Inbound.Fits {} chunks) :
    ∃ s, Machine.run Inbound.receive {} chunks = some s ∧
      (s.frames, s.buffer.map RecvBuffer.content) = serverRule.parse chunks.flatten ∧
      (∀ a ∈ s.accesses, a.InBounds) ∧
      ∀ b, s.buffer = some b → b.offset < maxMsgSize ∧ 0 < b.window := by
  obtain ⟨s, hrun, h⟩ := Inbound.holds_init.run hfits
  exact ⟨s, hrun, h.parsed, h.inBounds, fun b hb => h.offset_lt hb⟩

/-- A cancel whose header and payload are cut, and an oversized header behind it. -/
theorem framing_of_chunks_cut_header :
    ∃ s, Machine.run Inbound.receive {} [[2, 8], [0, 0, 0, 7, 0], [0, 0, 0, 0, 0, 0, 1, 9, 9],
        [0, 0]] = some s ∧
      s.frames = [(.cancelOrder, [7, 0, 0, 0, 0, 0, 0, 0])] ∧ s.buffer = none ∧
      ∀ a ∈ s.accesses, a.InBounds := by
  obtain ⟨s, hrun, hparse, hbounds, -⟩ := framing_of_chunks
    [[2, 8], [0, 0, 0, 7, 0], [0, 0, 0, 0, 0, 0, 1, 9, 9], [0, 0]]
    (Inbound.holds_init.meets (by decide))
  have hcancel : serverRule.next [2, 8, 0, 0, 0, 7, 0, 0, 0, 0, 0, 0, 0, 1, 9, 9, 0, 0] =
      .item (.cancelOrder, [7, 0, 0, 0, 0, 0, 0, 0]) 13 := rfl
  have hover : serverRule.next [1, 9, 9, 0, 0] = .stop := rfl
  have hwhole := serverRule.parse_item hcancel
  simp only [List.drop_succ_cons, List.drop_zero, serverRule.parse_stop hover] at hwhole
  obtain ⟨hframes, hbuffer⟩ := Prod.mk.inj (hparse.trans hwhole)
  exact ⟨s, hrun, hframes, Option.map_eq_none_iff.mp hbuffer, hbounds⟩

end LiquidityArena
