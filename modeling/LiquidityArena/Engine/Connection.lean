import LiquidityArena.Engine.Wire

/-!
# Connections byte by byte

The receive buffer of a connection holds the bytes that are not consumed yet in front of
its offset. A call of `handle_client_read` appends what `recv` returns, hands over the
complete messages and moves the rest to the front. The model also records which ranges
of the buffer it reads; nothing depends on this record.
-/

namespace LiquidityArena

/-- A message of a client: its type and its payload. -/
abbrev Frame := MsgType × List UInt8

/-- Size of the receive buffer. -/
def recvBufferSize : Nat := 4096

/-- The receive buffer of a connection and how much of it is in use. -/
structure RecvBuffer where
  bytes : List UInt8 := List.replicate recvBufferSize 0
  offset : Nat := 0
  deriving DecidableEq, Repr

/-- A range of the receive buffer that is accessed while `offset` bytes are in use. -/
structure Access where
  start : Nat
  size : Nat
  offset : Nat
  deriving DecidableEq, Repr

/-- The access stays below the offset. -/
def Access.InBounds (a : Access) : Prop := a.start + a.size ≤ a.offset

/-- How many bytes of a payload `process_message` copies. -/
def MsgType.copied : MsgType → Nat → Nat
  | .newOrder, len => if len < NewOrderMsg.size then 0 else NewOrderMsg.size
  | .cancelOrder, len => if len < CancelOrderMsg.size then 0 else CancelOrderMsg.size
  | .modifyOrder, len => if len < ModifyOrderMsg.size then 0 else ModifyOrderMsg.size
  | _, _ => 0

/-- What the loop over the messages finds: the messages it hands over, its accesses, and the
position it ends at unless it meets an oversized message. -/
structure Scan where
  frames : List Frame
  accesses : List Access
  pos : Option Nat
  deriving DecidableEq, Repr

namespace RecvBuffer

/-- The bytes that are not consumed yet. -/
def content (b : RecvBuffer) : List UInt8 := b.bytes.take b.offset

/-- The number of bytes that `recv` is asked for. -/
def window (b : RecvBuffer) : Nat := b.bytes.length - b.offset

/-- Append what `recv` returned. -/
def store (b : RecvBuffer) (data : List UInt8) : RecvBuffer where
  bytes := b.bytes.take b.offset ++ data ++ b.bytes.drop (b.offset + data.length)
  offset := b.offset + data.length

/-- Process complete messages, from a position on. -/
def scan (b : RecvBuffer) (pos : Nat) : Scan :=
  if pos + MsgHeader.size ≤ b.offset then
    let header := MsgHeader.deserialize (field b.bytes pos MsgHeader.size)
    let total := MsgHeader.size + header.length
    let read : Access := ⟨pos, MsgHeader.size, b.offset⟩
    if maxMsgSize < total then ⟨[], [read], none⟩
    else if b.offset < pos + total then ⟨[], [read], some pos⟩
    else
      let payload := field b.bytes (pos + MsgHeader.size) header.length
      let copy : Access :=
        ⟨pos + MsgHeader.size, header.type.copied header.length, b.offset⟩
      let rest := scan b (pos + total)
      ⟨(header.type, payload) :: rest.frames, read :: copy :: rest.accesses, rest.pos⟩
  else ⟨[], [], some pos⟩
termination_by b.offset - pos
decreasing_by simp only [MsgHeader.size] at *; omega

/-- Move unprocessed bytes to the front, with the ranges that `memmove` reads and writes. -/
def compact (b : RecvBuffer) (pos : Nat) : RecvBuffer × List Access :=
  if 0 < pos then
    let remaining := b.offset - pos
    if 0 < remaining then
      (⟨field b.bytes pos remaining ++ b.bytes.drop remaining, remaining⟩,
        [⟨pos, remaining, b.offset⟩, ⟨0, remaining, b.offset⟩])
    else (⟨b.bytes, remaining⟩, [])
  else (b, [])

end RecvBuffer

/-- What a call of `handle_client_read` does: the messages it hands to `process_message`, its
accesses, and the buffer it leaves unless it removes the client. -/
structure ReadResult where
  frames : List Frame
  accesses : List Access
  buffer : Option RecvBuffer
  deriving DecidableEq, Repr

/-- Read from a client; `recv` returning nothing or an error is the empty list. -/
def RecvBuffer.handleClientRead (b : RecvBuffer) (data : List UInt8) : ReadResult :=
  if data = [] then ⟨[], [], none⟩
  else
    let stored := b.store data
    let scanned := stored.scan 0
    match scanned.pos with
    | none => ⟨scanned.frames, scanned.accesses, none⟩
    | some pos =>
      ⟨scanned.frames, scanned.accesses ++ (stored.compact pos).2, some (stored.compact pos).1⟩

/-- A client connection with the bytes of its two buffers. -/
structure Connection where
  sock : Int
  recvBuffer : RecvBuffer := {}
  sendBuffer : List UInt8 := []
  deriving DecidableEq, Repr

namespace Connection

/-- Append a message to the send buffer unless the socket is closed. -/
def send (c : Connection) (msg : Outbound) : Connection :=
  if c.sock = invalidSock then c else { c with sendBuffer := c.sendBuffer ++ msg.serialize }

/-- Write to a client; `sent` is what `send` returns for the whole buffer. -/
def handleClientWrite (c : Connection) (sent : Int) : Connection :=
  if c.sendBuffer = [] then c
  else if 0 < sent then { c with sendBuffer := c.sendBuffer.drop sent.toNat }
  else c

end Connection

end LiquidityArena
