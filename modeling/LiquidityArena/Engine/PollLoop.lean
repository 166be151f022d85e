import LiquidityArena.Engine.Connection

/-!
# One pass of the server loop

A pass asks `poll()` about the listening socket and all clients, accepts a connection if
there is one, and then walks through the clients and the answers side by side. Which
bytes `recv` and `send` transfer and what the engine reports meanwhile is given. The
accesses to the two vectors are checked: `none` is an index out of range. A pass records
what it does to which socket.
-/

namespace LiquidityArena

/-- The events `poll()` reports for a socket; `error` is any of `POLLERR`, `POLLHUP` and
`POLLNVAL`. -/
structure Revents where
  error : Bool := false
  input : Bool := false
  output : Bool := false
  deriving DecidableEq, Repr

/-- A socket that `poll()` was asked about, with its answer. -/
structure PollFd where
  fd : Int
  revents : Revents
  deriving DecidableEq, Repr

/-- An event of the engine as the server sends it on. -/
inductive ServerEvent where
  | bookUpdate (msg : PackedBookUpdate)
  | reject (clientIdx : Nat) (msg : RejectMsg)
  | fill

/-- What the system calls and the engine answer during one pass. -/
structure Pass where
  /-- What `poll()` returns. -/
  result : Int
  /-- The events of the listening socket. -/
  listening : Revents
  /-- The events of the client sockets. -/
  revents : Int → Revents
  /-- The socket that `accept` returns. -/
  accepted : Int
  /-- The bytes that `recv` returns; none if it fails. -/
  recv : Int → List UInt8
  /-- What `send` returns. -/
  sent : Int → Int
  hasOrder : OrderId → Bool
  /-- The engine events that are waiting. -/
  events : List ServerEvent

/-- What happens to a socket: the loop looks at a client and the events it takes for its own,
reads from it, writes to it or removes it. -/
inductive PollEvent where
  | visit (sock : Int) (revents : Revents)
  | read (sock : Int)
  | write (sock : Int)
  | remove (sock : Int)
  deriving DecidableEq, Repr

/-- The clients after a part of the pass, the commands pushed to the engine and the record. -/
structure Served where
  clients : List Connection
  commands : List ClientCommand
  trace : List PollEvent

/-- What happened before and what came after it. -/
def Served.after (s : Served) (commands : List ClientCommand) (trace : List PollEvent) : Served :=
  { s with commands := commands ++ s.commands, trace := trace ++ s.trace }

namespace Pass

/-- Act on the messages of a client: rejects go to its send buffer, commands to the engine. -/
def processMessages (p : Pass) (idx : Nat) (frames : List Frame) (c : Connection) :
    Connection × List ClientCommand :=
  (frames.foldl (fun c f => match TcpServer.screen p.hasOrder f.1 f.2 with
      | .reject id reason => c.send (.reject ⟨id, reason⟩)
      | .forward _ => c
      | .ignore => c) c,
    frames.filterMap fun f => match TcpServer.screen p.hasOrder f.1 f.2 with
      | .reject .. => none
      | .forward request => some ⟨idx, request⟩
      | .ignore => none)

/-- Read from the client at a position; the client may be removed. -/
def handleClientRead (p : Pass) (clients : List Connection) (idx : Nat) (c : Connection) :
    Served :=
  let r := c.recvBuffer.handleClientRead (p.recv c.sock)
  let done := p.processMessages idx r.frames c
  match r.buffer with
  | none => ⟨clients.eraseIdx idx, done.2, [.read c.sock, .remove c.sock]⟩
  | some buffer => ⟨clients.set idx { done.1 with recvBuffer := buffer }, done.2, [.read c.sock]⟩

/-- Read from the client at a position if there is input. -/
def readInput (p : Pass) (clients : List Connection) (idx : Nat) (c : Connection)
    (revents : Revents) : Served :=
  if revents.input then p.handleClientRead clients idx c else ⟨clients, [], []⟩

private theorem length_readInput_le (p : Pass) (clients : List Connection) (idx : Nat)
    (c : Connection)
    (revents : Revents) :
    (p.readInput clients idx c revents).clients.length ≤ clients.length := by
  rw [readInput]
  split_ifs
  · rw [handleClientRead]
    dsimp only
    split
    · exact List.length_eraseIdx_le ..
    · exact (List.length_set ..).le
  · exact le_rfl

/-- Check each client for data, from a position on. -/
def serve (p : Pass) (fds : List PollFd) (i fdIdx : Nat) (clients : List Connection) :
    Option Served :=
  match _hc : clients[i]? with
  | none => some ⟨clients, [], []⟩
  | some c =>
    if c.sock = invalidSock then serve p fds (i + 1) fdIdx clients
    else
      match fds[fdIdx]? with
      | none => none
      | some fd =>
        if fd.revents.error then
          (serve p fds (i + 1) (fdIdx + 1) (clients.eraseIdx i)).map
            (·.after [] [.visit c.sock fd.revents, .remove c.sock])
        else
          let read := p.readInput clients i c fd.revents
          match read.clients[i]? with
          | none => none
          | some c' =>
            if c'.sock ≠ invalidSock ∧ fd.revents.output then
              (serve p fds (i + 1) (fdIdx + 1)
                (read.clients.set i (c'.handleClientWrite (p.sent c'.sock)))).map
                (·.after read.commands (.visit c.sock fd.revents :: read.trace ++ [.write c'.sock]))
            else
              (serve p fds (i + 1) (fdIdx + 1) read.clients).map
                (·.after read.commands (.visit c.sock fd.revents :: read.trace))
termination_by clients.length - i
decreasing_by
  all_goals have hi : i < clients.length := (List.getElem?_eq_some_iff.mp _hc).1
  · omega
  · have herase := List.length_eraseIdx_le clients i
    omega
  · have hread := length_readInput_le p clients i c fd.revents
    rw [List.length_set]
    omega
  · have hread := length_readInput_le p clients i c fd.revents
    omega

/-- A connection is accepted unless it has no valid socket. -/
def acceptClient (p : Pass) (clients : List Connection) : List Connection :=
  if p.accepted = invalidSock then clients else clients ++ [{ sock := p.accepted }]

/-- Act on one engine event: a fill is not sent to anybody. -/
def consumeEvent (clients : List Connection) : ServerEvent → List Connection
  | .bookUpdate msg => clients.map (·.send (.bookUpdate msg))
  | .reject clientIdx msg => clients.modify clientIdx (·.send (.reject msg))
  | .fill => clients

/-- Consume events generated by the engine, up to 100 in a pass. -/
def consumeEngineEvents (clients : List Connection) (events : List ServerEvent) :
    List Connection := (events.take 100).foldl consumeEvent clients

/-- The sockets `poll()` is asked about, with its answers. -/
def fds (p : Pass) (listenSock : Int) (clients : List Connection) : List PollFd :=
  ⟨listenSock, p.listening⟩ ::
    (clients.filter (·.sock ≠ invalidSock)).map fun c => ⟨c.sock, p.revents c.sock⟩

/-- Run one iteration of the event loop; the flag says whether to go on. -/
def poll (p : Pass) (listenSock : Int) (clients : List Connection) : Option (Bool × Served) :=
  if p.result < 0 then some (false, ⟨clients, [], []⟩)
  else if p.result = 0 then some (true, ⟨clients, [], []⟩)
  else
    let clients' := if p.listening.input then p.acceptClient clients else clients
    (p.serve (p.fds listenSock clients) 0 1 clients').map fun s =>
      (true, { s with clients := consumeEngineEvents s.clients p.events })

end Pass

end LiquidityArena
