import LiquidityArena.Engine.PollLoop
import LiquidityArena.Correctness.StreamIntegrity

/-!
# What one pass of the server loop serves

The loop advances by one in both vectors, also after it has removed a client. So what it
does is told by the clients and the answers that are still ahead of it: after a removal
the next client is passed over. A pass serves everybody exactly when no client is removed
before the last one, and the two vectors end together.
-/

namespace LiquidityArena

namespace PollEvent

/-- The socket of an event. -/
def sock : PollEvent → Int
  | .visit sock _ => sock
  | .read sock => sock
  | .write sock => sock
  | .remove sock => sock

/-- The event is one the answer for the socket calls for. -/
def AccordingTo (revents : Revents) : PollEvent → Prop
  | .visit _ taken => taken = revents
  | .read _ => revents.error = false ∧ revents.input
  | .write _ => revents.error = false ∧ revents.output
  | .remove _ => revents.error ∨ revents.input

end PollEvent

namespace Pass

variable {p : Pass} {c : Connection} {clients : List Connection}

/-- Reading from the client ends the connection: `recv` fails, or a message is oversized. -/
def Drops (p : Pass) (c : Connection) : Prop :=
  (c.recvBuffer.handleClientRead (p.recv c.sock)).buffer = none

instance (p : Pass) : DecidablePred p.Drops := fun _ => inferInstanceAs (Decidable (_ = none))

/-- The client is to be removed after a read. -/
def RemovedByRead (p : Pass) (c : Connection) : Prop :=
  (p.revents c.sock).error = false ∧ (p.revents c.sock).input = true ∧ p.Drops c

instance (p : Pass) : DecidablePred p.RemovedByRead := fun _ =>
  inferInstanceAs (Decidable (_ ∧ _ ∧ _))

/-- The client is to be removed. -/
def Removed (p : Pass) (c : Connection) : Prop :=
  (p.revents c.sock).error = true ∨ p.RemovedByRead c

instance (p : Pass) : DecidablePred p.Removed := fun _ => inferInstanceAs (Decidable (_ ∨ _))

/-- A connection is accepted in the pass. -/
def Accepts (p : Pass) : Prop := p.listening.input = true ∧ p.accepted ≠ invalidSock

instance (p : Pass) : Decidable p.Accepts := inferInstanceAs (Decidable (_ ∧ _))

/-- The connections of a pass that are not there when it starts. -/
def arrivals (p : Pass) : List Connection := if p.Accepts then [{ sock := p.accepted }] else []

/-- No client but the last is removed. If a connection is accepted, the last one is; if not, it
is not removed by a read. -/
structure Orderly (p : Pass) (clients : List Connection) : Prop where
  front : ∀ c ∈ clients.dropLast, ¬ p.Removed c
  last : if p.Accepts then ∃ c, clients.getLast? = some c ∧ p.Removed c
    else ∀ c, clients.getLast? = some c → ¬ p.RemovedByRead c

/-- What is done to the clients of a pass: each event at most once, as the answers for the
client's own socket call for, and no client that stays is passed over. -/
structure Serves (p : Pass) (clients : List Connection) (trace : List PollEvent) : Prop where
  once : ∀ c ∈ clients, ∀ e : PollEvent, e.sock = c.sock → trace.count e ≤ 1
  own : ∀ c ∈ clients, ∀ e ∈ trace, e.sock = c.sock → e.AccordingTo (p.revents c.sock)
  served : ∀ c ∈ clients, .remove c.sock ∉ trace → ∃ taken, .visit c.sock taken ∈ trace

/-- The record of a walk through the clients and the answers that are ahead. -/
def walk (p : Pass) : List PollFd → List Connection → Option (List PollEvent)
  | _, [] => some []
  | [], _ :: _ => none
  | fd :: fds, c :: clients =>
    if fd.revents.error then
      (walk p fds clients.tail).map ([.visit c.sock fd.revents, .remove c.sock] ++ ·)
    else if fd.revents.input ∧ p.Drops c then
      clients.head?.bind fun next =>
        (walk p fds clients.tail).map ([.visit c.sock fd.revents, .read c.sock, .remove c.sock] ++
          (if fd.revents.output then [.write next.sock] else []) ++ ·)
    else
      (walk p fds clients).map (.visit c.sock fd.revents ::
        (if fd.revents.input then [.read c.sock] else []) ++
        (if fd.revents.output then [.write c.sock] else []) ++ ·)

@[simp] theorem sock_processMessages (p : Pass) (idx : Nat) (frames : List Frame)
    (c : Connection) : (p.processMessages idx frames c).1.sock = c.sock := by
  rw [processMessages]
  dsimp only
  induction frames generalizing c with
  | nil => rfl
  | cons f frames ih =>
    rw [List.foldl_cons, ih]
    split
    · rw [Connection.send]
      split_ifs <;> rfl
    · rfl
    · rfl

section serve

variable {fds : List PollFd} {fd : PollFd} {i fdIdx : Nat}

private theorem serve_done (hc : clients[i]? = none) :
    p.serve fds i fdIdx clients = some ⟨clients, [], []⟩ := by
  rw [serve]
  split
  · rfl
  · rename_i c hsome
    cases hc.symm.trans hsome

/-- The pass of the loop at a client. -/
theorem serve_client (hc : clients[i]? = some c) (hsock : c.sock ≠ invalidSock) :
    p.serve fds i fdIdx clients = (fds[fdIdx]?).bind fun fd =>
      if fd.revents.error then
        (p.serve fds (i + 1) (fdIdx + 1) (clients.eraseIdx i)).map
          (·.after [] [.visit c.sock fd.revents, .remove c.sock])
      else
        let read := p.readInput clients i c fd.revents
        (read.clients[i]?).bind fun c' =>
          if c'.sock ≠ invalidSock ∧ fd.revents.output then
            (p.serve fds (i + 1) (fdIdx + 1)
              (read.clients.set i (c'.handleClientWrite (p.sent c'.sock)))).map
              (·.after read.commands (.visit c.sock fd.revents :: read.trace ++ [.write c'.sock]))
          else
            (p.serve fds (i + 1) (fdIdx + 1) read.clients).map
              (·.after read.commands (.visit c.sock fd.revents :: read.trace)) := by
  rw [serve]
  split
  · rename_i hnone
    cases hnone.symm.trans hc
  · rename_i c₁ hsome
    obtain rfl := Option.some.inj (hsome.symm.trans hc)
    rw [if_neg hsock]
    cases fds[fdIdx]? with
    | none => rfl
    | some fd =>
      dsimp only [Option.bind_some]
      split
      · rfl
      · cases (p.readInput clients i c₁ fd.revents).clients[i]? with
        | none => rfl
        | some c' => rfl

end serve

private theorem map_after (served : Option Served) (commands : List ClientCommand)
    (trace : List PollEvent) : (served.map (·.after commands trace)).map (·.trace) =
      (served.map (·.trace)).map (trace ++ ·) := by
  cases served <;> rfl

private theorem drop_eraseIdx {l : List Connection} {i : Nat} (h : i < l.length) :
    (l.eraseIdx i).drop i = l.drop (i + 1) := by
  rw [List.eraseIdx_eq_take_drop_succ, List.drop_left']
  rw [List.length_take]
  omega

/-- A client that is read from and dropped. -/
theorem readInput_of_drops {revents : Revents} (h : revents.input = true ∧ p.Drops c)
    (clients : List Connection) (i : Nat) :
    (p.readInput clients i c revents).clients = clients.eraseIdx i ∧
      (p.readInput clients i c revents).trace = [.read c.sock, .remove c.sock] := by
  obtain ⟨hinput, hdrops⟩ := h
  rw [readInput, if_pos hinput, handleClientRead]
  dsimp only
  rw [hdrops]
  exact ⟨rfl, rfl⟩

/-- A client that stays keeps its place and its socket. -/
theorem readInput_of_keeps {revents : Revents} {i : Nat} (hc : clients[i]? = some c)
    (h : ¬ (revents.input = true ∧ p.Drops c)) :
    ∃ c', (p.readInput clients i c revents).clients = clients.set i c' ∧ c'.sock = c.sock ∧
      (p.readInput clients i c revents).trace =
        if revents.input then [.read c.sock] else [] := by
  rw [readInput]
  by_cases hinput : revents.input = true
  · rw [if_pos hinput, if_pos hinput, handleClientRead]
    dsimp only
    cases hbuffer : (c.recvBuffer.handleClientRead (p.recv c.sock)).buffer with
    | none => exact absurd ⟨hinput, hbuffer⟩ h
    | some buffer => exact ⟨_, rfl, sock_processMessages .., rfl⟩
  · rw [if_neg hinput, if_neg hinput]
    obtain ⟨hi, rfl⟩ := List.getElem?_eq_some_iff.mp hc
    exact ⟨clients[i], (List.set_getElem_self hi).symm, rfl, rfl⟩

private theorem valid_set {i : Nat} {c' : Connection} (hvalid : ∀ c ∈ clients, c.sock ≠ invalidSock)
    (hc' : c'.sock ≠ invalidSock) : ∀ c ∈ clients.set i c', c.sock ≠ invalidSock := by
  intro c hmem
  rcases List.mem_or_eq_of_mem_set hmem with hmem | rfl
  · exact hvalid c hmem
  · exact hc'

/-- The loop does what the clients and answers ahead of it say. -/
theorem trace_serve (p : Pass) (fds : List PollFd) {clients : List Connection}
    (hvalid : ∀ c ∈ clients, c.sock ≠ invalidSock) (i : Nat) :
    (p.serve fds i (i + 1) clients).map (·.trace) = p.walk (fds.drop (i + 1)) (clients.drop i) := by
  induction hmeasure : clients.length - i using Nat.strong_induction_on
    generalizing i clients with
  | _ measure ih =>
    cases hc : clients[i]? with
    | none =>
      rw [serve_done hc, List.drop_of_length_le (List.getElem?_eq_none_iff.mp hc)]
      cases fds.drop (i + 1) <;> rfl
    | some c =>
      obtain ⟨hi, hget⟩ := List.getElem?_eq_some_iff.mp hc
      have hahead : clients.drop i = c :: clients.drop (i + 1) := by
        rw [List.drop_eq_getElem_cons hi, hget]
      have hsock := hvalid c (List.mem_of_getElem? hc)
      rw [serve_client hc hsock, hahead]
      cases hfd : fds[i + 1]? with
      | none =>
        rw [List.drop_of_length_le (List.getElem?_eq_none_iff.mp hfd)]
        rfl
      | some fd =>
        obtain ⟨hfdi, hfdget⟩ := List.getElem?_eq_some_iff.mp hfd
        rw [List.drop_eq_getElem_cons hfdi, hfdget, Option.bind_some, walk]
        have hrest : ∀ clients' : List Connection, clients'.length ≤ clients.length →
            (∀ c ∈ clients', c.sock ≠ invalidSock) →
            (p.serve fds (i + 1) (i + 1 + 1) clients').map (·.trace) =
              p.walk (fds.drop (i + 1 + 1)) (clients'.drop (i + 1)) :=
          fun clients' hlen hvalid' => ih (clients'.length - (i + 1)) (by omega) hvalid' (i + 1) rfl
        -- what is ahead after a removal at `i`
        have herased : (clients.eraseIdx i).drop (i + 1) = (clients.drop (i + 1)).tail := by
          rw [← drop_eraseIdx hi, List.tail_drop]
        have herasedValid : ∀ c ∈ clients.eraseIdx i, c.sock ≠ invalidSock :=
          fun c hmem => hvalid c (List.mem_of_mem_eraseIdx hmem)
        have herasedLength := List.length_eraseIdx_le clients i
        by_cases herror : fd.revents.error = true
        · rw [if_pos herror, if_pos herror, map_after, hrest _ herasedLength herasedValid, herased]
        rw [if_neg herror, if_neg herror]
        dsimp only
        by_cases hdrops : fd.revents.input = true ∧ p.Drops c
        · obtain ⟨hread, htrace⟩ := readInput_of_drops hdrops clients i
          rw [if_pos hdrops, hread, htrace, ← List.head?_drop, drop_eraseIdx hi]
          cases hnext : (clients.drop (i + 1)).head? with
          | none => rfl
          | some next =>
            have hnextSock := hvalid next (List.mem_of_mem_drop (List.mem_of_mem_head? hnext))
            rw [Option.bind_some, Option.bind_some]
            by_cases houtput : fd.revents.output = true
            · rw [if_pos ⟨hnextSock, houtput⟩, if_pos houtput, map_after,
                hrest _ ((List.length_set ..).le.trans herasedLength)
                  (valid_set herasedValid (by simpa using hnextSock)),
                List.drop_set_of_lt (Nat.lt_succ_self i), herased]
            · rw [if_neg fun h => houtput h.2, if_neg houtput, map_after,
                hrest _ herasedLength herasedValid, herased]
              rfl
        · obtain ⟨c', hread, hsock', htrace⟩ := readInput_of_keeps hc hdrops
          have hvalid' := valid_set (i := i) hvalid (hsock' ▸ hsock)
          rw [if_neg hdrops, hread, htrace, List.getElem?_set_self hi, Option.bind_some]
          by_cases houtput : fd.revents.output = true
          · rw [if_pos ⟨hsock' ▸ hsock, houtput⟩, if_pos houtput, map_after,
              hrest _ (by rw [List.length_set, List.length_set])
                (valid_set hvalid' (by simpa [hsock'] using hsock)),
              List.drop_set_of_lt (Nat.lt_succ_self i), List.drop_set_of_lt (Nat.lt_succ_self i),
              hsock']
          · rw [if_neg fun h => houtput h.2, if_neg houtput, map_after,
              hrest _ (List.length_set ..).le hvalid', List.drop_set_of_lt (Nat.lt_succ_self i),
              List.append_nil]

/-- The answer for a client's own socket. -/
def answer (p : Pass) (c : Connection) : PollFd := ⟨c.sock, p.revents c.sock⟩

/-- What a pass with events records: a walk through the clients with their own answers. -/
theorem trace_poll (hactive : 0 < p.result) (hvalid : ∀ c ∈ clients, c.sock ≠ invalidSock)
    (listenSock : Int) : (p.poll listenSock clients).map (·.2.trace) =
      p.walk (clients.map p.answer) (clients ++ p.arrivals) := by
  have hfds : p.fds listenSock clients = ⟨listenSock, p.listening⟩ :: clients.map p.answer := by
    rw [fds, List.filter_eq_self.mpr fun c hc => by simpa using hvalid c hc]
    rfl
  have hclients : (if p.listening.input = true then p.acceptClient clients else clients) =
      clients ++ p.arrivals := by
    rw [arrivals, acceptClient]
    by_cases hinput : p.listening.input = true
    · by_cases hsock : p.accepted = invalidSock
      · rw [if_pos hinput, if_pos hsock, if_neg fun h => h.2 hsock, List.append_nil]
      · rw [if_pos hinput, if_neg hsock, if_pos ⟨hinput, hsock⟩]
    · rw [if_neg hinput, if_neg fun h => hinput h.1, List.append_nil]
  have hall : ∀ c ∈ clients ++ p.arrivals, c.sock ≠ invalidSock := by
    intro c hc
    rcases List.mem_append.mp hc with hc | hc
    · exact hvalid c hc
    · rw [arrivals] at hc
      split_ifs at hc with haccepts
      · obtain rfl := List.mem_singleton.mp hc
        exact haccepts.2
      · cases hc
  have hserve := p.trace_serve (p.fds listenSock clients) hall 0
  rw [List.drop_zero, hfds, List.drop_succ_cons, List.drop_zero, ← hfds] at hserve
  rw [poll, if_neg (by omega), if_neg (by omega), hclients, Option.map_map]
  exact hserve

/-- What is done to a client that is served by its own answer. -/
def handled (p : Pass) (c : Connection) : List PollEvent :=
  .visit c.sock (p.revents c.sock) ::
    if (p.revents c.sock).error then [.remove c.sock]
    else if (p.revents c.sock).input ∧ p.Drops c then [.read c.sock, .remove c.sock]
    else (if (p.revents c.sock).input then [.read c.sock] else []) ++
      (if (p.revents c.sock).output then [.write c.sock] else [])

private theorem sock_of_mem_handled {e : PollEvent} (h : e ∈ p.handled c) : e.sock = c.sock := by
  rw [handled] at h
  split_ifs at h <;> simp only [List.mem_cons, List.not_mem_nil, List.nil_append, List.append_nil,
    List.cons_append, or_false] at h <;> grind [PollEvent.sock]

private theorem nodup_handled (p : Pass) (c : Connection) : (p.handled c).Nodup := by
  rw [handled]
  split_ifs <;> simp

private theorem accordingTo_of_mem_handled {e : PollEvent} (h : e ∈ p.handled c) :
    e.AccordingTo (p.revents c.sock) := by
  rw [handled] at h
  split_ifs at h <;> simp only [List.mem_cons, List.not_mem_nil, List.nil_append, List.append_nil,
    List.cons_append, or_false] at h <;> grind [PollEvent.AccordingTo]

section walk

variable {fds : List PollFd}

/-- A client that stays leaves the two vectors side by side. -/
theorem walk_of_keeps (h : ¬ p.Removed c) (rest : List Connection) :
    p.walk (p.answer c :: fds) (c :: rest) = (p.walk fds rest).map (p.handled c ++ ·) := by
  have herror : ¬ (p.revents c.sock).error = true := fun herror => h (Or.inl herror)
  have hdrops : ¬ ((p.revents c.sock).input = true ∧ p.Drops c) := fun hdrops =>
    h (Or.inr ⟨Bool.eq_false_iff.mpr herror, hdrops⟩)
  rw [walk, handled, answer, if_neg herror, if_neg hdrops, if_neg herror, if_neg hdrops]
  rfl

/-- After an error the next client is passed over. -/
theorem walk_of_error (h : (p.revents c.sock).error = true) (rest : List Connection) :
    p.walk (p.answer c :: fds) (c :: rest) = (p.walk fds rest.tail).map (p.handled c ++ ·) := by
  rw [walk, handled, answer, if_pos h, if_pos h]

/-- After a read that removes the client, the next one is passed over, except for a write. -/
theorem walk_of_removedByRead (h : p.RemovedByRead c) (rest : List Connection) :
    p.walk (p.answer c :: fds) (c :: rest) = rest.head?.bind fun next =>
      (p.walk fds rest.tail).map (p.handled c ++
        (if (p.revents c.sock).output then [.write next.sock] else []) ++ ·) := by
  obtain ⟨herror, hdrops⟩ := h
  rw [← Bool.not_eq_true] at herror
  rw [walk, handled, answer, if_neg herror, if_pos hdrops, if_neg herror, if_pos hdrops]

/-- A walk touches the clients ahead only. -/
theorem sock_of_mem_walk {trace : List PollEvent} (h : p.walk fds clients = some trace)
    {e : PollEvent} (he : e ∈ trace) : e.sock ∈ clients.map (·.sock) := by
  induction fds generalizing clients trace with
  | nil =>
    cases clients with
    | nil =>
      obtain rfl := Option.some.inj h
      cases he
    | cons c clients => cases h
  | cons fd fds ih =>
    cases clients with
    | nil =>
      obtain rfl := Option.some.inj h
      cases he
    | cons c clients =>
      have htail : ∀ {l : List Connection} {rest : List PollEvent}, (∀ c' ∈ l, c' ∈ clients) →
          p.walk fds l = some rest → e ∈ rest → e.sock ∈ (c :: clients).map (·.sock) := by
        intro l rest hsub hrest he
        obtain ⟨c', hc', hsock⟩ := List.mem_map.mp (ih hrest he)
        exact List.mem_map.mpr ⟨c', List.mem_cons_of_mem _ (hsub c' hc'), hsock⟩
      rw [walk] at h
      by_cases herror : fd.revents.error = true
      · rw [if_pos herror] at h
        obtain ⟨rest, hrest, rfl⟩ := Option.map_eq_some_iff.mp h
        rcases List.mem_append.mp he with he | he
        · fin_cases he <;> exact List.mem_cons_self
        · exact htail (fun c' => List.mem_of_mem_tail) hrest he
      rw [if_neg herror] at h
      by_cases hdrops : fd.revents.input = true ∧ p.Drops c
      · rw [if_pos hdrops] at h
        obtain ⟨next, hnext, hmap⟩ := Option.bind_eq_some_iff.mp h
        obtain ⟨rest, hrest, rfl⟩ := Option.map_eq_some_iff.mp hmap
        rcases List.mem_append.mp he with he | he
        · rcases List.mem_append.mp he with he | he
          · fin_cases he <;> exact List.mem_cons_self
          · obtain rfl : e = .write next.sock := by
              split at he
              · exact List.mem_singleton.mp he
              · cases he
            exact List.mem_map_of_mem (List.mem_cons_of_mem _ (List.mem_of_mem_head? hnext))
        · exact htail (fun c' => List.mem_of_mem_tail) hrest he
      · rw [if_neg hdrops] at h
        obtain ⟨rest, hrest, rfl⟩ := Option.map_eq_some_iff.mp h
        rcases List.mem_append.mp he with he | he
        · have hsock : e.sock = c.sock := by
            split_ifs at he <;> fin_cases he <;> rfl
          rw [hsock]
          exact List.mem_cons_self
        · exact htail (fun c' => id) hrest he

end walk

private theorem orderly_nil : p.Orderly [] ↔ ¬ p.Accepts := by
  constructor
  · rintro ⟨-, hlast⟩ haccepts
    rw [if_pos haccepts] at hlast
    obtain ⟨c, hc, -⟩ := hlast
    cases hc
  · intro hno
    refine ⟨by simp, ?_⟩
    rw [if_neg hno]
    simp

private theorem orderly_singleton :
    p.Orderly [c] ↔ if p.Accepts then p.Removed c else ¬ p.RemovedByRead c := by
  constructor
  · rintro ⟨-, hlast⟩
    split_ifs at hlast ⊢ with haccepts
    · obtain ⟨c', hc', hremoved⟩ := hlast
      obtain rfl : c = c' := Option.some.inj hc'
      exact hremoved
    · exact hlast c rfl
  · intro h
    refine ⟨by simp, ?_⟩
    split_ifs at h ⊢ with haccepts
    · exact ⟨c, rfl, h⟩
    · rintro c' hc'
      obtain rfl : c = c' := Option.some.inj hc'
      exact h

private theorem orderly_cons_cons {c' : Connection} :
    p.Orderly (c :: c' :: clients) ↔ ¬ p.Removed c ∧ p.Orderly (c' :: clients) := by
  constructor
  · rintro ⟨hfront, hlast⟩
    rw [List.dropLast_cons_cons, List.forall_mem_cons] at hfront
    exact ⟨hfront.1, hfront.2, hlast⟩
  · rintro ⟨hc, hfront, hlast⟩
    refine ⟨?_, hlast⟩
    rw [List.dropLast_cons_cons, List.forall_mem_cons]
    exact ⟨hc, hfront⟩

/-- An orderly pass handles every client by its own answer, and besides writes at most to the
connection it accepts. -/
theorem walk_of_orderly (h : p.Orderly clients) :
    ∃ stray, p.walk (clients.map p.answer) (clients ++ p.arrivals) =
        some (clients.flatMap p.handled ++ stray) ∧ ∀ e ∈ stray, e.sock = p.accepted := by
  induction clients with
  | nil =>
    rw [orderly_nil] at h
    rw [arrivals, if_neg h]
    exact ⟨[], rfl, by simp⟩
  | cons c clients ih =>
    cases clients with
    | nil =>
      rw [orderly_singleton] at h
      rw [List.map_singleton, List.singleton_append, List.flatMap_singleton]
      by_cases hremoved : p.Removed c
      · rcases hremoved with herror | hread
        · refine ⟨[], ?_, by simp⟩
          rw [walk_of_error herror, arrivals]
          split_ifs <;> rfl
        · have haccepts : p.Accepts := by
            by_contra hno
            rw [if_neg hno] at h
            exact h hread
          refine ⟨if (p.revents c.sock).output then [.write p.accepted] else [], ?_, ?_⟩
          · rw [walk_of_removedByRead hread, arrivals, if_pos haccepts, List.head?_cons,
              Option.bind_some, List.tail_cons]
            exact congrArg some (List.append_nil _)
          · intro e he
            split_ifs at he
            · rw [List.mem_singleton.mp he, PollEvent.sock]
            · cases he
      · have hno : ¬ p.Accepts := fun haccepts => by
          rw [if_pos haccepts] at h
          exact hremoved h
        rw [walk_of_keeps hremoved, arrivals, if_neg hno]
        exact ⟨[], rfl, by simp⟩
    | cons c' clients =>
      obtain ⟨hkeeps, hrest⟩ := orderly_cons_cons.mp h
      obtain ⟨stray, hwalk, hstray⟩ := ih hrest
      refine ⟨stray, ?_, hstray⟩
      rw [List.map_cons, List.cons_append, walk_of_keeps hkeeps, hwalk, Option.map_some,
        ← List.append_assoc, ← List.flatMap_cons]

/-- A client that is not ahead of the rest of a walk is passed over. -/
theorem passed_over {fds : List PollFd} {rest extra : List PollEvent} {c' : Connection}
    (hrest : p.walk fds clients = some rest) (hahead : c'.sock ∉ clients.map (·.sock))
    (hne : c.sock ≠ c'.sock) (hextra : ∀ e ∈ extra, ∃ sock, e = .write sock)
    (hserved : .remove c'.sock ∉ p.handled c ++ extra ++ rest →
      ∃ taken, .visit c'.sock taken ∈ p.handled c ++ extra ++ rest) : False := by
  have hno : ∀ e ∈ p.handled c ++ extra ++ rest, e.sock = c'.sock → ∃ sock, e = .write sock := by
    intro e he hsock
    rcases List.mem_append.mp he with he | he
    · rcases List.mem_append.mp he with he | he
      · exact absurd ((sock_of_mem_handled he).symm.trans hsock) hne
      · exact hextra e he
    · exact absurd (hsock ▸ sock_of_mem_walk hrest he) hahead
  obtain ⟨taken, htaken⟩ := hserved fun hremove => by
    obtain ⟨sock, hsock⟩ := hno _ hremove rfl
    cases hsock
  obtain ⟨sock, hsock⟩ := hno _ htaken rfl
  cases hsock

/-- The client behind one that is removed is passed over. -/
theorem passed_over_of_removed {c c' : Connection} (hremoved : p.Removed c)
    (hne : c.sock ≠ c'.sock) (hahead : c'.sock ∉ (clients ++ p.arrivals).map (·.sock))
    {trace : List PollEvent}
    (h : p.walk (p.answer c :: (c' :: clients).map p.answer) (c :: (c' :: clients ++ p.arrivals)) =
      some trace) :
    ¬ (.remove c'.sock ∉ trace → ∃ taken, .visit c'.sock taken ∈ trace) := by
  intro hc'
  rcases hremoved with herror | hread
  · rw [walk_of_error herror] at h
    obtain ⟨rest, hrest, rfl⟩ := Option.map_eq_some_iff.mp h
    rw [← List.append_nil (p.handled c)] at hc'
    exact passed_over hrest hahead hne (by simp) hc'
  · rw [walk_of_removedByRead hread, List.cons_append, List.head?_cons, Option.bind_some] at h
    obtain ⟨rest, hrest, rfl⟩ := Option.map_eq_some_iff.mp h
    refine passed_over hrest hahead hne (fun e he => ?_) hc'
    split_ifs at he
    · exact ⟨_, List.mem_singleton.mp he⟩
    · cases he

/-- A pass that stays in range and passes over no client that stays is orderly. -/
theorem orderly_of_walk (hdistinct : (clients.map (·.sock)).Nodup)
    (hfresh : p.accepted ∉ clients.map (·.sock)) {trace : List PollEvent}
    (h : p.walk (clients.map p.answer) (clients ++ p.arrivals) = some trace)
    (hserved : ∀ c ∈ clients, .remove c.sock ∉ trace → ∃ taken, .visit c.sock taken ∈ trace) :
    p.Orderly clients := by
  induction clients generalizing trace with
  | nil =>
    refine orderly_nil.mpr fun haccepts => ?_
    rw [arrivals, if_pos haccepts] at h
    cases h
  | cons c clients ih =>
    rw [List.map_cons, List.nodup_cons] at hdistinct
    rw [List.map_cons, List.mem_cons, not_or] at hfresh
    rw [List.map_cons, List.cons_append] at h
    have hnot : ∀ c' ∈ clients, c.sock ≠ c'.sock := fun c' hc' heq =>
      hdistinct.1 (heq ▸ List.mem_map_of_mem hc')
    by_cases hremoved : p.Removed c
    · -- a client behind the removed one is passed over, so there is none
      cases clients with
      | nil =>
        rw [orderly_singleton]
        split_ifs with haccepts
        · exact hremoved
        · intro hread
          rw [walk_of_removedByRead hread, arrivals, if_neg haccepts] at h
          cases h
      | cons c' clients =>
        exfalso
        have hahead : c'.sock ∉ (clients ++ p.arrivals).map (·.sock) := by
          rw [List.map_append, List.mem_append, not_or]
          refine ⟨(List.nodup_cons.mp hdistinct.2).1, fun hmem => ?_⟩
          obtain ⟨new, hnew, hsock⟩ := List.mem_map.mp hmem
          rw [arrivals] at hnew
          split_ifs at hnew
          · obtain rfl := List.mem_singleton.mp hnew
            exact hfresh.2 (List.mem_map.mpr ⟨c', List.mem_cons_self, hsock.symm⟩)
          · cases hnew
        exact passed_over_of_removed hremoved (hnot c' List.mem_cons_self) hahead h
          (hserved c' (List.mem_cons_of_mem _ List.mem_cons_self))
    · rw [walk_of_keeps hremoved] at h
      obtain ⟨rest, hrest, rfl⟩ := Option.map_eq_some_iff.mp h
      have hother : ∀ {e : PollEvent} {c' : Connection}, c' ∈ clients → e.sock = c'.sock →
          e ∈ p.handled c ++ rest → e ∈ rest := by
        intro e c' hc' hsock he
        rcases List.mem_append.mp he with he | he
        · exact absurd ((sock_of_mem_handled he).symm.trans hsock) (hnot c' hc')
        · exact he
      have horderly := ih hdistinct.2 hfresh.2 hrest fun c' hc' hstays => by
        obtain ⟨taken, htaken⟩ := hserved c' (List.mem_cons_of_mem _ hc')
          fun hmem => hstays (hother hc' rfl hmem)
        exact ⟨taken, hother hc' rfl htaken⟩
      cases clients with
      | nil =>
        rw [orderly_singleton, if_neg (orderly_nil.mp horderly)]
        exact fun hread => hremoved (Or.inr hread)
      | cons c' clients => exact orderly_cons_cons.mpr ⟨hremoved, horderly⟩

private theorem count_handled_le (hdistinct : (clients.map (·.sock)).Nodup) (e : PollEvent) :
    (clients.flatMap p.handled).count e ≤ 1 := by
  induction clients with
  | nil => simp
  | cons c clients ih =>
    rw [List.map_cons, List.nodup_cons] at hdistinct
    rw [List.flatMap_cons, List.count_append]
    by_cases hsock : e.sock = c.sock
    · have hrest : (clients.flatMap p.handled).count e = 0 := List.count_eq_zero.mpr fun he => by
        obtain ⟨c', hc', he⟩ := List.mem_flatMap.mp he
        have heq := hsock.symm.trans (sock_of_mem_handled he)
        exact hdistinct.1 (heq ▸ List.mem_map_of_mem hc')
      rw [hrest]
      exact List.nodup_iff_count_le_one.mp (p.nodup_handled c) e
    · have hfirst : (p.handled c).count e = 0 := List.count_eq_zero.mpr fun he =>
        hsock (sock_of_mem_handled he)
      rw [hfirst, Nat.zero_add]
      exact ih hdistinct.2

/-- What is done to the clients of an orderly pass. -/
theorem serves_of_handled (hdistinct : (clients.map (·.sock)).Nodup)
    (hfresh : p.accepted ∉ clients.map (·.sock)) {stray : List PollEvent}
    (hstray : ∀ e ∈ stray, e.sock = p.accepted) :
    p.Serves clients (clients.flatMap p.handled ++ stray) := by
  -- an event of a client is one of those it is handled by
  have hown : ∀ c ∈ clients, ∀ e ∈ clients.flatMap p.handled ++ stray, e.sock = c.sock →
      e ∈ p.handled c := by
    intro c hc e he hsock
    rcases List.mem_append.mp he with he | he
    · obtain ⟨c', hc', he⟩ := List.mem_flatMap.mp he
      have heq := List.inj_on_of_nodup_map hdistinct hc hc' (hsock ▸ sock_of_mem_handled he)
      exact heq ▸ he
    · exact absurd (hstray e he ▸ hsock ▸ List.mem_map_of_mem hc) hfresh
  refine ⟨fun c hc e hsock => ?_, fun c hc e he hsock => accordingTo_of_mem_handled
    (hown c hc e he hsock), fun c hc _ => ⟨p.revents c.sock, ?_⟩⟩
  · have hstrayCount : stray.count e = 0 := List.count_eq_zero.mpr fun he =>
      hfresh (hstray e he ▸ hsock ▸ List.mem_map_of_mem hc)
    rw [List.count_append, hstrayCount, Nat.add_zero]
    exact count_handled_le hdistinct e
  · exact List.mem_append_left _ (List.mem_flatMap.mpr ⟨c, hc, List.mem_cons_self⟩)

end Pass

/-- A pass in which something happens stays in range, does to each client what the answers for
its own socket call for, at most once, and passes over none that stays, exactly when no client
but the last is removed, and the last one is removed if a connection is accepted and not removed
by a read if none is. -/
theorem poll_serves_iff {p : Pass} (hactive : 0 < p.result) {clients : List Connection}
    (hvalid : ∀ c ∈ clients, c.sock ≠ invalidSock) (hdistinct : (clients.map (·.sock)).Nodup)
    (hfresh : p.accepted ∉ clients.map (·.sock)) (listenSock : Int) :
    (∃ done, p.poll listenSock clients = some done ∧ p.Serves clients done.2.trace) ↔
      p.Orderly clients := by
  have htrace := Pass.trace_poll hactive hvalid listenSock
  constructor
  · rintro ⟨done, hpoll, hserves⟩
    rw [hpoll, Option.map_some] at htrace
    exact Pass.orderly_of_walk hdistinct hfresh htrace.symm hserves.served
  · intro horderly
    obtain ⟨stray, hwalk, hstray⟩ := Pass.walk_of_orderly horderly
    rw [hwalk] at htrace
    obtain ⟨done, hpoll, hdone⟩ := Option.map_eq_some_iff.mp htrace
    exact ⟨done, hpoll, hdone ▸ Pass.serves_of_handled hdistinct hfresh hstray⟩

/-- Two clients: one can be written to, and the last one hangs up. -/
theorem poll_serves_iff_hang_up :
    let p : Pass := { result := 2, listening := {}, accepted := -1, recv := fun _ => []
                      revents := fun sock => if sock = 5 then { output := true } else { error := true }
                      sent := fun _ => 0, hasOrder := fun _ => false, events := [] }
    ∃ done, p.poll 3 [{ sock := 5 }, { sock := 6 }] = some done ∧
      p.Serves [{ sock := 5 }, { sock := 6 }] done.2.trace := by
  intro p
  refine (poll_serves_iff (by decide) (by decide) (by decide) (by decide) 3).mpr ⟨?_, ?_⟩
  · decide
  · rw [if_neg (by decide)]
    rintro c hc
    obtain rfl := Option.some.inj hc
    decide

/-- A connection that arrives while nobody is connected: the loop reads past the end of the
answers. -/
theorem accepted_connection_out_of_range :
    let p : Pass := { result := 1, listening := { input := true }, accepted := 5
                      recv := fun _ => [], revents := fun _ => {}, sent := fun _ => 0
                      hasOrder := fun _ => false, events := [] }
    p.poll 3 [] = none ∧
      ¬ ∃ done, p.poll 3 [] = some done ∧ p.Serves [] done.2.trace := by
  intro p
  have htrace : (p.poll 3 []).map (·.2.trace) = none :=
    Pass.trace_poll (by decide) (by simp) 3
  have hnone : p.poll 3 [] = none := Option.map_eq_none_iff.mp htrace
  refine ⟨hnone, ?_⟩
  rintro ⟨done, hdone, -⟩
  cases hnone.symm.trans hdone

end LiquidityArena
