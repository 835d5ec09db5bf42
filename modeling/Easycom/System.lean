import Easycom.DeviceLink

/-!
# Easycom — System

Host and device at work at the same time. `Session::send` is taken apart
into its head, up to the receive loop (`sendHead`), and the iterations of
the loop (`recvStep`); a `World` runs them in steps, in any order with the
bytes that the device handles and the bytes that travel back to the host.

Nothing is assumed of the order: a frame may be half handled while the
host is already reading, and half of a response may have arrived.
-/

namespace Easycom

open Rust Stream

/-! ## A send in steps -/

section Head

variable {T ε : Type} [Transport T ε]

/-- `send` up to its receive loop: the result of a send that does not get
there, or the frame that was written and the locals the loop starts
with. -/
def Session.sendHead (self : Session T) (cmd : Command) :
    Exec (Sent T ε ⊕ List UInt8 × Nat × RecvState T) := do
  let (r, frameBuf) ← encodeInto cmd (List.replicate 32 0)
  match r with
  | .error msg => return .inl (.error (.invalidParam msg), self)
  | .ok len =>
      let frame ← sliceTo frameBuf len
      match Transport.write self.transport frame with
      | (.error e, transport) =>
          return .inl (.error (.transport e), { self with transport })
      | (.ok (), transport) =>
          return .inr (frameBuf, len,
            { session := { self with transport }
              byte := [0]
              rxFrame := Vector.replicate 32 0
              rxLen := 0 })

/-- **A send is its head and its loop.** -/
theorem Session.send_eq (fuel : Nat) (self : Session T) (cmd : Command) :
    self.send fuel cmd = (do
      match ← self.sendHead cmd with
      | .inl out => return some out
      | .inr (frameBuf, len, st) => loop (recvStep frameBuf len) fuel st) := by
  rw [Session.send, Session.sendHead]
  cases encodeInto cmd (List.replicate 32 0) with
  | error p => rfl
  | ok enc =>
      obtain ⟨r, frameBuf⟩ := enc
      cases r with
      | error msg => rfl
      | ok len =>
          simp only [ok_bind]
          cases sliceTo frameBuf len with
          | error p => rfl
          | ok frame =>
              simp only [ok_bind]
              cases Transport.write self.transport frame with
              | mk written transport => cases written <;> rfl

/-- A rejected command ends the send at its head. -/
theorem Session.sendHead_rejected {c : Command} (hc : ¬ c.Accepted) (s : Session T) :
    ∃ msg, s.sendHead c = .ok (.inl (.error (.invalidParam msg), s)) := by
  obtain ⟨msg, hmsg⟩ := encodeInto_rejected hc (List.replicate 32 0)
  exact ⟨msg, by rw [sendHead, hmsg]; rfl⟩

/-- An accepted command is written, and the loop starts as its listener
does. -/
theorem Session.sendHead_accepted {c : Command} (hc : c.Accepted) {s : Session T} {t : T}
    {l : List UInt8}
    (hw : Transport.write s.transport (c.payload ++ [byte '\r']) = (.ok (), t))
    (hl : s.parser.Holds l) :
    ∃ frameBuf st, s.sendHead c = .ok (.inr (frameBuf, c.payload.length + 1, st)) ∧
      sliceTo frameBuf c.payload.length = .ok c.payload ∧ Hears st (Listener.start t l) := by
  obtain ⟨frameBuf, henc, hframe, hsent⟩ := encode_frame hc
  refine ⟨frameBuf, ⟨{ s with transport := t }, [0], Vector.replicate 32 0, 0⟩, ?_, hsent,
    ⟨rfl, rfl, rfl, hl, holds_nil _⟩⟩
  rw [sendHead, henc]
  simp only [ok_bind, hframe, hw]
  rfl

end Head

/-! ## The world -/

/-- The host's end of the channel: what the device has not handled yet,
and what has arrived for the host. -/
structure Port where
  toDevice : List UInt8
  arrived : List UInt8
  deriving DecidableEq

instance : Transport Port Empty where
  write self frame := (.ok (), { self with toDevice := self.toDevice ++ frame })
  read self buf :=
    match self.arrived, buf with
    | b :: arrived, _ :: buf => ((.ok 1, b :: buf), { self with arrived })
    | _, buf => ((.ok 0, buf), self)
  read_length self buf := by split <;> rfl

/-- A host between two sends, or in the receive loop of one. -/
inductive Host where
  | idle (session : Session Port)
  | receiving (cmd : Command) (frameBuf : List UInt8) (len : Nat) (st : RecvState Port)

def Host.port : Host → Port
  | .idle session => session.transport
  | .receiving _ _ _ st => st.session.transport

def Host.setPort : Host → Port → Host
  | .idle session, port => .idle { session with transport := port }
  | .receiving cmd frameBuf len st, port =>
      .receiving cmd frameBuf len { st with session := { st.session with transport := port } }

/-- A host with the commands it has still to send and the results it has,
a device, and the bytes on their way from the device. -/
structure World where
  host : Host
  device : Device
  inFlight : List UInt8
  todo : List Command
  results : List (Command × Except (Error Empty) Response)

def World.new (script : List (Bool × Response)) (todo : List Command) : World :=
  ⟨.idle (Session.new ⟨[], []⟩), Device.new script, [], todo, []⟩

/-- One step of the host, of the device, or of the channel. A read waits
until a byte has arrived. -/
inductive World.Step : World → World → Prop where
  /-- The next send writes its frame and enters the receive loop. -/
  | send {session : Session Port} {device inFlight cmd todo results frameBuf len st}
      (h : session.sendHead cmd = .ok (.inr (frameBuf, len, st))) :
      Step ⟨.idle session, device, inFlight, cmd :: todo, results⟩
        ⟨.receiving cmd frameBuf len st, device, inFlight, todo, results⟩
  /-- The next send returns before its loop. -/
  | refuse {session session' : Session Port} {device inFlight cmd todo results r}
      (h : session.sendHead cmd = .ok (.inl (r, session'))) :
      Step ⟨.idle session, device, inFlight, cmd :: todo, results⟩
        ⟨.idle session', device, inFlight, todo, results ++ [(cmd, r)]⟩
  /-- The device handles a byte, and sends what it answers. -/
  | handle {w : World} {b : UInt8} {bytes out : List UInt8} {device : Device}
      (hb : w.host.port.toDevice = b :: bytes) (h : w.device.receive b = .ok (out, device)) :
      Step w { w with
        host := w.host.setPort { w.host.port with toDevice := bytes }
        device
        inFlight := w.inFlight ++ out }
  /-- A byte of the device arrives. -/
  | arrive {w : World} {b : UInt8} {bytes : List UInt8} (hb : w.inFlight = b :: bytes) :
      Step w { w with
        host := w.host.setPort { w.host.port with arrived := w.host.port.arrived ++ [b] }
        inFlight := bytes }
  /-- The loop reads a byte and goes round again. -/
  | read {cmd frameBuf len} {st st' : RecvState Port} {device inFlight todo results}
      (hready : st.session.transport.arrived ≠ [])
      (h : recvStep frameBuf len st = .ok (.inl st')) :
      Step ⟨.receiving cmd frameBuf len st, device, inFlight, todo, results⟩
        ⟨.receiving cmd frameBuf len st', device, inFlight, todo, results⟩
  /-- The loop reads a byte and returns. -/
  | answer {cmd frameBuf len} {st : RecvState Port} {device inFlight todo results r session}
      (hready : st.session.transport.arrived ≠ [])
      (h : recvStep frameBuf len st = .ok (.inr (r, session))) :
      Step ⟨.receiving cmd frameBuf len st, device, inFlight, todo, results⟩
        ⟨.idle session, device, inFlight, todo, results ++ [(cmd, r)]⟩

/-! ## The host as a listener -/

/-- The host is in the loop of a send of `cmd`, where its listener is. -/
inductive Host.Receives : Host → Command → Listener Port → Prop where
  | mk {cmd : Command} {frameBuf : List UInt8} {st : RecvState Port} {a : Listener Port}
      (hsent : sliceTo frameBuf cmd.payload.length = .ok cmd.payload) (h : Hears st a) :
      (Host.receiving cmd frameBuf (cmd.payload.length + 1) st).Receives cmd a

theorem Host.Receives.port {host : Host} {cmd : Command} {a : Listener Port}
    (h : host.Receives cmd a) : host.port = a.transport := by
  cases h with
  | mk _ h => exact h.transport

theorem Host.Receives.setPort {host : Host} {cmd : Command} {a : Listener Port}
    (h : host.Receives cmd a) (port : Port) :
    (host.setPort port).Receives cmd { a with transport := port } := by
  cases h with
  | mk hsent h => exact .mk hsent ⟨rfl, h.byte, h.byte_length, h.parser, h.rx⟩

/-- An iteration of the loop is a read of the listener. -/
theorem Host.Receives.recvStep {cmd cmd' : Command} {frameBuf : List UInt8} {len : Nat}
    {st : RecvState Port} {a : Listener Port}
    (h : (Host.receiving cmd' frameBuf len st).Receives cmd a) :
    (cmd' = cmd ∧ len = cmd.payload.length + 1 ∧
      sliceTo frameBuf cmd.payload.length = .ok cmd.payload) ∧
    a.byte.length = 1 ∧
      Returns (Easycom.recvStep frameBuf len st) fun out =>
        Sum.LiftRel Hears Returned out (a.step cmd.payload) := by
  cases h with
  | mk hsent h =>
      have hlen := cmd.payload_length_le
      exact ⟨⟨rfl, rfl, hsent⟩, h.byte_length, recvStep_refines hsent (by omega) st a h⟩

/-- A listener at the port reads the first byte that has arrived. -/
theorem Listener.step_arrived {a : Listener Port} (hbyte : a.byte.length = 1) {b : UInt8}
    {arrived : List UInt8} (h : a.transport.arrived = b :: arrived) (sent : List UInt8) :
    a.step sent =
      if isTerminator b then
        if a.heard = sent then .inl ⟨{ a.transport with arrived }, [b], [], []⟩
        else .inr ⟨(readResponse a.pending).mapError .parse, { a.transport with arrived }, []⟩
      else
        .inl ⟨{ a.transport with arrived }, [b],
          (Stream.step isTerminator maxFrame a.pending b).2, a.heard ++ [b]⟩ := by
  obtain ⟨x, hx⟩ := List.length_eq_one_iff.mp hbyte
  have hread : Transport.read a.transport a.byte
      = ((.ok 1, [b]), { a.transport with arrived }) := by
    simp only [Transport.read, h, hx]
  rw [Listener.step, hread]
  rfl

end Easycom
