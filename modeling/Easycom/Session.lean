import Easycom.Parser
import Easycom.Rust.Loop
import Easycom.Transport

/-!
# Easycom — Session

`Session::send`: encode, write, then read byte by byte until the parser
emits a frame that is not an echo of the command.

A transport that never stops delivering echoes keeps the receive loop
running, so `send` takes the number of its iterations as fuel, `none`
meaning that it has not returned; `Session.Sends` is the result of a send
that does return.
-/

namespace Easycom

open Rust

structure Session (T : Type) where
  transport : T
  parser : Parser
  deriving DecidableEq

variable {T ε : Type} [Transport T ε]

def Session.new (transport : T) : Session T := ⟨transport, Parser.new⟩

def Session.intoTransport (self : Session T) : T := self.transport

/-- The locals of `send` that change in its receive loop. -/
structure RecvState (T : Type) where
  session : Session T
  byte : List UInt8
  rxFrame : Vector UInt8 32
  rxLen : Nat

/-- `rx_frame[rx_len] = b`, skipped when the frame buffer is full. -/
def RecvState.keep (st : RecvState T) (b : UInt8) : Exec (RecvState T) := do
  if st.rxLen < 32 then
    let rxFrame ← storeArray st.rxFrame st.rxLen b
    return { st with rxFrame, rxLen := st.rxLen + 1 }
  return st

/-- What a `send` that returns leaves. -/
abbrev Sent (T ε : Type) := Except (Error ε) Response × Session T

/-- One iteration of the receive loop: the next state, or the result that
leaves the loop. `frameBuf` and `len` are the frame that was written. -/
def recvStep (frameBuf : List UInt8) (len : Nat) (st : RecvState T) :
    Exec (RecvState T ⊕ Sent T ε) := do
  let ((n, byte), transport) := Transport.read st.session.transport st.byte
  let st := { st with session.transport := transport, byte := byte }
  match n with
  | .error e => return .inr (.error (.transport e), st.session)
  | .ok 0 => return .inr (.error .timeout, st.session)
  | .ok (_ + 1) =>
    let b ← index st.byte 0
    if isTerminator b then
      let (result, parser) ← st.session.parser.feed b
      let st := { st with session.parser := parser }
      if let some result := result then
        -- echo suppression: a frame byte-identical to the command sent
        let sent ← sliceTo frameBuf (len - 1)
        let rx ← sliceTo st.rxFrame.toList st.rxLen
        if rx = sent then
          return .inl { st with rxLen := 0 }
        match result with
        | .ok r => return .inr (.ok r, st.session)
        | .error p => return .inr (.error (.parse p), st.session)
      return .inl { st with rxLen := 0 }
    else
      let st ← st.keep b
      let (_, parser) ← st.session.parser.feed b
      return .inl { st with session.parser := parser }

/-- `Session::send`. -/
def Session.send (fuel : Nat) (self : Session T) (cmd : Command) :
    Exec (Option (Sent T ε)) := do
  let (r, frameBuf) ← encodeInto cmd (List.replicate 32 0)
  match r with
  | .error msg => return some (.error (.invalidParam msg), self)
  | .ok len =>
      let frame ← sliceTo frameBuf len
      match Transport.write self.transport frame with
      | (.error e, transport) =>
          return some (.error (.transport e), { self with transport })
      | (.ok (), transport) =>
          loop (recvStep frameBuf len) fuel
            { session := { self with transport }
              byte := [0]
              rxFrame := Vector.replicate 32 0
              rxLen := 0 }

/-- `send` returns `r` and leaves the session `s'`: some number of loop
iterations ends with that result. -/
def Session.Sends (s : Session T) (cmd : Command)
    (r : Except (Error ε) Response) (s' : Session T) : Prop :=
  ∃ fuel, s.send fuel cmd = .ok (some (r, s'))

end Easycom
