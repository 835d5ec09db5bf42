import Mathlib.Data.List.Basic

/-!
# Easycom — Transport

The `Transport` trait, and the in-memory `MockTransport`.
-/

namespace Easycom

/-- A byte channel in state `T`, failing with errors of `ε`. A call returns
its result and the state after it; `read` is handed a buffer and returns
it too, of the same length. -/
class Transport (T : Type) (ε : outParam Type) where
  write : T → List UInt8 → Except ε Unit × T
  read : T → List UInt8 → (Except ε Nat × List UInt8) × T
  read_length : ∀ t buf, (read t buf).1.2.length = buf.length

/-- Stores writes and replays queued responses. -/
structure MockTransport where
  written : List UInt8
  rxBuf : List UInt8
  deriving DecidableEq, Repr

namespace MockTransport

def new : MockTransport := ⟨[], []⟩

def enqueueResponse (self : MockTransport) (frame : List UInt8) : MockTransport :=
  { self with rxBuf := self.rxBuf ++ frame }

instance : Transport MockTransport Empty where
  write self frame := (.ok (), { self with written := self.written ++ frame })
  read self buf :=
    let n := min buf.length self.rxBuf.length
    ((.ok n, self.rxBuf.take n ++ buf.drop n),
      { self with rxBuf := self.rxBuf.drop n })
  read_length self buf := by
    simp only [List.length_append, List.length_take, List.length_drop]
    omega

end MockTransport

end Easycom
