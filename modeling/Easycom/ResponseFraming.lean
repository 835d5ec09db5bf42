import Easycom.ResponseReencoding
import Easycom.ResponseStream

/-!
# Easycom — ResponseFraming

The boundaries of response frames. Whatever the values of a response, and
whatever the buffer held, the encoder writes one line and nothing behind
it (`Framed`), so that a `Parser` fed with encoded responses reports each
of them at its last byte and is silent elsewhere
(`response_boundaries`). Angles above 999 come out modulo 1000; the
boundaries do not depend on them.
-/

namespace Easycom

open Rust Stream

/-- The first `n` bytes of `out` are the frame of the response, a line of
its own, and the others are those of `buf`. -/
structure Framed (r : Response) (buf out : List UInt8) (n : Nat) : Prop where
  ge : 2 ≤ n
  le : n ≤ 20
  frame : out.take n = r.frame
  last : out[n - 1]? = some r.terminator
  plain : Plain (out.take (n - 1))
  rest : out.drop n = buf.drop n
  length : out.length = buf.length

/-- **The encoder writes one line**, into a buffer with room for it. -/
theorem framed_filled (r : Response) {buf : List UInt8} (hroom : 20 ≤ buf.length) :
    Framed r buf (filled buf r.frame) r.frame.length := by
  have hlen := r.frame_length
  have hle := r.payload_length_le
  have hpos := List.length_pos_iff.mpr r.payload_ne_nil
  have hpayload : (filled buf r.frame).take (r.frame.length - 1) = r.payload := by
    rw [hlen, Nat.add_sub_cancel]
    exact take_filled_append _ _ _
  refine ⟨by omega, by omega, take_filled _ _, ?_, ?_, drop_filled _ _,
    filled_length (by omega)⟩
  · rw [hlen, Nat.add_sub_cancel, filled, Response.frame, List.append_assoc,
      List.getElem?_append_right (Nat.le_refl _)]
    simp
  · rw [hpayload]
    exact r.payload_plain

theorem readResponse_received (r : Response) : readResponse r.payload = .ok r.received := by
  rw [← r.payload_received]
  exact readResponse_payload r.received_inRange

/-- What a parser returns along a stream of response lines, byte by byte. -/
theorem responses_events (rs : List Response) :
    (rs.flatMap fun r => List.replicate r.payload.length .quiet ++ [.line r.payload]).map
        responseEvent
      = rs.flatMap fun r =>
          List.replicate (r.frame.length - 1) none ++ [some (.ok r.received)] := by
  rw [List.map_flatMap]
  refine List.flatMap_congr fun r _ => ?_
  rw [List.map_append, List.map_replicate, List.map_singleton, r.frame_length,
    Nat.add_sub_cancel]
  simp only [responseEvent, readResponse_received]

/-- **Frame boundaries hold for every value.** The encoder writes a line of
at most 20 bytes over the front of the buffer and keeps the rest of it. A
fresh parser fed with the frames of any responses returns nothing inside a
frame and a response at the last byte of each; it never overflows and is
empty at the end. -/
theorem response_boundaries (r : Response) (buf : List UInt8) (hroom : 20 ≤ buf.length)
    (rs : List Response) :
    (∃ out n, encodeResponseInto r buf = .ok (out, n) ∧ Framed r buf out n) ∧
    ∃ parser, feedAll Parser.feed Parser.new (rs.flatMap Response.frame)
        = .ok (rs.flatMap fun r =>
            List.replicate (r.frame.length - 1) none ++ [some (.ok r.received)], parser) ∧
      parser.len = 0 := by
  refine ⟨⟨_, _, encodeResponseInto_eq r hroom, framed_filled r hroom⟩, ?_⟩
  rw [← responses_events]
  exact Parser.feedAll_frames rs

/-- An azimuth above 999 over a buffer of noise, then two responses in one
stream. -/
theorem response_boundaries_wide :
    (∃ out n, encodeResponseInto (.azimuthPosition 1234) (List.replicate 20 0xFF) = .ok (out, n) ∧
      Framed (.azimuthPosition 1234) (List.replicate 20 0xFF) out n) ∧
    ∃ parser, feedAll Parser.feed Parser.new
          ([Response.azimuthPosition 1234, .ack].flatMap Response.frame)
        = .ok ([Response.azimuthPosition 1234, .ack].flatMap fun r =>
            List.replicate (r.frame.length - 1) none ++ [some (.ok r.received)], parser) ∧
      parser.len = 0 :=
  response_boundaries _ _ (by decide) _

end Easycom
