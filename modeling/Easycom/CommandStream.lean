import Easycom.ParserLines

/-!
# Easycom — CommandStream

The host-to-device direction. A stream of encoded commands, with and
without checksums, comes out of a fresh `CommandParser` command by command
(`commandStream_roundTrip`). A line longer than the parser's buffer leaves
its residue there, which is decoded at the terminator like any line
(`overlong_discarded_iff`).
-/

namespace Easycom

open Rust Stream

/-! ## Frames of a host -/

/-- A command to be sent, with or without a checksum, and the buffer it is
encoded into. -/
structure HostFrame where
  command : Command
  checksum : Bool
  buf : List UInt8

/-- The encoder the host calls. -/
def HostFrame.encode (f : HostFrame) : Exec Encoded :=
  if f.checksum then encodeWithChecksum f.command f.buf else encodeInto f.command f.buf

/-- The bytes the host sends: the written part of its buffer. -/
def HostFrame.sent (f : HostFrame) : Exec (Except String (List UInt8)) := do
  let (r, buf) ← f.encode
  match r with
  | .error msg => return .error msg
  | .ok len =>
      let frame ← sliceTo buf len
      return .ok frame

/-- The frame without its CR. -/
def HostFrame.line (f : HostFrame) : List UInt8 :=
  if f.checksum then f.command.checkedPayload else f.command.payload

theorem HostFrame.sent_eq {f : HostFrame} (hacc : f.command.Accepted)
    (hroom : 23 ≤ f.buf.length) : f.sent = .ok (.ok (f.line ++ [byte '\r'])) := by
  have hlen := f.command.payload_length_le
  rw [HostFrame.sent, HostFrame.encode, HostFrame.line]
  split
  · rw [encodeWithChecksum_accepted hacc hroom]
    simp only [ok_bind]
    rw [sliceTo_filled_concat (by simp [Command.checkedPayload, checksumSuffix]; omega)]
    rfl
  · rw [encodeInto_accepted hacc (by omega)]
    simp only [ok_bind]
    rw [sliceTo_filled_concat (by omega)]
    rfl

theorem HostFrame.line_fits (f : HostFrame) :
    Open isTerminator f.line ∧ f.line.length ≤ maxCmdFrame := by
  have hlen := f.command.payload_length_le
  rw [HostFrame.line]
  split
  · refine ⟨f.command.checkedPayload_open, ?_⟩
    simp only [Command.checkedPayload, checksumSuffix, List.length_append, List.length_cons,
      List.length_nil, maxCmdFrame]
    omega
  · refine ⟨f.command.payload_plain.is_open, ?_⟩
    rw [maxCmdFrame]
    omega

theorem HostFrame.readCommand_line {f : HostFrame} (hacc : f.command.Accepted)
    (hoff : f.command.OffsetsFit) : readCommand f.line = some f.command.received := by
  rw [HostFrame.line]
  split
  · exact readCommand_checkedPayload hacc hoff
  · exact readCommand_payload hacc hoff

/-- **Host-to-device round trip.** Accepted commands, each encoded with or
without its checksum into a buffer that has room for it, are sent as lines
ended by CR; a fresh `CommandParser` fed with all of them returns nothing
on any byte but a frame's last, the command on the last, and is empty at
the end. -/
theorem commandStream_roundTrip (fs : List HostFrame)
    (hroom : ∀ f ∈ fs, 23 ≤ f.buf.length) (hacc : ∀ f ∈ fs, f.command.Accepted)
    (hoff : ∀ f ∈ fs, f.command.OffsetsFit) :
    (∀ f ∈ fs, f.sent = .ok (.ok (f.line ++ [byte '\r']))) ∧
    ∃ parser,
      feedAll CommandParser.feed CommandParser.new (fs.flatMap fun f => f.line ++ [byte '\r'])
        = .ok (fs.flatMap fun f =>
            List.replicate f.line.length none ++ [some f.command.received], parser) ∧
      parser.len = 0 := by
  refine ⟨fun f hf => HostFrame.sent_eq (hacc f hf) (hroom f hf), ?_⟩
  have hlines : ∀ f ∈ fs, Open isTerminator f.line ∧ isTerminator (byte '\r') = true ∧
      f.line.length ≤ maxCmdFrame := fun f _ => ⟨f.line_fits.1, rfl, f.line_fits.2⟩
  have hrun := run_lines hlines
  obtain ⟨⟨outs, parser⟩, hfeed, houts, hholds⟩ :=
    CommandParser.feedAll_returns CommandParser.new_holds
      (fs.flatMap fun f => f.line ++ [byte '\r'])
  simp only [hrun] at houts hholds
  refine ⟨parser, ?_, hholds.length.symm⟩
  rw [hfeed, houts, List.map_flatMap]
  congr 2
  refine List.flatMap_congr fun f hf => ?_
  rw [List.map_append, List.map_replicate, List.map_singleton, commandEvent, commandEvent,
    HostFrame.readCommand_line (hacc f hf) (hoff f hf)]

/-- The round trip at the bounds of the wire format. -/
theorem commandStream_roundTrip_bounds :
    ∃ parser, feedAll CommandParser.feed CommandParser.new
        ([⟨.writeConfig 65535 Int32.minValue, true, List.replicate 32 0⟩,
          ⟨.queryStatus, false, List.replicate 32 0⟩].flatMap
            fun f : HostFrame => f.line ++ [byte '\r'])
      = .ok ([⟨.writeConfig 65535 Int32.minValue, true, List.replicate 32 0⟩,
          ⟨.queryStatus, false, List.replicate 32 0⟩].flatMap
            fun f : HostFrame =>
              List.replicate f.line.length none ++ [some f.command.received], parser) ∧
      parser.len = 0 :=
  (commandStream_roundTrip _ (by decide) (by decide) (by simp [Command.OffsetsFit])).2

/-! ## Overlong lines -/

theorem feedAll_open_line {L : List UInt8} {t : UInt8} (hL : Open isTerminator L)
    (ht : isTerminator t = true) :
    ∃ parser, feedAll CommandParser.feed CommandParser.new (L ++ [t])
        = .ok (List.replicate L.length none ++ [readCommand (residue maxCmdFrame L)], parser) ∧
      parser.len = 0 := by
  obtain ⟨⟨outs, parser⟩, hfeed, houts, hholds⟩ :=
    CommandParser.feedAll_returns CommandParser.new_holds (L ++ [t])
  have hquiet : (run isTerminator maxCmdFrame [] L).1.map commandEvent
      = List.replicate L.length none := by
    rw [List.eq_replicate_iff]
    refine ⟨by rw [List.length_map, run_length], fun c hc => ?_⟩
    obtain ⟨e, he, rfl⟩ := List.mem_map.mp hc
    rcases run_open_events hL e he with rfl | rfl <;> rfl
  simp only [run_open_line hL ht] at houts hholds
  refine ⟨parser, ?_, hholds.length.symm⟩
  rw [hfeed, houts, List.map_append, hquiet]
  rfl

/-- **When an overlong line is discarded.** The 33rd byte of a line, and
every 33rd after it, empties the buffer; the bytes after the last such
byte are decoded at the terminator. The line yields nothing exactly when
these bytes spell no command. -/
theorem overlong_discarded_iff (L : List UInt8) (t : UInt8) (hL : Open isTerminator L)
    (ht : isTerminator t = true) :
    (∃ parser, feedAll CommandParser.feed CommandParser.new (L ++ [t])
        = .ok (List.replicate (L ++ [t]).length none, parser)) ↔
      ¬ Spells (L.drop (L.length / (maxCmdFrame + 1) * (maxCmdFrame + 1))) := by
  obtain ⟨parser, hfeed, -⟩ := feedAll_open_line hL ht
  have hspells : Spells (residue maxCmdFrame L) ↔ ¬ readCommand (residue maxCmdFrame L) = none := by
    rw [← ne_eq, Option.ne_none_iff_exists']
    simp only [readCommand_eq_some]
    rfl
  rw [hfeed, show L.drop _ = residue maxCmdFrame L from rfl, hspells, not_not,
    List.length_append, List.length_singleton, List.replicate_add]
  simp

/-- The criterion on a line of forty bytes. -/
theorem overlong_discarded_iff_forty :
    (∃ parser, feedAll CommandParser.feed CommandParser.new
        (List.replicate 40 (byte 'x') ++ [byte '\n'])
      = .ok (List.replicate (List.replicate 40 (byte 'x') ++ [byte '\n']).length none,
          parser)) ↔
      ¬ Spells ((List.replicate 40 (byte 'x')).drop
        ((List.replicate 40 (byte 'x')).length / (maxCmdFrame + 1) * (maxCmdFrame + 1))) :=
  overlong_discarded_iff _ _ (by decide) (by decide)

/-- Thirty-three bytes of noise and an `S`: the device stops. -/
theorem overlong_executed :
    Open isTerminator (List.replicate 33 (byte 'x') ++ bytes "S") ∧
    maxCmdFrame < (List.replicate 33 (byte 'x') ++ bytes "S").length ∧
    ¬ ∃ parser, feedAll CommandParser.feed CommandParser.new
        (List.replicate 33 (byte 'x') ++ bytes "S" ++ [byte '\r'])
      = .ok (List.replicate (List.replicate 33 (byte 'x') ++ bytes "S" ++ [byte '\r']).length none,
          parser) := by
  refine ⟨by decide, by decide, ?_⟩
  rintro ⟨parser, h⟩
  have hstop : (feedAll CommandParser.feed CommandParser.new
      (List.replicate 33 (byte 'x') ++ bytes "S" ++ [byte '\r'])).map Prod.fst
      = .ok (List.replicate 34 none ++ [some .stop]) := by decide
  rw [h] at hstop
  have hall : List.replicate 35 none = List.replicate 34 none ++ [some Command.stop] :=
    Except.ok.inj hstop
  exact absurd hall (by decide)

end Easycom
