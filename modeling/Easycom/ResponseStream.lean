import Mathlib.Data.List.ReduceOption
import Easycom.ParserLines

/-!
# Easycom — ResponseStream

The device-to-host direction. A stream of encoded responses, cut into
`feed_slice` calls in any way, comes out of a fresh `Parser` response by
response (`responseStream_roundTrip`). A line fed to the parser is decoded
as the one-shot `decode` would decode it, except the empty one
(`incremental_agrees_iff`), and a line longer than its buffer is reported
more than once (`overlong_not_one_error`).
-/

namespace Easycom

open Rust Stream

/-! ## Slices -/

/-- A caller that feeds a stream slice by slice and keeps what comes back. -/
def Parser.feedChunks (self : Parser) :
    List (List UInt8) → Exec (List (Except ParseError Response) × Parser)
  | [] => .ok ([], self)
  | c :: cs => do
      let (outs, self) ← self.feedSlice c
      let (outs', self) ← Parser.feedChunks self cs
      return (outs ++ outs', self)

/-- `feed_slice` collects what `feed` returns. -/
theorem Parser.feedSlice_eq (self : Parser) (s : List UInt8) :
    self.feedSlice s
      = (feedAll Parser.feed self s).map fun r => (r.1.reduceOption, r.2) := by
  induction s generalizing self with
  | nil => rfl
  | cons b s ih =>
      rw [feedSlice, feedAll]
      cases self.feed b with
      | error e => rfl
      | ok r =>
          obtain ⟨out, p⟩ := r
          simp only [ok_bind, ih]
          cases feedAll Parser.feed p s with
          | error e => rfl
          | ok r' => cases out <;> rfl

theorem Parser.feedSlice_append (self : Parser) (s t : List UInt8) :
    self.feedSlice (s ++ t) = (do
      let (outs, self) ← self.feedSlice s
      let (outs', self) ← self.feedSlice t
      return (outs ++ outs', self)) := by
  induction s generalizing self with
  | nil =>
      simp only [List.nil_append, feedSlice, ok_bind]
      cases self.feedSlice t <;> rfl
  | cons b s ih => simp [feedSlice, ih]

/-- **Slices are their concatenation**: the parser's state carries across
every cut. -/
theorem Parser.feedChunks_eq (self : Parser) (cs : List (List UInt8)) :
    self.feedChunks cs = self.feedSlice cs.flatten := by
  induction cs generalizing self with
  | nil => rfl
  | cons c cs ih => simp [feedChunks, feedSlice_append, ih]

/-! ## Streams of responses -/

theorem Response.payload_fits (r : Response) :
    Open isTerminator r.payload ∧ r.payload.length ≤ maxFrame := by
  have hlen := r.payload_length_le
  refine ⟨r.payload_plain.is_open, ?_⟩
  rw [maxFrame]
  omega

/-- A fresh parser reports the lines of a stream of responses, and is empty
at the end. -/
theorem Parser.feedAll_frames (rs : List Response) :
    ∃ parser, feedAll Parser.feed Parser.new (rs.flatMap Response.frame)
        = .ok ((rs.flatMap fun r =>
            List.replicate r.payload.length .quiet ++ [.line r.payload]).map responseEvent,
          parser) ∧
      parser.len = 0 := by
  have hlines : ∀ r ∈ rs, Open isTerminator r.payload ∧ isTerminator r.terminator = true ∧
      r.payload.length ≤ maxFrame :=
    fun r _ => ⟨r.payload_fits.1, r.terminator_isTerminator, r.payload_fits.2⟩
  have hrun := run_lines hlines
  obtain ⟨⟨outs, parser⟩, hfeed, houts, hholds⟩ :=
    Parser.feedAll_returns Parser.new_holds (rs.flatMap fun r => r.payload ++ [r.terminator])
  simp only [hrun] at houts hholds
  rw [houts] at hfeed
  exact ⟨parser, hfeed, hholds.length.symm⟩

/-- What is reported along a stream of response lines. -/
theorem responses_reduceOption {rs : List Response} (hrange : ∀ r ∈ rs, r.InRange) :
    ((rs.flatMap fun r => List.replicate r.payload.length .quiet ++ [.line r.payload]).map
      responseEvent).reduceOption = rs.map .ok := by
  induction rs with
  | nil => rfl
  | cons r rs ih =>
      have hr : responseEvent (.line r.payload) = some (.ok r) := by
        rw [responseEvent, readResponse_payload (hrange r (by simp))]
      rw [List.flatMap_cons, List.map_append, List.map_append, List.map_replicate,
        List.reduceOption_append, List.reduceOption_append, ih fun q hq => hrange q (by simp [hq]),
        List.map_singleton, hr]
      simp [responseEvent, List.reduceOption_replicate_none]

/-- **Device-to-host round trip.** Responses, each encoded into a buffer
that has room for it, are sent as lines with their terminators; a fresh
`Parser` fed with all of them, cut into slices in any way, returns the
responses in order and is empty at the end. -/
theorem responseStream_roundTrip (rs : List Response) (hrange : ∀ r ∈ rs, r.InRange)
    (chunks : List (List UInt8)) (hchunks : chunks.flatten = rs.flatMap Response.frame) :
    (∀ r ∈ rs, ∀ buf : List UInt8, 32 ≤ buf.length → r.sent buf = .ok r.frame) ∧
    ∃ parser, Parser.new.feedChunks chunks = .ok (rs.map .ok, parser) ∧ parser.len = 0 := by
  refine ⟨fun r _ buf hbuf => Response.sent_eq hbuf, ?_⟩
  obtain ⟨parser, hfeed, hlen⟩ := Parser.feedAll_frames rs
  refine ⟨parser, ?_, hlen⟩
  rw [Parser.feedChunks_eq, hchunks, Parser.feedSlice_eq, hfeed, ← responses_reduceOption hrange]
  rfl

/-- The round trip of three responses, cut inside the first and the last. -/
theorem responseStream_roundTrip_cut :
    ∃ parser, Parser.new.feedChunks
        [bytes "AZ=180 E", bytes "L=090\r+\rCR65535,-2147", bytes "483648\n"]
      = .ok ([.position 180 90, .ack, .configValue 65535 Int32.minValue].map .ok, parser) ∧
      parser.len = 0 :=
  (responseStream_roundTrip _ (by simp [Response.InRange]) _ (by decide)).2

/-! ## One line -/

/-- **What a line of any length yields**: an error for every overflow, then
the decoding of its residue. -/
theorem Parser.feedSlice_open_line {l : List UInt8} {t : UInt8} (hl : Open isTerminator l)
    (ht : isTerminator t = true) :
    ∃ parser, Parser.new.feedSlice (l ++ [t])
        = .ok (List.replicate (l.length / (maxFrame + 1)) (.error .unexpectedEof) ++
            [readResponse (residue maxFrame l)], parser) ∧
      parser.len = 0 := by
  obtain ⟨⟨outs, parser⟩, hfeed, houts, hholds⟩ :=
    Parser.feedAll_returns Parser.new_holds (l ++ [t])
  simp only [run_open_line hl ht] at houts hholds
  refine ⟨parser, ?_, hholds.length.symm⟩
  have hover := @run_open_overflows _ _ maxFrame _ responseEvent _ rfl rfl [] _ hl (Nat.zero_le _)
  rw [List.length_nil, Nat.zero_add] at hover
  have hlast : responseEvent (.line (residue maxFrame l))
      = some (readResponse (residue maxFrame l)) := rfl
  rw [feedSlice_eq, hfeed, Except.map, houts, List.reduceOption, List.filterMap_map,
    List.filterMap_append]
  show Except.ok (_ ++ List.filterMap responseEvent _, _) = _
  rw [List.filterMap_cons_some hlast, ← hover]
  rfl

/-- A line that fits is decoded at its terminator, without it. -/
theorem Parser.feedSlice_line {l : List UInt8} {t : UInt8} (hl : Open isTerminator l)
    (hle : l.length ≤ maxFrame) (ht : isTerminator t = true) :
    ∃ parser, Parser.new.feedSlice (l ++ [t]) = .ok ([readResponse l], parser) := by
  obtain ⟨parser, hfeed, -⟩ := Parser.feedSlice_open_line hl ht
  rw [Nat.div_eq_of_lt (by omega), residue_of_le hle] at hfeed
  exact ⟨parser, hfeed⟩

/-- **When incremental and one-shot decoding agree.** `feed` hands `decode`
the line without its terminator. On any line but the empty one that makes
no difference; of the empty line nothing is left, and `decode` takes that
for the end of the input. -/
theorem incremental_agrees_iff (p : List UInt8) (t : UInt8) (hp : Open isTerminator p)
    (hle : p.length ≤ maxFrame) (ht : isTerminator t = true) :
    (∃ parser r, Parser.new.feedSlice (p ++ [t]) = .ok ([r], parser) ∧
      decode (p ++ [t]) = .ok r) ↔ p ≠ [] := by
  obtain ⟨parser, hfeed⟩ := Parser.feedSlice_line hp hle ht
  rw [hfeed, decode_line hp ht]
  constructor
  · rintro ⟨_, r, hr, hdec⟩ rfl
    cases hr
    cases hdec
  · intro hne
    refine ⟨parser, readResponse p, rfl, ?_⟩
    rw [← decode_eq_read, decode_eq hne, rdropWhile_line hp]

/-- The criterion on a position. -/
theorem incremental_agrees_iff_position :
    (∃ parser r, Parser.new.feedSlice (bytes "AZ=180 EL=090" ++ [byte '\r']) = .ok ([r], parser) ∧
      decode (bytes "AZ=180 EL=090" ++ [byte '\r']) = .ok r) ↔ bytes "AZ=180 EL=090" ≠ [] :=
  incremental_agrees_iff _ _ (by decide) (by decide) (by decide)

/-- A lone CR: an acknowledgement for `decode`, an error for the parser. -/
theorem empty_line_differs :
    decode ([] ++ [byte '\r']) = .ok (.ok .ack) ∧
    ¬ ∃ parser r, Parser.new.feedSlice ([] ++ [byte '\r']) = .ok ([r], parser) ∧
      decode ([] ++ [byte '\r']) = .ok r := by
  refine ⟨by decide, ?_⟩
  rintro ⟨parser, r, hfeed, hdec⟩
  have herr : (Parser.new.feedSlice ([] ++ [byte '\r'])).map Prod.fst
      = .ok [.error .unexpectedEof] := by decide
  rw [hfeed] at herr
  cases herr
  exact absurd hdec (by decide)

/-- **An overlong line never yields one error alone.** Its overflow has been
reported when the terminator comes, and the terminator reports again: the
bytes behind the last overflow as a response, or as an error of their own. -/
theorem overlong_not_one_error (L : List UInt8) (t : UInt8) (hL : Open isTerminator L)
    (hlong : maxFrame < L.length) (ht : isTerminator t = true) :
    ¬ ∃ parser, Parser.new.feedSlice (L ++ [t]) = .ok ([.error .unexpectedEof], parser) ∧
      parser.len = 0 := by
  obtain ⟨parser, hfeed, -⟩ := Parser.feedSlice_open_line hL ht
  rintro ⟨_, hone, -⟩
  rw [hfeed] at hone
  have hlen := congrArg (fun r => r.1.length) (Except.ok.inj hone)
  simp only [List.length_append, List.length_replicate, List.length_singleton] at hlen
  have hpos : 0 < L.length / (maxFrame + 1) := Nat.div_pos (by omega) (by omega)
  omega

/-- Seventy bytes of noise. -/
theorem overlong_not_one_error_seventy :
    ¬ ∃ parser, Parser.new.feedSlice (List.replicate 70 (byte 'x') ++ [byte '\n'])
        = .ok ([.error .unexpectedEof], parser) ∧
      parser.len = 0 :=
  overlong_not_one_error _ _ (by decide) (by decide) (by decide)

/-- Sixty-five bytes of noise and a `+`: an error, and an acknowledgement. -/
theorem overlong_two_results :
    Open isTerminator (List.replicate 65 (byte 'x') ++ bytes "+") ∧
    maxFrame < (List.replicate 65 (byte 'x') ++ bytes "+").length ∧
    (∃ parser, Parser.new.feedSlice
        (List.replicate 65 (byte 'x') ++ bytes "+" ++ [byte '\r'])
      = .ok ([.error .unexpectedEof, .ok .ack], parser)) ∧
    ¬ ∃ parser, Parser.new.feedSlice
        (List.replicate 65 (byte 'x') ++ bytes "+" ++ [byte '\r'])
      = .ok ([.error .unexpectedEof], parser) ∧ parser.len = 0 := by
  have hopen : Open isTerminator (List.replicate 65 (byte 'x') ++ bytes "+") := by decide
  obtain ⟨parser, hfeed, -⟩ := @Parser.feedSlice_open_line _ (byte '\r') hopen rfl
  have hack : readResponse (residue maxFrame (List.replicate 65 (byte 'x') ++ bytes "+"))
      = .ok .ack := by decide
  rw [hack] at hfeed
  refine ⟨hopen, by decide, ⟨parser, hfeed⟩, ?_⟩
  rintro ⟨_, hone, -⟩
  rw [hfeed] at hone
  cases hone

end Easycom
