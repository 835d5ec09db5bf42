import Mathlib.Data.List.ReduceOption
import Easycom.CommandStream
import Easycom.ResponseStream

/-!
# Easycom — LineEndings

What the terminators of a stream do to it. Each line may be ended by any
run of CR and LF: CR, LF, CR LF, or with blank lines behind it. A device
obtains the same commands whatever the runs are (`commands_lineEndings`);
a host parser returns the same responses, and one unexpected end of input
for every terminator after the first (`responses_lineEndings`).
-/

namespace Easycom

open Rust Stream

/-! ## What a device obtains -/

/-- The commands that a `CommandParser` obtains from a stream. -/
def commandsOf (s : List UInt8) : List Command :=
  (run isTerminator maxCmdFrame [] s).1.filterMap commandEvent

theorem feedAll_commandsOf (s : List UInt8) :
    Returns (feedAll CommandParser.feed CommandParser.new s) fun r =>
      r.1.reduceOption = commandsOf s ∧
      r.2.Holds (run isTerminator maxCmdFrame [] s).2 := by
  refine (CommandParser.feedAll_returns CommandParser.new_holds s).mono fun r hr => ⟨?_, hr.2⟩
  rw [hr.1, commandsOf, List.reduceOption, List.filterMap_map]
  rfl

/-- **The commands of a stream are those of its lines.** -/
theorem commandsOf_eq (s : List UInt8) :
    commandsOf s
      = (splitLines isTerminator s).1.filterMap fun l => readCommand (residue maxCmdFrame l) :=
  filterMap_run rfl rfl s

/-! ## Runs of terminators -/

/-- A line and the run of terminators behind it. -/
structure EndedLine where
  line : List UInt8
  ending : List UInt8

structure EndedLine.Valid (x : EndedLine) : Prop where
  is_open : Open isTerminator x.line
  ending_ne_nil : x.ending ≠ []
  ending : ∀ b ∈ x.ending, isTerminator b = true

/-- The stream of such lines. -/
def streamOf (xs : List EndedLine) : List UInt8 := xs.flatMap fun x => x.line ++ x.ending

/-- Every terminator after the first ends a blank line. -/
theorem splitLines_streamOf {xs : List EndedLine} (hvalid : ∀ x ∈ xs, x.Valid) :
    splitLines isTerminator (streamOf xs)
      = (xs.flatMap fun x => x.line :: List.replicate (x.ending.length - 1) [], []) := by
  induction xs with
  | nil => rfl
  | cons x xs ih =>
      obtain ⟨hopen, hne, hending⟩ := hvalid x (by simp)
      obtain ⟨t, ts, hts⟩ := List.exists_cons_of_ne_nil hne
      rw [hts] at hending
      rw [streamOf, List.flatMap_cons, ← streamOf, hts, List.append_assoc, List.cons_append,
        splitLines_line hopen (hending t (by simp)),
        splitLines_blank fun b hb => hending b (by simp [hb]), ih fun y hy => hvalid y (by simp [hy]),
        List.flatMap_cons, hts]
      rfl

theorem commandsOf_streamOf {xs : List EndedLine} (hvalid : ∀ x ∈ xs, x.Valid) :
    commandsOf (streamOf xs) = xs.filterMap fun x => readCommand (residue maxCmdFrame x.line) := by
  rw [commandsOf_eq, splitLines_streamOf hvalid, List.filterMap_flatMap,
    List.filterMap_eq_flatMap_toList]
  refine List.flatMap_congr fun x _ => ?_
  -- a blank line is no command
  have hblank : ∀ n, (List.replicate n []).filterMap
      (fun l => readCommand (residue maxCmdFrame l)) = [] := by
    intro n
    rw [List.filterMap_replicate_of_none (by decide)]
  cases h : readCommand (residue maxCmdFrame x.line) <;> simp [h, hblank]

/-- A `CommandParser` fed with such lines. -/
theorem feedAll_streamOf {xs : List EndedLine} (hvalid : ∀ x ∈ xs, x.Valid) :
    ∃ outs parser,
      feedAll CommandParser.feed CommandParser.new (streamOf xs) = .ok (outs, parser) ∧
      outs.reduceOption = (xs.filterMap fun x => readCommand (residue maxCmdFrame x.line)) ∧
      parser.len = 0 := by
  obtain ⟨⟨outs, parser⟩, hfeed, houts, hholds⟩ := feedAll_commandsOf (streamOf xs)
  rw [run_tail, splitLines_streamOf hvalid, residue_of_le (by simp)] at hholds
  exact ⟨outs, parser, hfeed, houts.trans (commandsOf_streamOf hvalid), holds_nil_iff.mp hholds⟩

/-- **A device does not see how lines end.** The commands it obtains from
lines of any length, each ended by any run of CR and LF, are those of the
lines; the runs do not matter. -/
theorem commands_lineEndings (xs : List EndedLine) (hvalid : ∀ x ∈ xs, x.Valid) :
    ∃ outs parser,
      feedAll CommandParser.feed CommandParser.new (streamOf xs) = .ok (outs, parser) ∧
      outs.reduceOption = (xs.filterMap fun x =>
        readCommand (x.line.drop (x.line.length / (maxCmdFrame + 1) * (maxCmdFrame + 1)))) ∧
      parser.len = 0 :=
  feedAll_streamOf hvalid

/-- A stop ended by CR LF, and one with a blank line behind it. -/
theorem commands_lineEndings_two :
    ∃ outs parser,
      feedAll CommandParser.feed CommandParser.new
        (streamOf [⟨bytes "S", bytes "\r\n"⟩, ⟨bytes "S", bytes "\n\r\n"⟩])
        = .ok (outs, parser) ∧
      outs.reduceOption = ([⟨bytes "S", bytes "\r\n"⟩, ⟨bytes "S", bytes "\n\r\n"⟩].filterMap
        fun x : EndedLine => readCommand
          (x.line.drop (x.line.length / (maxCmdFrame + 1) * (maxCmdFrame + 1)))) ∧
      parser.len = 0 := by
  refine commands_lineEndings _ fun x hx => ?_
  simp only [List.mem_cons, List.not_mem_nil, or_false] at hx
  rcases hx with rfl | rfl
  · exact ⟨by decide, by decide, by simp [bytes, byte, isTerminator]⟩
  · exact ⟨by decide, by decide, by simp [bytes, byte, isTerminator]⟩

/-- **A host parser does.** It returns what each line reads as, behind the
overflows of the line, and one unexpected end of input for every terminator
after the first. -/
theorem responses_lineEndings (xs : List EndedLine) (hvalid : ∀ x ∈ xs, x.Valid) :
    ∃ parser,
      Parser.new.feedSlice (streamOf xs) = .ok (xs.flatMap fun x =>
        List.replicate (x.line.length / (maxFrame + 1)) (.error .unexpectedEof) ++
        readResponse (x.line.drop (x.line.length / (maxFrame + 1) * (maxFrame + 1))) ::
        List.replicate (x.ending.length - 1) (.error .unexpectedEof), parser) ∧
      parser.len = 0 := by
  obtain ⟨⟨outs, parser⟩, hfeed, houts, hholds⟩ :=
    Parser.feedAll_returns Parser.new_holds (streamOf xs)
  rw [run_tail, splitLines_streamOf hvalid, residue_of_le (by simp)] at hholds
  refine ⟨parser, ?_, holds_nil_iff.mp hholds⟩
  rw [Parser.feedSlice_eq, hfeed]
  show Except.ok (outs.reduceOption, parser) = _
  rw [show outs = _ from houts, List.reduceOption, List.filterMap_map, Function.id_comp,
    filterMap_run_overflow (x := .error .unexpectedEof) rfl rfl, splitLines_streamOf hvalid,
    List.flatMap_assoc]
  simp only [List.length_nil, Nat.zero_div, List.replicate_zero, List.append_nil]
  congr 2
  refine List.flatMap_congr fun x _ => ?_
  -- a blank line reads as an unexpected end
  have hblank : ∀ n, (List.replicate n []).flatMap (fun l : List UInt8 =>
      List.replicate (l.length / (maxFrame + 1)) (.error .unexpectedEof) ++
        (responseEvent (.line (residue maxFrame l))).toList)
      = (List.replicate n (.error .unexpectedEof) : List (Except ParseError Response)) := by
    intro n
    induction n with
    | zero => rfl
    | succ n ih =>
        rw [List.replicate_succ, List.flatMap_cons, ih, List.replicate_succ]
        rfl
  rw [List.flatMap_cons, hblank, List.append_assoc]
  rfl

/-- An acknowledgement ended by CR LF. -/
theorem responses_lineEndings_crlf :
    ∃ parser,
      Parser.new.feedSlice (streamOf [⟨bytes "+", bytes "\r\n"⟩])
        = .ok ([⟨bytes "+", bytes "\r\n"⟩].flatMap fun x : EndedLine =>
          List.replicate (x.line.length / (maxFrame + 1)) (.error .unexpectedEof) ++
          readResponse (x.line.drop (x.line.length / (maxFrame + 1) * (maxFrame + 1))) ::
          List.replicate (x.ending.length - 1) (.error .unexpectedEof), parser) ∧
      parser.len = 0 := by
  refine responses_lineEndings _ fun x hx => ?_
  rw [List.mem_singleton.mp hx]
  exact ⟨by decide, by decide, by simp [bytes, byte, isTerminator]⟩

end Easycom
