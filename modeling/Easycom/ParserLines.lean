import Easycom.Frames
import Easycom.Parser

/-!
# Easycom — ParserLines

Both parsers refine the bounded line buffer of `Stream.Lines`: the array
and its `len` hold an unfinished line (`Holds`), one `feed` is one `step`
(`CommandParser.feed_returns`, `Parser.feed_returns`), and feeding a
stream is a `run` of it (`feedAll_returns`). No index of either parser can
be out of range, whatever is fed, and every terminator brings a parser back
to its initial state: from there on a stream of lines that fit is split
exactly (`parsers_resynchronise`).
-/

namespace Easycom

open Rust Stream

/-! ## The array of a parser -/

/-- The first `len` bytes of an array are the line `l`. -/
structure Holds {n : Nat} (buf : Vector UInt8 n) (len : Nat) (l : List UInt8) : Prop where
  le : len ≤ n
  take : buf.toList.take len = l

variable {n len : Nat} {buf : Vector UInt8 n} {l : List UInt8}

theorem holds_nil (buf : Vector UInt8 n) : Holds buf 0 [] := ⟨by omega, rfl⟩

theorem holds_nil_iff : Holds buf len [] ↔ len = 0 := by
  constructor
  · intro h
    have hlen := congrArg List.length h.take
    have hle := h.le
    rw [List.length_take, Vector.length_toList, List.length_nil] at hlen
    omega
  · intro h
    rw [h]
    exact holds_nil buf

theorem Holds.length (h : Holds buf len l) : l.length = len := by
  have hle := h.le
  rw [← h.take, List.length_take, Vector.length_toList]
  omega

theorem Holds.slice (h : Holds buf len l) : sliceTo buf.toList len = .ok l := by
  rw [sliceTo_ok (by rw [Vector.length_toList]; exact h.le), h.take]

theorem Holds.push (h : Holds buf len l) (hlt : len < n) (b : UInt8) :
    Returns (storeArray buf len b) fun buf' => Holds buf' (len + 1) (l ++ [b]) := by
  refine ⟨buf.set len b hlt, dif_pos hlt, hlt, ?_⟩
  rw [Vector.toList_set, List.take_add_one, List.take_set_of_le (Nat.le_refl _), h.take]
  simp [hlt]

/-! ## One byte -/

/-- What `CommandParser::feed` returns for an event of its line buffer. -/
def commandEvent : Event UInt8 → Option Command
  | .line l => readCommand l
  | .quiet | .overflow => none

/-- What `Parser::feed` returns for an event of its line buffer. -/
def responseEvent : Event UInt8 → ParserOutput
  | .line l => some (readResponse l)
  | .quiet => none
  | .overflow => some (.error .unexpectedEof)

/-- The unfinished line of a parser. -/
abbrev CommandParser.Holds (self : CommandParser) (l : List UInt8) : Prop :=
  Easycom.Holds self.buf self.len l

abbrev Parser.Holds (self : Parser) (l : List UInt8) : Prop :=
  Easycom.Holds self.buf self.len l

theorem CommandParser.new_holds : CommandParser.new.Holds [] := holds_nil _

theorem Parser.new_holds : Parser.new.Holds [] := holds_nil _

theorem CommandParser.feed_returns {self : CommandParser} (h : self.Holds l) (b : UInt8) :
    Returns (self.feed b) fun r =>
      r.1 = commandEvent (step isTerminator maxCmdFrame l b).1 ∧
      r.2.Holds (step isTerminator maxCmdFrame l b).2 := by
  have hlen := h.length
  rw [CommandParser.feed]
  by_cases hb : isTerminator b = true
  · rw [if_pos hb, h.slice, ok_bind, decodeCommand_eq, step_line hb]
    exact ⟨_, rfl, rfl, holds_nil _⟩
  · rw [if_neg hb]
    have hb' : isTerminator b = false := by simpa using hb
    by_cases hlt : self.len < maxCmdFrame
    · obtain ⟨buf', hbuf, hholds⟩ := h.push hlt b
      rw [if_pos hlt, hbuf, step_quiet hb' (by omega)]
      exact ⟨_, rfl, rfl, hholds⟩
    · rw [if_neg hlt, step_overflow hb' (by omega)]
      exact ⟨_, rfl, rfl, holds_nil _⟩

theorem Parser.feed_returns {self : Parser} (h : self.Holds l) (b : UInt8) :
    Returns (self.feed b) fun r =>
      r.1 = responseEvent (step isTerminator maxFrame l b).1 ∧
      r.2.Holds (step isTerminator maxFrame l b).2 := by
  have hlen := h.length
  rw [Parser.feed]
  by_cases hb : isTerminator b = true
  · rw [if_pos hb, h.slice, ok_bind, decode_eq_read, step_line hb]
    exact ⟨_, rfl, rfl, holds_nil _⟩
  · rw [if_neg hb]
    have hb' : isTerminator b = false := by simpa using hb
    by_cases hlt : self.len < maxFrame
    · obtain ⟨buf', hbuf, hholds⟩ := h.push hlt b
      rw [if_pos hlt, hbuf, step_quiet hb' (by omega)]
      exact ⟨_, rfl, rfl, hholds⟩
    · rw [if_neg hlt, step_overflow hb' (by omega)]
      exact ⟨_, rfl, rfl, holds_nil _⟩

/-! ## A stream -/

/-- A caller that feeds a stream byte by byte and keeps what comes back. -/
def feedAll {P O : Type} (feed : P → UInt8 → Exec (O × P)) (self : P) :
    List UInt8 → Exec (List O × P)
  | [] => .ok ([], self)
  | b :: bs => do
      let (out, self) ← feed self b
      let (outs, self) ← feedAll feed self bs
      return (out :: outs, self)

/-- **A parser that refines one step refines every run.** -/
theorem feedAll_returns {P O : Type} {feed : P → UInt8 → Exec (O × P)} {cap : Nat}
    {R : P → List UInt8 → Prop} {event : Event UInt8 → O}
    (hfeed : ∀ {self l}, R self l → ∀ b, Returns (feed self b) fun r =>
      r.1 = event (step isTerminator cap l b).1 ∧ R r.2 (step isTerminator cap l b).2)
    {self : P} {l : List UInt8} (h : R self l) (s : List UInt8) :
    Returns (feedAll feed self s) fun r =>
      r.1 = (run isTerminator cap l s).1.map event ∧ R r.2 (run isTerminator cap l s).2 := by
  induction s generalizing self l with
  | nil => exact ⟨_, rfl, rfl, h⟩
  | cons b s ih =>
      rw [feedAll]
      refine (hfeed h b).bind fun r hr => ?_
      refine (ih hr.2).bind fun r' hr' => ?_
      exact ⟨_, rfl, by simp [run, hr.1, hr'.1], hr'.2⟩

theorem CommandParser.feedAll_returns {self : CommandParser} (h : self.Holds l)
    (s : List UInt8) :
    Returns (feedAll CommandParser.feed self s) fun r =>
      r.1 = (run isTerminator maxCmdFrame l s).1.map commandEvent ∧
      r.2.Holds (run isTerminator maxCmdFrame l s).2 :=
  @Easycom.feedAll_returns _ _ _ _ CommandParser.Holds _ CommandParser.feed_returns _ _ h s

theorem Parser.feedAll_returns {self : Parser} (h : self.Holds l) (s : List UInt8) :
    Returns (feedAll Parser.feed self s) fun r =>
      r.1 = (run isTerminator maxFrame l s).1.map responseEvent ∧
      r.2.Holds (run isTerminator maxFrame l s).2 :=
  @Easycom.feedAll_returns _ _ _ _ Parser.Holds _ Parser.feed_returns _ _ h s

/-! ## Resynchronisation -/

/-- After any history a parser holds at most `cap` bytes, and after any
terminator behind it a stream whose lines fit is reported byte by byte as
a line splitter would: `event .quiet` inside a line, `event (.line l)` at
the end of the line `l`. -/
def Resynchronises {P O : Type} (feed : P → UInt8 → Exec (O × P)) (new : P)
    (len : P → Nat) (cap : Nat) (event : Event UInt8 → O) : Prop :=
  ∀ h : List UInt8, ∃ outs p, feedAll feed new h = .ok (outs, p) ∧ len p ≤ cap ∧
    ∀ (t : UInt8) (s : List UInt8), isTerminator t = true → Fits isTerminator cap s →
      ∃ out p' p'', feed p t = .ok (out, p') ∧
        feedAll feed p' s = .ok ((reports isTerminator [] s).map event, p'')

/-- **A parser that refines the bounded line buffer resynchronises.** -/
theorem resynchronises {P O : Type} {feed : P → UInt8 → Exec (O × P)} {new : P}
    {len : P → Nat} {cap : Nat} {R : P → List UInt8 → Prop} {event : Event UInt8 → O}
    (hfeed : ∀ {self l}, R self l → ∀ b, Returns (feed self b) fun r =>
      r.1 = event (step isTerminator cap l b).1 ∧ R r.2 (step isTerminator cap l b).2)
    (hnew : R new []) (hlen : ∀ {self l}, R self l → len self = l.length) :
    Resynchronises feed new len cap event := by
  intro h
  obtain ⟨⟨outs, p⟩, hh, -, hp⟩ := feedAll_returns hfeed hnew h
  refine ⟨outs, p, hh, ?_, ?_⟩
  · rw [hlen hp]
    exact run_length_le h
  · intro t s ht hs
    -- the terminator empties the line, whatever the history left in it
    obtain ⟨⟨out, p'⟩, ht', -, hp'⟩ := hfeed hp t
    rw [step_line ht] at hp'
    obtain ⟨⟨outs', p''⟩, hs', houts, -⟩ := feedAll_returns hfeed hp' s
    rw [run_fits hs] at houts
    obtain rfl : outs' = (reports isTerminator [] s).map event := houts
    exact ⟨out, p', p'', ht', hs'⟩

/-- **Both parsers resynchronise at every terminator**, and from there on
decode exactly the lines of the stream. -/
theorem parsers_resynchronise :
    Resynchronises Parser.feed Parser.new Parser.len maxFrame responseEvent ∧
    Resynchronises CommandParser.feed CommandParser.new CommandParser.len maxCmdFrame
      commandEvent :=
  ⟨resynchronises (R := Parser.Holds) Parser.feed_returns Parser.new_holds
      fun h => h.length.symm,
    resynchronises (R := CommandParser.Holds) CommandParser.feed_returns
      CommandParser.new_holds fun h => h.length.symm⟩

end Easycom
