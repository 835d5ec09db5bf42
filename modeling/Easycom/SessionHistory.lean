import Easycom.SessionLines

/-!
# Easycom — SessionHistory

What a session remembers. `Traced` keeps the bytes a transport delivered,
over all sends; in every reachable session the parser holds what the bytes
since the last terminator leave in its buffer (`Session.Reached.holds`),
whatever the sends returned. The next send is that of a new session exactly
when this is nothing (`history_forgotten_iff`).
-/

namespace Easycom

open Rust Stream

variable {T ε : Type} [Transport T ε]

/-! ## Reachable sessions -/

/-- A transport with the bytes it has delivered. -/
structure Traced (T : Type) where
  inner : T
  received : List UInt8

/-- A read of `n` bytes delivers the first `n` of the buffer. -/
def Traced.delivered (buf : List UInt8) : Except ε Nat → List UInt8
  | .ok n => buf.take n
  | .error _ => []

instance : Transport (Traced T) ε where
  write self frame :=
    let (r, inner) := Transport.write self.inner frame
    (r, { self with inner })
  read self buf :=
    let ((n, buf), inner) := Transport.read self.inner buf
    ((n, buf), ⟨inner, self.received ++ Traced.delivered buf n⟩)
  read_length self buf := Transport.read_length self.inner buf

/-- The sessions reached from a new one by any sends, with any results. -/
inductive Session.Reached : Session (Traced T) → Prop where
  | new (t : T) : Reached (Session.new ⟨t, []⟩)
  | send {s s' : Session (Traced T)} {c : Command} {r : Except (Error ε) Response}
      (hs : Reached s) (h : s.Sends c r s') : Reached s'

theorem Traced.read_eq (t : Traced T) {buf buf' : List UInt8} {n : Except ε Nat} {inner : T}
    (h : Transport.read t.inner buf = ((n, buf'), inner)) :
    Transport.read t buf = ((n, buf'), ⟨inner, t.received ++ delivered buf' n⟩) := by
  show ((Transport.read t.inner buf).1, (⟨(Transport.read t.inner buf).2, t.received ++ delivered
    (Transport.read t.inner buf).1.2 (Transport.read t.inner buf).1.1⟩ : Traced T)) = _
  rw [h]

theorem Delivers.traced {t t' : T} {bs : List UInt8} (h : Delivers t bs t')
    (received : List UInt8) :
    Delivers (⟨t, received⟩ : Traced T) bs ⟨t', received ++ bs⟩ := by
  induction h generalizing received with
  | nil =>
      rw [List.append_nil]
      exact .nil _
  | @cons t t₁ _ b bs hread _ ih =>
      have hrest := ih (received ++ [b])
      rw [List.append_assoc] at hrest
      refine .cons (fun buf hbuf => ?_) hrest
      obtain ⟨n, hn⟩ := hread buf hbuf
      refine ⟨n, ?_⟩
      rw [Traced.read_eq ⟨t, received⟩ hn]
      simp [Traced.delivered]

theorem Stops.traced {t t' : T} {err : Error ε} (h : Stops t err t') (received : List UInt8) :
    Stops (⟨t, received⟩ : Traced T) err ⟨t', received⟩ := by
  cases h with
  | timeout hread =>
      refine .timeout fun buf hbuf => ?_
      obtain ⟨buf', hn⟩ := hread buf hbuf
      exact ⟨buf', by rw [Traced.read_eq ⟨t, received⟩ hn]; simp [Traced.delivered]⟩
  | transport hread =>
      refine .transport fun buf hbuf => ?_
      obtain ⟨buf', hn⟩ := hread buf hbuf
      exact ⟨buf', by rw [Traced.read_eq ⟨t, received⟩ hn]; simp [Traced.delivered]⟩

/-- The unfinished line that the delivered bytes leave in the parser. -/
def Traced.pending (t : Traced T) : List UInt8 := (run isTerminator maxFrame [] t.received).2

theorem Traced.pending_snoc (t : Traced T) (inner : T) (b : UInt8) :
    (⟨inner, t.received ++ [b]⟩ : Traced T).pending
      = (step isTerminator maxFrame t.pending b).2 := by
  rw [pending, run_append]
  rfl

/-- A listener whose unfinished line is that of the delivered bytes. -/
structure InStep (a : Listener (Traced T)) : Prop where
  byte : a.byte.length = 1
  pending : a.pending = a.transport.pending

/-- **One read keeps a listener in step**, and so does the answer it ends
with. -/
theorem InStep.step (sent : List UInt8) {a : Listener (Traced T)} (h : InStep a) :
    Sum.elim InStep (fun heard : Heard (Traced T) ε => heard.pending = heard.transport.pending)
      (a.step sent) := by
  have hlen := Transport.read_length (T := T) a.transport.inner a.byte
  cases hread : Transport.read a.transport.inner a.byte with
  | mk out inner =>
  obtain ⟨n, byte⟩ := out
  rw [hread, h.byte] at hlen
  obtain ⟨b, rfl⟩ := List.length_eq_one_iff.mp hlen
  rw [Listener.step, a.transport.read_eq hread, h.pending]
  rcases n with e | _ | k
  · show a.transport.pending = _
    rw [Traced.delivered, List.append_nil]
    rfl
  · show a.transport.pending = _
    rw [Traced.delivered, List.take_zero, List.append_nil]
    rfl
  · -- a byte has arrived
    have hsnoc := a.transport.pending_snoc inner b
    simp only [Traced.delivered, List.take_succ_cons, List.take_nil, List.headD_cons]
    by_cases hb : isTerminator b = true
    · rw [step_line hb] at hsnoc
      simp only [hb, if_true]
      split
      · exact ⟨rfl, hsnoc.symm⟩
      · exact hsnoc.symm
    · simp only [hb, Bool.false_eq_true, if_false]
      exact ⟨rfl, hsnoc.symm⟩

/-- **One send keeps the parser in step** with the delivered bytes. -/
theorem Session.Sends.pending {s s' : Session (Traced T)} {c : Command}
    {r : Except (Error ε) Response} (h : s.Sends c r s')
    (hs : s.parser.Holds s.transport.pending) : s'.parser.Holds s'.transport.pending := by
  have hwrite : ∀ w t, Transport.write s.transport (c.payload ++ [byte '\r']) = (w, t) →
      t.pending = s.transport.pending := by
    intro w t hw
    rw [show t = (Transport.write s.transport (c.payload ++ [byte '\r'])).2 by rw [hw]]
    rfl
  obtain ⟨msg, buf, -, -, rfl⟩ | ⟨-, e, t, hw, -, rfl⟩ | ⟨-, t, l', hw, hl', hhalts⟩ :=
    h.cases hs
  · exact hs
  · show s.parser.Holds t.pending
    rwa [hwrite _ _ hw]
  · have hlast := hhalts.invariant (P := InStep)
      (Q := fun heard => heard.pending = heard.transport.pending) ⟨rfl, (hwrite _ _ hw).symm⟩
      (fun a a' ha hstep => by simpa [hstep] using ha.step (ε := ε) c.payload)
      (fun a heard ha hstep => by simpa [hstep] using ha.step (ε := ε) c.payload)
    rwa [← show l' = s'.transport.pending from hlast]

/-- **In every reachable session** the parser holds what the delivered
bytes leave in its buffer. -/
theorem Session.Reached.holds {s : Session (Traced T)} (h : s.Reached) :
    s.parser.Holds s.transport.pending := by
  induction h with
  | new t => exact Parser.new_holds
  | send hs h ih => exact h.pending ih

/-! ## What the next send sees of it -/

/-- On every transport, every send of a session with this parser is that of
a new session: it has the same result and leaves the transport in the same
state. -/
def Parser.LikeNew (p : Parser) : Prop :=
  ∀ (U ε : Type) [Transport U ε] (t t' : U) (c : Command) (r : Except (Error ε) Response),
    (∃ s', (⟨t, p⟩ : Session U).Sends c r s' ∧ s'.transport = t') ↔
      ∃ s', (Session.new t).Sends c r s' ∧ s'.transport = t'

/-- **A parser is known by the line it holds.** -/
theorem sends_congr {p q : Parser} {l : List UInt8} (hp : p.Holds l) (hq : q.Holds l)
    {t t' : T} {c : Command} {r : Except (Error ε) Response}
    (h : ∃ s', (⟨t, p⟩ : Session T).Sends c r s' ∧ s'.transport = t') :
    ∃ s', (⟨t, q⟩ : Session T).Sends c r s' ∧ s'.transport = t' := by
  obtain ⟨s', h, rfl⟩ := h
  obtain ⟨msg, buf, henc, rfl, rfl⟩ | ⟨hc, e, t₁, hw, rfl, rfl⟩ | ⟨hc, t₁, l', hw, -, hhalts⟩ :=
    h.cases hp
  · exact ⟨⟨t, q⟩, ⟨0, send_rejected henc _ 0⟩, rfl⟩
  · exact ⟨⟨t₁, q⟩, ⟨0, send_write_error (s := ⟨t, q⟩) hc hw 0⟩, rfl⟩
  · obtain ⟨s₁, hs₁, ht, -⟩ := halts_sends (s := ⟨t, q⟩) hc hw hq hhalts
    exact ⟨s₁, hs₁, ht⟩

/-- A send that runs out of bytes in the middle of a line leaves it in the
parser. -/
theorem sends_partial {c : Command} (hc : c.Accepted) {t t₁ t₂ t₃ : T} {L : List UInt8}
    {err : Error ε}
    (hw : Transport.write t (c.payload ++ [byte '\r']) = (.ok (), t₁))
    (hL : Open isTerminator L) (hd : Delivers t₁ L t₂) (hs : Stops t₂ err t₃) :
    ∃ s', (Session.new t).Sends c (.error err) s' ∧ s'.transport = t₃ ∧
      s'.parser.Holds (residue maxFrame L) := by
  have hlisten : Listens c.payload t₁ [] [] _ := listens_open hL hd (listens_stop hs)
  rw [run_open hL] at hlisten
  exact sends_of_listens hc (Session.new t) hw Parser.new_holds hlisten

/-- The next line is decoded with what the parser held before it. -/
theorem sends_rest {c : Command} (hc : c.Accepted) {p : Parser} {l L : List UInt8} {b : UInt8}
    (hp : p.Holds l) {t t₁ t₂ : T}
    (hw : Transport.write t (c.payload ++ [byte '\r']) = (.ok (), t₁))
    (hL : Open isTerminator L) (hb : isTerminator b = true) (hne : L ≠ c.payload)
    (hd : Delivers t₁ (L ++ [b]) t₂) :
    ∃ s', (⟨t, p⟩ : Session T).Sends c
        ((readResponse (run isTerminator maxFrame l L).2).mapError .parse) s' ∧
      s'.transport = t₂ := by
  obtain ⟨s', hs', ht, -⟩ :=
    sends_of_listens hc (⟨t, p⟩ : Session T) hw hp (listens_line hL hb hd hne)
  exact ⟨s', hs', ht⟩

/-- A terminator answers a command with what the parser holds. -/
theorem sends_terminator {p : Parser} {l : List UInt8} (hp : p.Holds l) :
    ∃ s', (⟨⟨[], [[byte '\r']], none, []⟩, p⟩ : Session (Scripted Empty)).Sends .stop
        ((readResponse l).mapError .parse) s' ∧
      s'.transport = ⟨[], [], none, [.write (bytes "S\r"), .read]⟩ := by
  have hd := Scripted.delivers (ε := Empty) [byte '\r'] [] [] none [.write (bytes "S\r")]
  exact sends_rest (c := .stop) (L := []) trivial hp rfl open_nil (by decide) (by decide) hd

/-- **When a history is forgotten.** The parser that a session has after
any sends behaves as a new one exactly when the bytes delivered since the
last terminator, over all sends, are none or fill the 64 bytes of the
parser and one more, any number of times. -/
theorem history_forgotten_iff (s : Session (Traced T)) (hs : s.Reached) :
    s.parser.LikeNew ↔
      (splitLines isTerminator s.transport.received).2.length % (maxFrame + 1) = 0 := by
  have hholds := hs.holds
  rw [Traced.pending, run_tail] at hholds
  rw [← residue_length, List.length_eq_zero_iff]
  generalize residue maxFrame (splitLines isTerminator s.transport.received).2 = l at hholds
  constructor
  · intro hlike
    obtain ⟨s₁, hs₁, ht₁⟩ := sends_terminator hholds
    obtain ⟨s₂, hs₂, -⟩ := (hlike _ _ _ _ _ _).mp ⟨s₁, hs₁, ht₁⟩
    obtain ⟨s₃, hs₃, -⟩ := sends_terminator Parser.new_holds
    -- a new session reports the empty line
    have hresult := (hs₂.unique hs₃).1
    exact answer_eq_unexpectedEof.mp (hresult.trans (answer_eq_unexpectedEof.mpr rfl))
  · intro hl
    subst hl
    intro U ε' _ t t' c r
    exact ⟨sends_congr hholds Parser.new_holds, sends_congr Parser.new_holds hholds⟩

/-- A device that answers a stop with the first bytes of a position, and
the next one in full. -/
def lateDevice : Scripted Empty := ⟨[], [bytes "AZ=1", bytes "+\r"], none, []⟩

theorem lateDevice_times_out :
    ∃ p : Parser, p.Holds (bytes "AZ=1") ∧
      (Session.new (⟨lateDevice, []⟩ : Traced (Scripted Empty))).Sends .stop (.error .timeout)
        ⟨⟨⟨[], [bytes "+\r"], none, .write (bytes "S\r") :: List.replicate 5 .read⟩,
          bytes "AZ=1"⟩, p⟩ := by
  have hd := Scripted.delivers (ε := Empty) (bytes "AZ=1") [] [bytes "+\r"] none
    [.write (bytes "S\r")]
  have hs := Scripted.stops (ε := Empty) [bytes "+\r"] none
    ([.write (bytes "S\r")] ++ List.replicate (bytes "AZ=1").length .read)
  obtain ⟨⟨t, p⟩, hsends, ht, hp⟩ := sends_partial (c := .stop)
    (t := (⟨lateDevice, []⟩ : Traced (Scripted Empty))) trivial rfl (by decide)
    (hd.traced []) (hs.traced _)
  cases ht
  exact ⟨p, hp, hsends⟩

/-- After a timeout in the middle of a line, its four bytes are kept. -/
theorem history_forgotten_iff_late :
    ∃ s : Session (Traced (Scripted Empty)), s.transport.received = bytes "AZ=1" ∧
      (s.parser.LikeNew ↔
        (splitLines isTerminator s.transport.received).2.length % (maxFrame + 1) = 0) := by
  obtain ⟨p, -, hsends⟩ := lateDevice_times_out
  exact ⟨_, rfl, history_forgotten_iff _ (.send (.new lateDevice) hsends)⟩

/-- They are read as the beginning of the next answer: it fails, where a
new session gets it. -/
theorem late_answer_lost :
    ∃ s : Session (Traced (Scripted Empty)),
      (Session.new ⟨lateDevice, []⟩).Sends .stop (.error .timeout) s ∧ s.Reached ∧
      (∃ s', s.Sends .stop (.error (.parse .unknownCommand)) s') ∧
      (∃ s', (Session.new s.transport).Sends .stop (.ok .ack) s') ∧
      ¬ s.parser.LikeNew := by
  obtain ⟨p, hp, hsends⟩ := lateDevice_times_out
  have hd := (Scripted.delivers (ε := Empty) (bytes "+" ++ [byte '\r']) [] [] none
    (.write (bytes "S\r") :: List.replicate 5 .read ++ [.write (bytes "S\r")])).traced
      (bytes "AZ=1")
  have hnext := fun {q : Parser} {l : List UInt8} (hq : q.Holds l) =>
    sends_rest (c := .stop) (L := bytes "+") trivial hq
      (t := (⟨⟨[], [bytes "+\r"], none, .write (bytes "S\r") :: List.replicate 5 .read⟩,
        bytes "AZ=1"⟩ : Traced (Scripted Empty))) rfl (by decide) (by decide) (by decide) hd
  obtain ⟨s₁, hs₁, ht₁⟩ := hnext hp
  obtain ⟨s₂, hs₂, -⟩ := hnext Parser.new_holds
  refine ⟨_, hsends, .send (.new lateDevice) hsends, ⟨s₁, hs₁⟩, ⟨s₂, hs₂⟩, fun hlike => ?_⟩
  obtain ⟨s₃, hs₃, -⟩ := (hlike _ _ _ _ _ _).mp ⟨s₁, hs₁, ht₁⟩
  exact absurd (hs₃.unique hs₂).1 (by decide)

end Easycom
