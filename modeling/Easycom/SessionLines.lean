import Easycom.Listener

/-!
# Easycom — SessionLines

`Session::send` on a delivered byte stream, line by line: the stream is
split at every terminator, the leading echoes are skipped, and the first
other line is decoded (`send_refines_lines`). `Scripted` is the transport
of these statements: it accepts every write, delivers one byte a read, and
then returns zero or an error; it keeps the calls it was given.
-/

namespace Easycom

open Rust Stream

/-! ## A scripted transport -/

/-- A call of the transport, in the order in which they came. -/
inductive Call where
  | write (frame : List UInt8)
  | read
  deriving DecidableEq, Repr

/-- Delivers `rx` byte by byte, then fails with `ending` (zero bytes if
there is none). Every write makes the next of the `replies` available. -/
structure Scripted (ε : Type) where
  rx : List UInt8
  replies : List (List UInt8)
  ending : Option ε
  calls : List Call
  deriving DecidableEq

namespace Scripted

variable {ε : Type}

instance : Transport (Scripted ε) ε where
  write self frame :=
    (.ok (), { self with
      rx := self.rx ++ self.replies.headD []
      replies := self.replies.tail
      calls := self.calls ++ [.write frame] })
  read self buf :=
    let self := { self with calls := self.calls ++ [Call.read] }
    match self.rx, buf with
    | [], buf =>
        match self.ending with
        | none => ((.ok 0, buf), self)
        | some e => ((.error e, buf), self)
    | _ :: _, [] => ((.ok 0, []), self)
    | b :: rx, _ :: buf => ((.ok 1, b :: buf), { self with rx })
  read_length self buf := by
    dsimp only
    split
    · split <;> rfl
    · rfl
    · rfl

/-- The error of a send that runs out of bytes. -/
def failure : Option ε → Error ε
  | none => .timeout
  | some e => .transport e

theorem delivers (bs rx : List UInt8) (replies : List (List UInt8)) (ending : Option ε)
    (calls : List Call) :
    Delivers (⟨bs ++ rx, replies, ending, calls⟩ : Scripted ε) bs
      ⟨rx, replies, ending, calls ++ List.replicate bs.length .read⟩ := by
  induction bs generalizing calls with
  | nil =>
      rw [List.length_nil, List.replicate_zero, List.append_nil]
      exact .nil _
  | cons b bs ih =>
      have hrest := ih (calls ++ [.read])
      rw [List.append_assoc, List.singleton_append, ← List.replicate_succ] at hrest
      refine .cons (fun buf hbuf => ?_) hrest
      obtain ⟨x, rfl⟩ := List.length_eq_one_iff.mp hbuf
      exact ⟨0, rfl⟩

theorem stops (replies : List (List UInt8)) (ending : Option ε) (calls : List Call) :
    Stops (⟨[], replies, ending, calls⟩ : Scripted ε) (failure ending)
      ⟨[], replies, ending, calls ++ [.read]⟩ := by
  cases ending with
  | none => exact .timeout fun buf _ => ⟨buf, rfl⟩
  | some e => exact .transport fun buf _ => ⟨buf, rfl⟩

end Scripted

/-- The mock transport delivers its queue. -/
theorem MockTransport.delivers (written bs rx : List UInt8) :
    Delivers (⟨written, bs ++ rx⟩ : MockTransport) bs ⟨written, rx⟩ := by
  induction bs with
  | nil => exact .nil _
  | cons b bs ih =>
      refine .cons (fun buf hbuf => ?_) ih
      obtain ⟨x, rfl⟩ := List.length_eq_one_iff.mp hbuf
      exact ⟨0, by simp [Transport.read]⟩

/-! ## The first line that is no echo -/

/-- The first of the lines that is not `sent`, and the number of bytes up
to and including its terminator. -/
def firstAnswer (sent : List UInt8) : List (List UInt8) → Option (List UInt8 × Nat)
  | [] => none
  | l :: ls =>
      if l = sent then (firstAnswer sent ls).map fun a => (a.1, l.length + 1 + a.2)
      else some (l, l.length + 1)

variable {T ε : Type} [Transport T ε]

/-- **A listener on a stream of lines that fit** answers with the first
line that is no echo, and reads no further than its terminator; without
such a line it fails as the transport does. -/
theorem listens_stream {sent : List UInt8} {t t' t'' : T} {err : Error ε} (s : List UInt8)
    (hfits : Fits isTerminator maxFrame s)
    (hd : Delivers t s t') (hs : Stops t' err t'') :
    match firstAnswer sent (splitLines isTerminator s).1 with
    | some (l, k) => k ≤ s.length ∧ ∃ t₁, Delivers t (s.take k) t₁ ∧
        Listens sent t [] [] ⟨(readResponse l).mapError .parse, t₁, []⟩
    | none => Listens sent t [] [] ⟨.error err, t'', (splitLines isTerminator s).2⟩ := by
  induction s using line_induction isTerminator generalizing t with
  | nil_line s hopen =>
      rw [splitLines_open hopen]
      have hlen := (fits_open hopen).mp hfits
      refine listens_open hopen hd ?_
      rw [run_open hopen, residue_of_le hlen]
      exact listens_stop hs
  | cons_line l b rest hl hb ih =>
      obtain ⟨hlen, hfits⟩ := (fits_line hl hb).mp hfits
      rw [List.append_cons] at hd
      obtain ⟨t₁, hd₁, hd₂⟩ := hd.split
      have htake : ∀ k, (l ++ b :: rest).take (l.length + 1 + k) = l ++ [b] ++ rest.take k := by
        intro k
        rw [List.append_cons, List.take_append, List.take_of_length_le (by simp)]
        simp
      rw [splitLines_line hl hb, firstAnswer]
      by_cases hecho : l = sent
      · have hrest := ih hfits hd₂
        obtain ⟨t₂, hd₃, hd₄⟩ := hd₁.split
        have hskip : ∀ h, Listens sent t₁ [] [] h → Listens sent t [] [] h := fun h hh =>
          listens_open hl hd₃ (listens_echo hb hd₄ hecho hh)
        rw [if_pos hecho]
        cases hans : firstAnswer sent (splitLines isTerminator rest).1 with
        | none =>
            rw [hans] at hrest
            exact hskip _ hrest
        | some a =>
            rw [hans] at hrest
            obtain ⟨hk, t₃, hd₅, hh⟩ := hrest
            refine ⟨by simp only [List.length_append, List.length_cons]; omega, t₃, ?_,
              hskip _ hh⟩
            rw [htake]
            exact hd₁.append hd₅
      · rw [if_neg hecho]
        refine ⟨by simp, t₁, ?_, ?_⟩
        · have := htake 0
          rw [List.take_zero, List.append_nil, Nat.add_zero] at this
          rw [this]
          exact hd₁
        · have hh := listens_line (l := []) (ε := ε) hl hb hd₁ hecho
          rwa [run_open hl, residue_of_le hlen] at hh

/-! ## The refinement -/

theorem Delivers.unique {t t₁ t₂ : T} {bs : List UInt8} (h₁ : Delivers t bs t₁)
    (h₂ : Delivers t bs t₂) : t₁ = t₂ := by
  induction h₁ with
  | nil =>
      cases h₂
      rfl
  | cons hread _ ih =>
      cases h₂ with
      | cons hread' rest' =>
          obtain ⟨n, hn⟩ := hread [0] rfl
          obtain ⟨n', hn'⟩ := hread' [0] rfl
          have ht := congrArg Prod.snd (hn.symm.trans hn')
          simp only at ht
          subst ht
          exact ih rest'

/-- **`send` refines its line-level description.** On an empty parser, and
a transport that delivers `b` and then fails, with no line of `b` longer
than the parser's buffer: a rejected command changes nothing; otherwise the
frame is written once, before any read, and the answer is the decoding of
the first line of `b` that is not the frame sent, everything up to and
including its terminator is consumed, and the parser is empty; without such
a line, all of `b` is consumed and the send fails as the transport does. -/
theorem send_refines_lines (self : Session (Scripted ε)) (c : Command)
    (hempty : self.parser.len = 0)
    (hfits : Fits isTerminator maxFrame
      (self.transport.rx ++ self.transport.replies.headD [])) :
    (∀ msg buf, encodeInto c (List.replicate 32 0) = .ok (.error msg, buf) →
      self.Sends c (.error (.invalidParam msg)) self) ∧
    (∀ len buf, encodeInto c (List.replicate 32 0) = .ok (.ok len, buf) →
      let frame := buf.take len
      let b := self.transport.rx ++ self.transport.replies.headD []
      match firstAnswer frame.dropLast (splitLines isTerminator b).1 with
      | some (l, k) => ∃ d s', decode l = .ok d ∧
          self.Sends c (d.mapError .parse) s' ∧ s'.parser.len = 0 ∧
          s'.transport = ⟨b.drop k, self.transport.replies.tail, self.transport.ending,
            self.transport.calls ++ .write frame :: List.replicate k .read⟩
      | none => ∃ s',
          self.Sends c (.error (Scripted.failure self.transport.ending)) s' ∧
          s'.transport = ⟨[], self.transport.replies.tail, self.transport.ending,
            self.transport.calls ++ .write frame :: List.replicate (b.length + 1) .read⟩) := by
  refine ⟨fun msg buf henc => ⟨0, send_rejected henc self 0⟩, fun len buf henc => ?_⟩
  · obtain ⟨hc, -, hframe⟩ := encodeInto_ok (by simp) henc
    have hholds : self.parser.Holds [] := by
      rw [Parser.Holds, hempty]
      exact holds_nil _
    dsimp only
    rw [hframe, List.dropLast_concat]
    -- the transport after the write
    obtain ⟨⟨rx, replies, ending, calls⟩, parser⟩ := self
    simp only at hfits hholds ⊢
    generalize hb : rx ++ replies.headD [] = b at hfits ⊢
    have hw : Transport.write (⟨rx, replies, ending, calls⟩ : Scripted ε)
        (c.payload ++ [byte '\r'])
        = (.ok (), ⟨b, replies.tail, ending, calls ++ [.write (c.payload ++ [byte '\r'])]⟩) := by
      rw [← hb]
      rfl
    have hdeliver := Scripted.delivers (ε := ε) b [] replies.tail ending
      (calls ++ [.write (c.payload ++ [byte '\r'])])
    rw [List.append_nil] at hdeliver
    have hstream := @listens_stream _ _ _ c.payload _ _ _ _ b hfits hdeliver (Scripted.stops _ _ _)
    cases hans : firstAnswer c.payload (splitLines isTerminator b).1 with
    | none =>
        rw [hans] at hstream
        obtain ⟨s', hsends, ht, -⟩ := sends_of_listens hc ⟨_, parser⟩ hw hholds hstream
        refine ⟨s', hsends, ?_⟩
        rw [ht, List.append_assoc, List.append_assoc, ← List.replicate_succ']
        rfl
    | some a =>
        rw [hans] at hstream
        obtain ⟨hk, t₁, hd, hh⟩ := hstream
        obtain ⟨s', hsends, ht, hp⟩ := sends_of_listens hc ⟨_, parser⟩ hw hholds hh
        refine ⟨readResponse a.1, s', decode_eq_read a.1, hsends, hp.length.symm, ?_⟩
        have hd' := Scripted.delivers (ε := ε) (b.take a.2) (b.drop a.2) replies.tail ending
          (calls ++ [.write (c.payload ++ [byte '\r'])])
        rw [List.take_append_drop] at hd'
        rw [ht, hd.unique hd', List.length_take, Nat.min_eq_left hk, List.append_assoc]
        rfl

/-- An echo, a position, and a byte that is not read. -/
theorem send_refines_lines_echo :
    ∃ s', (Session.new ⟨bytes "C\rAZ=180 EL=090\r+", [], none, []⟩ :
        Session (Scripted Empty)).Sends .queryPosition (.ok (.position 180 90)) s' ∧
      s'.parser.len = 0 ∧
      s'.transport = ⟨bytes "+", [], none,
        .write (bytes "C\r") :: List.replicate 16 .read⟩ := by
  have h := (send_refines_lines (Session.new (⟨bytes "C\rAZ=180 EL=090\r+", [], none, []⟩ :
    Scripted Empty)) .queryPosition rfl (by decide)).2 2 _ rfl
  obtain ⟨d, s', hd, hs, hp, ht⟩ := h
  cases hd
  exact ⟨s', hs, hp, ht⟩

end Easycom
