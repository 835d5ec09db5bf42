import Easycom.ParserLines
import Easycom.Session

/-!
# Easycom — Listener

What the receive loop of `Session::send` does, said without its buffers: a
listener knows the unfinished line of the parser (`pending`) and the bytes
heard since the last terminator (`heard`), skips the lines that equal what
was sent, and answers with the first other one.

`recvStep_refines` connects the two: the 64-byte array of the parser holds
`pending`, the 32-byte echo buffer the first 32 bytes of `heard`, and since
no command fills 32 bytes, the truncated buffer equals the sent frame
exactly when `heard` does. `send_refines` is the same for a whole `send`.
-/

namespace Easycom

open Rust Stream

variable {T ε : Type} [Transport T ε]

structure Listener (T : Type) where
  transport : T
  byte : List UInt8
  pending : List UInt8
  heard : List UInt8

/-- What a listener leaves when it has its answer: the result of the send,
the transport, and the unfinished line. -/
structure Heard (T ε : Type) where
  result : Except (Error ε) Response
  transport : T
  pending : List UInt8

/-- One read of the listener. `sent` is the frame sent, without its CR. -/
def Listener.step (sent : List UInt8) (a : Listener T) : Listener T ⊕ Heard T ε :=
  match Transport.read a.transport a.byte with
  | ((.error e, _), t) => .inr ⟨.error (.transport e), t, a.pending⟩
  | ((.ok 0, _), t) => .inr ⟨.error .timeout, t, a.pending⟩
  | ((.ok (_ + 1), byte), t) =>
      let b := byte.headD 0
      if isTerminator b then
        if a.heard = sent then .inl ⟨t, byte, [], []⟩
        else .inr ⟨(readResponse a.pending).mapError .parse, t, []⟩
      else
        .inl ⟨t, byte, (Stream.step isTerminator maxFrame a.pending b).2, a.heard ++ [b]⟩

/-- Only an empty line ends unexpectedly. -/
theorem answer_eq_unexpectedEof {l : List UInt8} :
    ((readResponse l).mapError .parse : Except (Error ε) Response)
      = .error (.parse .unexpectedEof) ↔ l = [] := by
  rw [← readResponse_eq_unexpectedEof]
  cases readResponse l with
  | ok r => exact ⟨nofun, nofun⟩
  | error e =>
      constructor
      · intro h
        cases h
        rfl
      · intro h
        cases h
        rfl

/-! ## Refinement -/

/-- The locals of the receive loop are those of the listener. -/
structure Hears (st : RecvState T) (a : Listener T) : Prop where
  transport : st.session.transport = a.transport
  byte : st.byte = a.byte
  byte_length : a.byte.length = 1
  parser : st.session.parser.Holds a.pending
  rx : Holds st.rxFrame st.rxLen (a.heard.take 32)

/-- What `send` returns is what the listener heard. -/
structure Returned (out : Sent T ε) (h : Heard T ε) : Prop where
  result : out.1 = h.result
  transport : out.2.transport = h.transport
  parser : out.2.parser.Holds h.pending

/-- A frame shorter than the echo buffer is recognised by what fits. -/
theorem take_eq_iff {heard sent : List UInt8} (hlen : sent.length < 32) :
    heard.take 32 = sent ↔ heard = sent := by
  constructor
  · intro h
    rw [← h, List.take_of_length_le]
    rw [← h, List.length_take] at hlen
    omega
  · intro h
    rw [h, List.take_of_length_le (by omega)]

theorem keep_returns {st : RecvState T} {heard : List UInt8}
    (h : Holds st.rxFrame st.rxLen (heard.take 32)) (b : UInt8) :
    Returns (st.keep b) fun st' =>
      st'.session = st.session ∧ st'.byte = st.byte ∧
      Holds st'.rxFrame st'.rxLen ((heard ++ [b]).take 32) := by
  have hl := h.length
  rw [List.length_take] at hl
  rw [RecvState.keep]
  by_cases hlt : st.rxLen < 32
  · obtain ⟨buf, hbuf, hholds⟩ := h.push hlt b
    rw [if_pos hlt, hbuf]
    refine ⟨_, rfl, rfl, rfl, ?_⟩
    rw [List.take_of_length_le (by omega)] at hholds
    rwa [List.take_of_length_le (by rw [List.length_append, List.length_singleton]; omega)]
  · rw [if_neg hlt]
    refine ⟨_, rfl, rfl, rfl, ?_⟩
    rwa [List.take_append_of_le_length (by omega)]

theorem recvStep_refines {frameBuf : List UInt8} {len : Nat} {sent : List UInt8}
    (hsent : sliceTo frameBuf (len - 1) = .ok sent) (hlen : sent.length < 32)
    (st : RecvState T) (a : Listener T) (h : Hears st a) :
    Returns (recvStep frameBuf len st) fun out =>
      Sum.LiftRel Hears Returned out (a.step sent) := by
  have hbyte := Transport.read_length (T := T) a.transport a.byte
  rw [recvStep, Listener.step, h.transport, h.byte]
  generalize Transport.read a.transport a.byte = res at hbyte
  obtain ⟨⟨n, byte⟩, t⟩ := res
  simp only at hbyte
  rw [h.byte_length] at hbyte
  obtain ⟨b, rfl⟩ := List.length_eq_one_iff.mp hbyte
  rcases n with e | _ | k
  · exact ⟨_, rfl, .inr ⟨rfl, rfl, h.parser⟩⟩
  · exact ⟨_, rfl, .inr ⟨rfl, rfl, h.parser⟩⟩
  · -- a byte has arrived
    have hindex : index [b] 0 = .ok b := rfl
    simp only [hindex, ok_bind, List.headD_cons]
    obtain ⟨⟨out, parser⟩, hfeed, hout, hholds⟩ := Parser.feed_returns h.parser b
    simp only at hout hholds
    by_cases hb : isTerminator b = true
    · -- a line is complete: the parser answers, the echo buffer decides
      rw [step_line hb] at hout hholds
      subst hout
      simp only [hb, if_true, hfeed, ok_bind, responseEvent, hsent, h.rx.slice,
        take_eq_iff hlen]
      by_cases hecho : a.heard = sent
      · simp only [hecho, if_true]
        exact ⟨_, rfl, .inl ⟨rfl, rfl, rfl, hholds, holds_nil _⟩⟩
      · simp only [hecho, if_false]
        cases readResponse a.pending with
        | ok r => exact ⟨_, rfl, .inr ⟨rfl, rfl, hholds⟩⟩
        | error p => exact ⟨_, rfl, .inr ⟨rfl, rfl, hholds⟩⟩
    · -- one more byte of a line
      simp only [hb, Bool.false_eq_true, if_false]
      refine Returns.bind (@keep_returns T ⟨⟨t, st.session.parser⟩, [b], st.rxFrame, st.rxLen⟩
        a.heard h.rx b) fun st' hst' => ?_
      obtain ⟨hsession, hbyte', hrx⟩ := hst'
      rw [hsession]
      simp only [hfeed, ok_bind]
      exact ⟨_, rfl, .inl ⟨rfl, hbyte', rfl, hholds, hrx⟩⟩

/-! ## A whole send -/

/-- The listener of a send: nothing is heard yet. -/
def Listener.start (t : T) (pending : List UInt8) : Listener T := ⟨t, [0], pending, []⟩

theorem encode_frame {c : Command} (hc : c.Accepted) :
    ∃ frameBuf, encodeInto c (List.replicate 32 0) = .ok (.ok (c.payload.length + 1), frameBuf) ∧
      sliceTo frameBuf (c.payload.length + 1) = .ok (c.payload ++ [byte '\r']) ∧
      sliceTo frameBuf c.payload.length = .ok c.payload := by
  have hlen := c.payload_length_le
  refine ⟨_, encodeInto_accepted hc (by simp), ?_, ?_⟩
  · exact sliceTo_filled_concat (by simp; omega)
  · exact sliceTo_filled_append (by simp; omega)

/-- A rejected command: nothing is written, nothing changes. -/
theorem send_rejected {c : Command} {msg : String} {buf : List UInt8}
    (henc : encodeInto c (List.replicate 32 0) = .ok (.error msg, buf)) (s : Session T)
    (fuel : Nat) : s.send fuel c = .ok (some (.error (.invalidParam msg), s)) := by
  rw [Session.send, henc]
  rfl

theorem send_write_error {c : Command} (hc : c.Accepted) {s : Session T} {e : ε} {t : T}
    (hw : Transport.write s.transport (c.payload ++ [byte '\r']) = (.error e, t))
    (fuel : Nat) :
    s.send fuel c = .ok (some (.error (.transport e), { s with transport := t })) := by
  obtain ⟨frameBuf, henc, hframe, -⟩ := encode_frame hc
  rw [Session.send, henc]
  simp only [ok_bind, hframe, hw]
  rfl

/-- **A send is its listener**, whatever the parser held before it. -/
theorem send_refines {c : Command} (hc : c.Accepted) {s : Session T} {t : T} {l : List UInt8}
    (hw : Transport.write s.transport (c.payload ++ [byte '\r']) = (.ok (), t))
    (hl : s.parser.Holds l) (fuel : Nat) :
    Returns (s.send fuel c) fun out =>
      Option.Rel Returned out (iterate (Listener.step c.payload) fuel (Listener.start t l)) := by
  obtain ⟨frameBuf, henc, hframe, hsent⟩ := encode_frame hc
  have hlen := c.payload_length_le
  rw [Session.send, henc]
  simp only [ok_bind, hframe, hw]
  exact loop_refines (recvStep_refines hsent (by omega)) fuel
    ⟨rfl, rfl, rfl, hl, holds_nil _⟩

theorem sends_halts {c : Command} (hc : c.Accepted) {s s' : Session T} {t : T}
    {l : List UInt8} {r : Except (Error ε) Response}
    (hw : Transport.write s.transport (c.payload ++ [byte '\r']) = (.ok (), t))
    (hl : s.parser.Holds l) (h : s.Sends c r s') :
    ∃ l', s'.parser.Holds l' ∧
      Halts (Listener.step c.payload) (Listener.start t l) ⟨r, s'.transport, l'⟩ := by
  obtain ⟨fuel, hfuel⟩ := h
  have hrel := (send_refines hc hw hl fuel).of_eq hfuel
  generalize hit : iterate (Listener.step c.payload) fuel (Listener.start t l) = out at hrel
  cases hrel with
  | @some _ h hret =>
      obtain ⟨hr, ht, hp⟩ := hret
      refine ⟨h.pending, hp, fuel, ?_⟩
      simp only at hr ht
      rw [hit, hr, ht]

theorem halts_sends {c : Command} (hc : c.Accepted) {s : Session T} {t : T}
    {l : List UInt8} {h : Heard T ε}
    (hw : Transport.write s.transport (c.payload ++ [byte '\r']) = (.ok (), t))
    (hl : s.parser.Holds l)
    (hhalts : Halts (Listener.step c.payload) (Listener.start t l) h) :
    ∃ s', s.Sends c h.result s' ∧ s'.transport = h.transport ∧ s'.parser.Holds h.pending := by
  obtain ⟨fuel, hfuel⟩ := hhalts
  obtain ⟨out, hout, hrel⟩ := send_refines hc hw hl fuel
  rw [hfuel] at hrel
  cases hrel with
  | @some out _ hret =>
      obtain ⟨hr, ht, hp⟩ := hret
      exact ⟨out.2, ⟨fuel, by rw [hout, ← hr]⟩, ht, hp⟩

/-- **What a send that returns has done**: refused the command, failed to
write it, or run its listener to the end. -/
theorem Session.Sends.cases {s s' : Session T} {c : Command} {l : List UInt8}
    {r : Except (Error ε) Response} (h : s.Sends c r s') (hl : s.parser.Holds l) :
    (∃ msg buf, encodeInto c (List.replicate 32 0) = .ok (.error msg, buf) ∧
      r = .error (.invalidParam msg) ∧ s' = s) ∨
    (c.Accepted ∧ ∃ e t, Transport.write s.transport (c.payload ++ [byte '\r']) = (.error e, t) ∧
      r = .error (.transport e) ∧ s' = { s with transport := t }) ∨
    (c.Accepted ∧ ∃ t l', Transport.write s.transport (c.payload ++ [byte '\r']) = (.ok (), t) ∧
      s'.parser.Holds l' ∧
      Halts (Listener.step c.payload) (Listener.start t l) ⟨r, s'.transport, l'⟩) := by
  by_cases hc : c.Accepted
  · cases hw : Transport.write s.transport (c.payload ++ [byte '\r']) with
    | mk written t =>
        cases written with
        | error e =>
            obtain ⟨fuel, hfuel⟩ := h
            rw [send_write_error hc hw] at hfuel
            cases hfuel
            exact .inr (.inl ⟨hc, e, t, rfl, rfl, rfl⟩)
        | ok _ =>
            obtain ⟨l', hl', hhalts⟩ := sends_halts hc hw hl h
            exact .inr (.inr ⟨hc, t, l', rfl, hl', hhalts⟩)
  · obtain ⟨msg, hmsg⟩ := encodeInto_rejected hc (List.replicate 32 0)
    obtain ⟨fuel, hfuel⟩ := h
    rw [send_rejected hmsg] at hfuel
    cases hfuel
    exact .inl ⟨msg, _, hmsg, rfl, rfl⟩

theorem send_mono {s : Session T} {c : Command} {fuel : Nat} {out : Sent T ε}
    (h : s.send fuel c = .ok (some out)) (k : Nat) :
    s.send (fuel + k) c = .ok (some out) := by
  by_cases hc : c.Accepted
  · obtain ⟨frameBuf, henc, hframe, -⟩ := encode_frame hc
    rw [Session.send, henc] at h ⊢
    simp only [ok_bind, hframe] at h ⊢
    generalize Transport.write s.transport _ = res at h ⊢
    obtain ⟨written, t⟩ := res
    cases written with
    | error e => exact h
    | ok _ => exact loop_mono h k
  · obtain ⟨msg, hmsg⟩ := encodeInto_rejected hc (List.replicate 32 0)
    rw [send_rejected hmsg] at h ⊢
    exact h

/-- **A send has one result.** -/
theorem Session.Sends.unique {s s₁ s₂ : Session T} {c : Command}
    {r₁ r₂ : Except (Error ε) Response} (h₁ : s.Sends c r₁ s₁) (h₂ : s.Sends c r₂ s₂) :
    r₁ = r₂ ∧ s₁ = s₂ := by
  obtain ⟨f₁, h₁⟩ := h₁
  obtain ⟨f₂, h₂⟩ := h₂
  have h1 := send_mono h₁ f₂
  have h2 := send_mono h₂ f₁
  rw [Nat.add_comm f₂ f₁, h1] at h2
  cases h2
  exact ⟨rfl, rfl⟩

/-! ## Delivered bytes -/

/-- Reading byte by byte, the transport delivers `bs` and is left in the
last state. -/
inductive Delivers : T → List UInt8 → T → Prop where
  | nil (t : T) : Delivers t [] t
  | cons {t t' t'' : T} {b : UInt8} {bs : List UInt8}
      (h : ∀ buf : List UInt8, buf.length = 1 →
        ∃ n, Transport.read t buf = ((.ok (n + 1), [b]), t'))
      (rest : Delivers t' bs t'') : Delivers t (b :: bs) t''

/-- The next read delivers nothing: it returns zero, or an error. -/
inductive Stops : T → Error ε → T → Prop where
  | timeout {t t' : T}
      (h : ∀ buf : List UInt8, buf.length = 1 →
        ∃ buf', Transport.read t buf = ((.ok 0, buf'), t')) : Stops t .timeout t'
  | transport {t t' : T} {e : ε}
      (h : ∀ buf : List UInt8, buf.length = 1 →
        ∃ buf', Transport.read t buf = ((.error e, buf'), t')) : Stops t (.transport e) t'

theorem Delivers.append {t t' t'' : T} {xs ys : List UInt8} (h : Delivers t xs t')
    (h' : Delivers t' ys t'') : Delivers t (xs ++ ys) t'' := by
  induction h with
  | nil => exact h'
  | cons hb _ ih => exact .cons hb (ih h')

theorem Delivers.split {t t'' : T} {xs ys : List UInt8} (h : Delivers t (xs ++ ys) t'') :
    ∃ t', Delivers t xs t' ∧ Delivers t' ys t'' := by
  induction xs generalizing t with
  | nil => exact ⟨t, .nil t, h⟩
  | cons b xs ih =>
      cases h with
      | cons hb rest =>
          obtain ⟨t', hx, hy⟩ := ih rest
          exact ⟨t', .cons hb hx, hy⟩

/-- With the unfinished line `l`, and `q` heard since the last terminator,
a listener for `sent` ends up having heard `h`. -/
def Listens (sent : List UInt8) (t : T) (l q : List UInt8) (h : Heard T ε) : Prop :=
  ∀ byte : List UInt8, byte.length = 1 → Halts (Listener.step sent) ⟨t, byte, l, q⟩ h

variable {sent l q : List UInt8} {t t' : T} {h : Heard T ε} {b : UInt8}

/-- **Bytes of a line** go into the unfinished line and are heard. -/
theorem listens_open {L : List UInt8} (hL : Open isTerminator L) (hd : Delivers t L t')
    (hrest : Listens sent t' (run isTerminator maxFrame l L).2 (q ++ L) h) :
    Listens sent t l q h := by
  induction L generalizing t l q with
  | nil =>
      cases hd
      rwa [List.append_nil] at hrest
  | cons b L ih =>
      obtain ⟨hb, hL⟩ := open_cons.mp hL
      cases hd with
      | @cons _ t₁ _ _ _ hread rest =>
          intro byte hbyte
          obtain ⟨n, hn⟩ := hread byte hbyte
          have hstep : Listener.step sent ⟨t, byte, l, q⟩
              = .inl ⟨t₁, [b], (step isTerminator maxFrame l b).2, q ++ [b]⟩ := by
            simp only [Listener.step, hn, List.headD_cons, hb, Bool.false_eq_true, if_false]
          refine (halts_inl hstep).mpr (ih hL rest ?_ [b] rfl)
          rwa [List.append_assoc]

/-- **An echo** is skipped, and the listener is as at the start. -/
theorem listens_echo (hb : isTerminator b = true) (hd : Delivers t [b] t') (hq : q = sent)
    (hrest : Listens sent t' [] [] h) : Listens sent t l q h := by
  cases hd with
  | cons hread rest =>
      cases rest
      intro byte hbyte
      obtain ⟨n, hn⟩ := hread byte hbyte
      refine (halts_inl ?_).mpr (hrest [b] rfl)
      simp only [Listener.step, hn, List.headD_cons, hb, hq, if_true]

/-- **Any other line** is the answer: what the parser held of it is
decoded. -/
theorem listens_answer (hb : isTerminator b = true) (hd : Delivers t [b] t') (hq : q ≠ sent) :
    Listens sent t l q ⟨(readResponse l).mapError .parse, t', []⟩ := by
  cases hd with
  | cons hread rest =>
      cases rest
      intro byte hbyte
      obtain ⟨n, hn⟩ := hread byte hbyte
      refine (halts_inr ?_).mpr rfl
      simp only [Listener.step, hn, List.headD_cons, hb, hq, if_true, if_false]

/-- **Without a byte** the send fails, and the unfinished line stays. -/
theorem listens_stop {err : Error ε} (hs : Stops t err t') :
    Listens sent t l q ⟨.error err, t', l⟩ := by
  intro byte hbyte
  cases hs with
  | timeout hread =>
      obtain ⟨buf', hn⟩ := hread byte hbyte
      refine (halts_inr ?_).mpr rfl
      simp only [Listener.step, hn]
  | transport hread =>
      obtain ⟨buf', hn⟩ := hread byte hbyte
      refine (halts_inr ?_).mpr rfl
      simp only [Listener.step, hn]

/-- The first line after the echoes: what is decoded is what it leaves in
the parser. -/
theorem listens_line {L : List UInt8} (hL : Open isTerminator L) (hb : isTerminator b = true)
    (hd : Delivers t (L ++ [b]) t') (hne : L ≠ sent) :
    Listens sent t l []
      ⟨(readResponse (run isTerminator maxFrame l L).2).mapError .parse, t', []⟩ := by
  obtain ⟨t₁, hd₁, hd₂⟩ := hd.split
  refine listens_open hL hd₁ ?_
  rw [List.nil_append]
  exact listens_answer hb hd₂ hne

/-- Any number of echoes, each with its terminator. -/
theorem listens_echoes (ts : List UInt8) (hsent : Open isTerminator sent)
    (hts : ∀ b ∈ ts, isTerminator b = true)
    (hd : Delivers t (ts.flatMap fun b => sent ++ [b]) t')
    (hrest : Listens sent t' [] [] h) : Listens sent t [] [] h := by
  induction ts generalizing t with
  | nil =>
      cases hd
      exact hrest
  | cons b ts ih =>
      rw [List.flatMap_cons] at hd
      obtain ⟨t₁, hd₁, hd₂⟩ := hd.split
      obtain ⟨t₂, hd₃, hd₄⟩ := hd₁.split
      refine listens_open hsent hd₃ ?_
      refine listens_echo (hts b (by simp)) hd₄ (List.nil_append _) ?_
      exact ih (fun c hc => hts c (by simp [hc])) hd₂

/-- A send on a transport that accepts the write. -/
theorem sends_of_listens {c : Command} (hc : c.Accepted) (s : Session T) {t : T}
    (hw : Transport.write s.transport (c.payload ++ [byte '\r']) = (.ok (), t))
    (hl : s.parser.Holds l) (hh : Listens c.payload t l [] h) :
    ∃ s', s.Sends c h.result s' ∧ s'.transport = h.transport ∧ s'.parser.Holds h.pending :=
  halts_sends hc hw hl (hh [0] rfl)

end Easycom
