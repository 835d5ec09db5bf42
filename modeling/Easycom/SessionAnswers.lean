import Easycom.SessionLines

/-!
# Easycom — SessionAnswers

One answer to one command, on a transport of any kind: the line is decoded
from its residue in the parser (`sends_line`). Two questions follow. When
does the residue of an overlong line pass for an answer
(`overlong_response_iff`), and can an answer be taken for an echo of the
command (`Response.payload_ne_payload`, `send_answer`)?
-/

namespace Easycom

open Rust Stream

variable {T ε : Type} [Transport T ε]

/-- **The answer to a command** is the first line after its echoes. -/
theorem sends_line {c : Command} (hc : c.Accepted) (s : Session T)
    (hempty : s.parser.Holds []) {t₁ t₂ : T} (ts : List UInt8) {L : List UInt8} {b : UInt8}
    (hw : Transport.write s.transport (c.payload ++ [byte '\r']) = (.ok (), t₁))
    (hts : ∀ b ∈ ts, isTerminator b = true) (hL : Open isTerminator L)
    (hb : isTerminator b = true) (hne : L ≠ c.payload)
    (hd : Delivers t₁ ((ts.flatMap fun b => c.payload ++ [b]) ++ (L ++ [b])) t₂) :
    ∃ s', s.Sends c ((readResponse (residue maxFrame L)).mapError .parse) s' ∧
      s'.transport = t₂ ∧ s'.parser.Holds [] := by
  obtain ⟨t, hd₁, hd₂⟩ := hd.split
  have hline := listens_line (l := []) (ε := ε) hL hb hd₂ hne
  rw [run_open hL] at hline
  exact sends_of_listens hc s hw hempty
    (listens_echoes ts c.payload_plain.is_open hts hd₁ hline)

/-! ## Overlong answers -/

/-- **When an overlong answer is an error.** The 65th byte of a line, and
every 65th after it, empties the parser, and the error it signals there is
dropped; the bytes after the last such byte are decoded at the terminator.
The send fails exactly when these bytes spell no response. -/
theorem overlong_response_iff (c : Command) (hc : c.Accepted) (t t₁ t₂ : T)
    (ts L : List UInt8) (b : UInt8)
    (hw : Transport.write t (c.payload ++ [byte '\r']) = (.ok (), t₁))
    (hts : ∀ b ∈ ts, isTerminator b = true) (hL : Open isTerminator L)
    (hlong : maxFrame < L.length) (hb : isTerminator b = true)
    (hd : Delivers t₁ ((ts.flatMap fun b => c.payload ++ [b]) ++ (L ++ [b])) t₂) :
    (∃ p s', (Session.new t).Sends c (.error (.parse p)) s') ↔
      ¬ ∃ r, L.drop (L.length / (maxFrame + 1) * (maxFrame + 1)) ≠ [] ∧
        FrameText (L.drop (L.length / (maxFrame + 1) * (maxFrame + 1))) r := by
  have hne : L ≠ c.payload := by
    intro h
    have := c.payload_length_le
    rw [h, maxFrame] at hlong
    omega
  obtain ⟨s₁, hsends, -, -⟩ := sends_line hc (Session.new t) Parser.new_holds ts hw hts hL hb hne hd
  have hopen : Open isTerminator (residue maxFrame L) := fun a ha =>
    hL a (List.mem_of_mem_drop ha)
  show _ ↔ ¬ ∃ r, residue maxFrame L ≠ [] ∧ FrameText (residue maxFrame L) r
  simp only [← readResponse_line hopen]
  cases hr : readResponse (residue maxFrame L) with
  | ok r =>
      rw [hr] at hsends
      constructor
      · intro h
        obtain ⟨p, s', hs'⟩ := h
        exact absurd (hs'.unique hsends).1 (by rintro ⟨⟩)
      · intro h
        exact absurd ⟨r, rfl⟩ h
  | error p =>
      rw [hr] at hsends
      constructor
      · intro _ h
        obtain ⟨r, hr'⟩ := h
        cases hr'
      · intro _
        exact ⟨p, s₁, hsends⟩

/-- The criterion on an echo and seventy bytes of noise. -/
theorem overlong_response_iff_seventy :
    (∃ p s', (Session.new (⟨[], [bytes "S\r" ++ List.replicate 70 (byte 'x') ++ bytes "\n"],
        none, []⟩ : Scripted Empty)).Sends .stop (.error (.parse p)) s') ↔
      ¬ ∃ r, (List.replicate 70 (byte 'x')).drop
          ((List.replicate 70 (byte 'x')).length / (maxFrame + 1) * (maxFrame + 1)) ≠ [] ∧
        FrameText ((List.replicate 70 (byte 'x')).drop
          ((List.replicate 70 (byte 'x')).length / (maxFrame + 1) * (maxFrame + 1))) r := by
  have hd := Scripted.delivers (ε := Empty)
    (bytes "S\r" ++ List.replicate 70 (byte 'x') ++ bytes "\n") [] [] none
    [.write (bytes "S\r")]
  exact overlong_response_iff .stop trivial _ _ _ [byte '\r'] _ (byte '\n') rfl
    (List.forall_mem_singleton.mpr rfl) (by decide) (by decide) (by decide) hd

/-- Sixty-five bytes of noise and a `+`: the send reports success. -/
theorem overlong_response_accepted :
    Open isTerminator (List.replicate 65 (byte 'x') ++ bytes "+") ∧
    maxFrame < (List.replicate 65 (byte 'x') ++ bytes "+").length ∧
    (∃ t', Delivers (Transport.write (⟨[], [List.replicate 65 (byte 'x') ++ bytes "+\r"], none,
        []⟩ : Scripted Empty) (bytes "S\r")).2
      (List.replicate 65 (byte 'x') ++ bytes "+" ++ [byte '\r']) t') ∧
    (∃ s', (Session.new (⟨[], [List.replicate 65 (byte 'x') ++ bytes "+\r"], none,
        []⟩ : Scripted Empty)).Sends .stop (.ok .ack) s') ∧
    ¬ ∃ p s', (Session.new (⟨[], [List.replicate 65 (byte 'x') ++ bytes "+\r"], none,
        []⟩ : Scripted Empty)).Sends .stop (.error (.parse p)) s' := by
  have hd := Scripted.delivers (ε := Empty)
    (List.replicate 65 (byte 'x') ++ bytes "+" ++ [byte '\r']) [] [] none
    [.write (bytes "S\r")]
  have hline := sends_line (c := .stop) trivial
    (Session.new (⟨[], [List.replicate 65 (byte 'x') ++ bytes "+\r"], none, []⟩ : Scripted Empty))
    Parser.new_holds [] rfl (by simp)
    (L := List.replicate 65 (byte 'x') ++ bytes "+") (by decide) (by decide) (by decide) hd
  obtain ⟨s', hs', -, -⟩ := hline
  have hack : readResponse (residue maxFrame (List.replicate 65 (byte 'x') ++ bytes "+"))
      = .ok .ack := by decide
  rw [hack] at hs'
  refine ⟨by decide, by decide, ⟨_, hd⟩, ⟨s', hs'⟩, ?_⟩
  intro h
  obtain ⟨p, s₁, hs₁⟩ := h
  exact absurd (hs₁.unique hs').1 (by rintro ⟨⟩)

/-! ## Answers and echoes -/

/-- **No answer looks like a command**, but for the `?` that is both a
keep-alive and the answer of an error. -/
theorem Response.payload_ne_payload {r : Response} {c : Command}
    (h : ¬ (c = .keepAlive ∧ r = .error)) : r.payload ≠ c.payload := by
  have hmark : ∀ b, b = byte '=' ∨ b = byte '.' → b ∈ r.payload → r.payload ≠ c.payload := by
    intro b hb hmem heq
    exact c.not_mem_payload hb (heq ▸ hmem)
  have hdec : ∀ n, decimal n ≠ [] := fun n => (decimal_numeral n).ne_nil
  cases r with
  | position | status => exact hmark (byte '=') (.inl rfl) (by simp [payload, bytes])
  | azimuthPosition | elevationPosition =>
      exact hmark (byte '.') (.inr rfl) (by simp [payload, bytes])
  | ack => cases c <;> simp [payload, Command.payload, bytes, byte]
  | error =>
      cases c with
      | keepAlive => exact absurd ⟨rfl, rfl⟩ h
      | _ => simp [payload, Command.payload, bytes, byte]
  | statusRegister | errorRegister =>
      cases c <;> simp [payload, Command.payload, bytes, byte, hdec]
  | configValue reg val =>
      cases c with
      | readConfig reg' =>
          -- the comma ends the register of an answer, not that of a query
          intro heq
          have hcomma : byte ',' ∉ (Command.readConfig reg').payload := by
            simp only [Command.payload, List.mem_append, not_or]
            exact ⟨by decide, not_mem_decimal (by decide)⟩
          rw [← heq] at hcomma
          exact hcomma (by simp [payload, bytes])
      | _ => simp [payload, Command.payload, bytes, byte]

/-- The answer of a device, echoed or not, on a session whose parser is
empty. -/
theorem sends_answer {c : Command} (hc : c.Accepted) {r : Response} (hr : r.InRange)
    (hpair : ¬ (c = .keepAlive ∧ r = .error)) (s : Session T) (hempty : s.parser.Holds [])
    {t₁ t₂ : T} (ts : List UInt8) (hts : ∀ b ∈ ts, isTerminator b = true)
    (hw : Transport.write s.transport (c.payload ++ [byte '\r']) = (.ok (), t₁))
    (hd : Delivers t₁ ((ts.flatMap fun b => c.payload ++ [b]) ++ r.frame) t₂) :
    ∃ s', s.Sends c (.ok r) s' ∧ s'.transport = t₂ ∧ s'.parser.Holds [] := by
  have hline := sends_line hc s hempty ts hw hts r.payload_plain.is_open r.terminator_isTerminator
    (Response.payload_ne_payload hpair) hd
  have hlen := r.payload_length_le
  rwa [residue_of_le (by rw [maxFrame]; omega), readResponse_payload hr] at hline

/-- **Echo suppression swallows no answer** other than a device error to a
keep-alive: without an echo, what the device encodes is the answer. -/
theorem send_answer (c : Command) (hc : c.Accepted) (r : Response) (hr : r.InRange)
    (hpair : ¬ (c = .keepAlive ∧ r = .error)) (buf frame : List UInt8) (hroom : 32 ≤ buf.length)
    (hframe : r.sent buf = .ok frame) (t t₁ t₂ : T)
    (hw : Transport.write t (c.payload ++ [byte '\r']) = (.ok (), t₁))
    (hd : Delivers t₁ frame t₂) :
    ∃ s', (Session.new t).Sends c (.ok r) s' := by
  rw [Response.sent_eq hroom] at hframe
  cases hframe
  obtain ⟨s', hs', -, -⟩ :=
    sends_answer hc hr hpair (Session.new t) Parser.new_holds [] (by simp) hw hd
  exact ⟨s', hs'⟩

/-- The answer to a register query begins like the query. -/
theorem send_answer_register :
    ∃ s', (Session.new (MockTransport.new.enqueueResponse (bytes "GS65535\n"))).Sends
      .getStatusRegister (.ok (.statusRegister 65535)) s' :=
  send_answer .getStatusRegister trivial (.statusRegister 65535) trivial (by decide)
    (List.replicate 32 0) _ (by decide) (Response.sent_eq (by decide)) _ _ _ rfl
    (MockTransport.delivers (bytes "GS\r") (bytes "GS65535\n") [])

/-- A device error is the echo of a keep-alive: it is skipped, and the send
times out. -/
theorem error_answer_skipped :
    Command.Accepted .keepAlive ∧ Response.InRange .error ∧
    Response.sent .error (List.replicate 32 0) = .ok (bytes "?\r") ∧
    (∃ t', Delivers (Transport.write (⟨[], [bytes "?\r"], none, []⟩ : Scripted Empty)
      (Command.payload .keepAlive ++ [byte '\r'])).2 (bytes "?\r") t') ∧
    ¬ ∃ s', (Session.new (⟨[], [bytes "?\r"], none, []⟩ : Scripted Empty)).Sends
      .keepAlive (.ok .error) s' := by
  have hd := Scripted.delivers (ε := Empty) (bytes "?\r") [] [] none
    [.write (Command.payload .keepAlive ++ [byte '\r'])]
  refine ⟨trivial, trivial, Response.sent_eq (by decide), ⟨_, hd⟩, fun h => ?_⟩
  obtain ⟨s', hs'⟩ := h
  -- the whole reply is an echo, after which the transport is silent
  have hlisten : Listens (Command.payload .keepAlive) _ [] [] _ :=
    listens_echoes [byte '\r'] (by decide) (List.forall_mem_singleton.mpr rfl) hd
      (listens_stop (Scripted.stops [] none _))
  obtain ⟨s₁, hs₁, -, -⟩ := sends_of_listens (c := .keepAlive) trivial
    (Session.new (⟨[], [bytes "?\r"], none, []⟩ : Scripted Empty)) rfl
    Parser.new_holds hlisten
  exact absurd (hs'.unique hs₁).1 (by rintro ⟨⟩)

end Easycom
