import Easycom.ResponseChecksum
import Easycom.SessionAnswers

/-!
# Easycom — CommandEcho

The languages of commands and of responses share the letters `AZ`, `EL`,
`GS`, `GE` and `CR`, and a device may echo what it is sent. No frame of a
command but the keep-alive spells a response
(`Command.payload_not_response`), so that an echo a session does not skip
is an error to it, never an answer (`echo_never_answer`).
-/

namespace Easycom

open Rust Stream

/-- **No command spells a response**, but for the keep-alive. -/
theorem Command.payload_not_response {c : Command} (hne : c ≠ .keepAlive) (r : Response) :
    ¬ ResponseText c.payload r := by
  intro h
  have hequals : byte '=' ∉ c.payload := c.not_mem_payload (.inl rfl)
  have hno : ∀ az el, ¬ PositionText c.payload az el := by
    intro az el hpos
    exact hequals hpos.equals_mem
  rcases h.cases_label hno with hshort | ⟨s, hs, _, -, haxis⟩ | ⟨s, hs, _, -, haxis⟩
    | ⟨st, hst, -⟩ | ⟨s, hs, _, -, hval⟩ | ⟨s, hs, _, -, hval⟩ | ⟨s, hs, _, _, -, hreg⟩
  · revert hshort
    cases c <;> simp [payload, bytes, byte] at hne ⊢
  -- `A` has digits behind it and `AZ` nothing
  · cases c with
    | azimuth az => exact digits3_ne_cons (by decide) _ _ (List.append_cancel_left hs)
    | queryAzimuth => exact haxis.ne_nil (List.self_eq_append_right.mp hs)
    | _ => simp [payload, bytes, byte] at hs
  · cases c with
    | elevation el => exact digits3_ne_cons (by decide) _ _ (List.append_cancel_left hs)
    | queryElevation => exact haxis.ne_nil (List.self_eq_append_right.mp hs)
    | _ => simp [payload, bytes, byte] at hs
  · rw [hst] at hequals
    exact hequals (by simp [bytes])
  -- the queries of the two registers carry no value
  · cases c with
    | queryStatus | getStatusRegister => exact hval.ne_nil (List.self_eq_append_right.mp hs)
    | _ => simp [payload, bytes, byte] at hs
  · cases c with
    | getErrorRegister => exact hval.ne_nil (List.self_eq_append_right.mp hs)
    | _ => simp [payload, bytes, byte] at hs
  -- and that of a configuration register no comma
  · cases c with
    | readConfig reg =>
        have hdec : decimal reg.toNat = s := List.append_cancel_left hs
        have hcomma := hreg.comma_mem
        rw [← hdec] at hcomma
        exact not_mem_decimal (by decide) hcomma
    | _ => simp [payload, bytes, byte] at hs

/-! ## The line of an echo -/

/-- The line is the frame of a command without its CR. -/
def Echoes (L : List UInt8) (c : Command) : Prop := L = c.payload ∨ L = c.checkedPayload

variable {c : Command} {L : List UInt8}

theorem Echoes.open_line (h : Echoes L c) : Open isTerminator L := by
  rcases h with rfl | rfl
  · exact c.payload_plain.is_open
  · exact c.checkedPayload_open

theorem Echoes.ne_nil (h : Echoes L c) : L ≠ [] := by
  rcases h with rfl | rfl
  · exact c.payload_ne_nil
  · simp [Command.checkedPayload, c.payload_ne_nil]

theorem Echoes.fits (h : Echoes L c) : L.length ≤ maxFrame := by
  have hlen := c.payload_length_le
  rcases h with rfl | rfl
  · rw [maxFrame]
    omega
  · simp only [Command.checkedPayload, checksumSuffix, List.length_append, List.length_cons,
      List.length_nil, maxFrame]
    omega

theorem Echoes.decode_eq (h : Echoes L c) (hne : c ≠ .keepAlive) :
    decode (L ++ [byte '\r']) = .ok (.error .unknownCommand) := by
  have hplain : decode (c.payload ++ [byte '\r']) = .ok (.error .unknownCommand) := by
    rw [decode_plain_line c.payload_plain (by decide)]
    exact decodePayload_unknown (Command.payload_not_response hne)
  rcases h with rfl | rfl
  · exact hplain
  · -- the checksum is right and is cut
    have hsum := hexByte_suffix (xorChecksum c.payload)
    rw [← hplain]
    exact decode_right_digits c.payload_plain hsum (by decide)

theorem Echoes.readResponse_eq (h : Echoes L c) (hne : c ≠ .keepAlive) :
    readResponse L = .error .unknownCommand := by
  have hd := decode_eq_read L
  rw [Easycom.decode_eq h.ne_nil, rdropWhile_line h.open_line,
    ← decode_line (t := byte '\r') h.open_line (by decide), h.decode_eq hne] at hd
  exact (Except.ok.inj hd).symm

/-! ## Echoes and sessions -/

variable {T ε : Type} [Transport T ε]

/-- **An echo is never mistaken for an answer.** The frame of a command,
written with a checksum or without, is an unknown command to the response
decoder, and a session that receives it in place of the echo it skips
fails with that error. -/
theorem echo_never_answer (c : Command) (hc : c.Accepted) (hne : c ≠ .keepAlive)
    (buf buf' : List UInt8) (hroom : 20 ≤ buf.length) (hroom' : 23 ≤ buf'.length) :
    ∃ n out n' out', encodeInto c buf = .ok (.ok n, out) ∧
      encodeWithChecksum c buf' = .ok (.ok n', out') ∧
      ∀ echo, echo = out.take n ∨ echo = out'.take n' →
        decode echo = .ok (.error .unknownCommand) ∧
        ∀ (sent : Command) (t t₁ t₂ : T), sent.Accepted →
          Transport.write t (sent.payload ++ [byte '\r']) = (.ok (), t₁) →
          Delivers t₁ echo t₂ → echo ≠ sent.payload ++ [byte '\r'] →
          ∃ s', (Session.new t).Sends sent (.error (.parse .unknownCommand)) s' := by
  refine ⟨_, _, _, _, encodeInto_accepted hc hroom, encodeWithChecksum_accepted hc hroom', ?_⟩
  rw [take_filled_concat, take_filled_concat]
  intro echo hecho
  obtain ⟨L, hL, rfl⟩ : ∃ L, Echoes L c ∧ echo = L ++ [byte '\r'] := by
    rcases hecho with rfl | rfl
    · exact ⟨_, .inl rfl, rfl⟩
    · exact ⟨_, .inr rfl, rfl⟩
  refine ⟨hL.decode_eq hne, ?_⟩
  intro sent t t₁ t₂ hsent hw hd hdiff
  have hother : L ≠ sent.payload := by
    intro h
    exact hdiff (by rw [h])
  obtain ⟨s', hs', -, -⟩ := sends_line hsent (Session.new t) Parser.new_holds [] hw (by simp)
    hL.open_line (by decide) hother hd
  rw [residue_of_le hL.fits, hL.readResponse_eq hne] at hs'
  exact ⟨s', hs'⟩

/-- A device that echoes with a checksum. -/
theorem echo_never_answer_checked :
    ∃ n out, encodeWithChecksum (.readConfig 5) (List.replicate 23 0) = .ok (.ok n, out) ∧
      decode (out.take n) = .ok (.error .unknownCommand) ∧
      ∃ s', (Session.new (⟨[], [out.take n], none, []⟩ : Scripted Empty)).Sends
        (.readConfig 5) (.error (.parse .unknownCommand)) s' := by
  obtain ⟨_, _, n, out, -, hn, hall⟩ := echo_never_answer (T := Scripted Empty) (.readConfig 5)
    trivial (by decide) (List.replicate 20 0) (List.replicate 23 0) (by decide) (by decide)
  obtain ⟨hdec, hsends⟩ := hall _ (.inr rfl)
  have hd := Scripted.delivers (ε := Empty) (out.take n) [] [] none [.write (bytes "CR5\r")]
  rw [List.append_nil] at hd
  refine ⟨n, out, hn, hdec, hsends (.readConfig 5) _ _ _ trivial rfl hd ?_⟩
  rw [encodeWithChecksum_accepted (c := .readConfig 5) trivial (by decide)] at hn
  cases hn
  rw [take_filled_concat]
  decide

end Easycom
