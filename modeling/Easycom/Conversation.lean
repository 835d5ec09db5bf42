import Easycom.SessionAnswers

/-!
# Easycom — Conversation

Sends one after the other (`SendAll`), each starting where the one before
it stopped reading. With a device that ends its lines by CR LF a session is
in step for one send without an echo, and no longer
(`crlf_in_step_iff`): the CR ends the exchange, and the LF is left for the
next one, where it is a line of its own.
-/

namespace Easycom

open Rust Stream

variable {T ε : Type} [Transport T ε]

/-! ## Several sends -/

/-- The sends of a list of commands, with their results. -/
inductive SendAll : Session T → List (Command × Except (Error ε) Response) → Session T → Prop where
  | nil (s : Session T) : SendAll s [] s
  | cons {s s' s'' : Session T} {c : Command} {r : Except (Error ε) Response}
      {rs : List (Command × Except (Error ε) Response)}
      (h : s.Sends c r s') (rest : SendAll s' rs s'') : SendAll s ((c, r) :: rs) s''

/-! ## Lines ended by CR LF -/

/-- A command, whether the device echoes it, and the line it answers. -/
structure CrLfExchange where
  command : Command
  echoed : Bool
  line : List UInt8

/-- What the device sends after the command. -/
def CrLfExchange.reply (x : CrLfExchange) : List UInt8 :=
  (if x.echoed then x.command.payload ++ bytes "\r\n" else []) ++ x.line ++ bytes "\r\n"

/-- The command is accepted, and the line an answer that fits. -/
structure CrLfExchange.Valid (x : CrLfExchange) : Prop where
  accepted : x.command.Accepted
  line_ne_nil : x.line ≠ []
  is_open : Open isTerminator x.line
  fits : x.line.length ≤ maxFrame
  ne_echo : x.line ≠ x.command.payload

/-- The result of a send that gets the line. -/
def CrLfExchange.result (x : CrLfExchange) : Except (Error ε) Response :=
  (readResponse x.line).mapError .parse

/-- A device of the exchanges still to come, with bytes already sent. -/
def crLfDevice (ending : Option ε) (rx : List UInt8) (xs : List CrLfExchange)
    (calls : List Call) : Scripted ε :=
  ⟨rx, xs.map CrLfExchange.reply, ending, calls⟩

/-- A stray LF is read as an empty answer, which no valid line gives. -/
theorem stray_lf {x : CrLfExchange} (hx : x.Valid) (s : Session T) (hempty : s.parser.Holds [])
    {t₁ t₂ : T} (ts : List UInt8) (hts : ∀ b ∈ ts, isTerminator b = true)
    (hw : Transport.write s.transport (x.command.payload ++ [byte '\r']) = (.ok (), t₁))
    (hd : Delivers t₁ ((ts.flatMap fun b => x.command.payload ++ [b]) ++ ([] ++ [byte '\n'])) t₂) :
    ¬ ∃ s', s.Sends x.command x.result s' := by
  intro h
  obtain ⟨s', hs'⟩ := h
  obtain ⟨s₁, hs₁, -, -⟩ := sends_line hx.accepted s hempty ts hw hts open_nil (by decide)
    x.command.payload_ne_nil.symm hd
  have hresult := (hs'.unique hs₁).1
  rw [residue_of_le (by simp)] at hresult
  exact hx.line_ne_nil
    (answer_eq_unexpectedEof.mp (hresult.trans (answer_eq_unexpectedEof.mpr rfl)))

/-- Without an echo the first line is the answer, and its LF stays. -/
theorem first_line {x : CrLfExchange} (hx : x.Valid) (hecho : x.echoed = false)
    (xs : List CrLfExchange) (ending : Option ε) :
    ∃ s', (Session.new (crLfDevice ending [] (x :: xs) [])).Sends x.command x.result s' ∧
      (∃ calls, s'.transport = crLfDevice ending (bytes "\n") xs calls) ∧
      s'.parser.Holds [] := by
  have hreply : x.reply = (x.line ++ [byte '\r']) ++ bytes "\n" := by
    rw [CrLfExchange.reply, hecho]
    simp [bytes]
  have hd := Scripted.delivers (ε := ε) (x.line ++ [byte '\r']) (bytes "\n")
    (xs.map CrLfExchange.reply) ending [.write (x.command.payload ++ [byte '\r'])]
  obtain ⟨s', hs', ht, hp⟩ := sends_line hx.accepted
    (Session.new (crLfDevice ending [] (x :: xs) [])) Parser.new_holds []
    (by rw [← hreply]; rfl) (by simp) hx.is_open rfl hx.ne_echo hd
  rw [residue_of_le hx.fits] at hs'
  exact ⟨s', hs', ⟨_, ht⟩, hp⟩

/-- After an echo, the LF of the echo is the answer. -/
theorem echo_out_of_step {x : CrLfExchange} (hx : x.Valid) (hecho : x.echoed = true)
    (xs : List CrLfExchange) (ending : Option ε) :
    ¬ ∃ s', (Session.new (crLfDevice ending [] (x :: xs) [])).Sends x.command x.result s' := by
  have hreply : x.reply = (x.command.payload ++ bytes "\r\n") ++ (x.line ++ bytes "\r\n") := by
    rw [CrLfExchange.reply, hecho]
    simp
  have hstray : x.command.payload ++ bytes "\r\n"
      = ([byte '\r'].flatMap fun b => x.command.payload ++ [b]) ++ ([] ++ [byte '\n']) := by
    simp [bytes]
  have hd := Scripted.delivers (ε := ε) (x.command.payload ++ bytes "\r\n")
    (x.line ++ bytes "\r\n") (xs.map CrLfExchange.reply) ending
    [.write (x.command.payload ++ [byte '\r'])]
  rw [← hreply] at hd
  exact stray_lf hx _ Parser.new_holds [byte '\r'] (List.forall_mem_singleton.mpr rfl) rfl
    (hstray ▸ hd)

/-- In the next exchange, the LF of the last one is the answer. -/
theorem next_out_of_step {x : CrLfExchange} (hx : x.Valid) (xs : List CrLfExchange)
    (ending : Option ε) (calls : List Call) {s : Session (Scripted ε)}
    (hs : s.transport = crLfDevice ending (bytes "\n") (x :: xs) calls)
    (hempty : s.parser.Holds []) : ¬ ∃ s', s.Sends x.command x.result s' := by
  have hd := Scripted.delivers (ε := ε) (bytes "\n") x.reply (xs.map CrLfExchange.reply) ending
    (calls ++ [.write (x.command.payload ++ [byte '\r'])])
  exact stray_lf hx s hempty [] (by simp) (by rw [hs]; rfl) hd

/-- **When a session is in step** with a device that ends its lines by CR
LF: for a single send, without an echo. -/
theorem crlf_in_step_iff (xs : List CrLfExchange) (hvalid : ∀ x ∈ xs, x.Valid)
    (ending : Option ε) :
    (∃ s', SendAll (Session.new (crLfDevice ending [] xs []))
        (xs.map fun x => (x.command, x.result)) s') ↔
      xs = [] ∨ ∃ x, xs = [x] ∧ x.echoed = false := by
  constructor
  · intro h
    obtain ⟨s', h⟩ := h
    cases xs with
    | nil => exact .inl rfl
    | cons x xs =>
        have hx := hvalid x (by simp)
        cases h with
        | @cons _ s₁ _ _ _ _ hsend hrest =>
        cases hecho : x.echoed with
        | true => exact absurd ⟨s₁, hsend⟩ (echo_out_of_step hx hecho xs ending)
        | false =>
            cases xs with
            | nil => exact .inr ⟨x, rfl, hecho⟩
            | cons y xs =>
                -- the second send starts at the LF of the first answer
                obtain ⟨s₂, hs₂, ⟨calls, ht⟩, hp⟩ := first_line hx hecho (y :: xs) ending
                obtain ⟨-, rfl⟩ := hsend.unique hs₂
                cases hrest with
                | @cons _ s₃ _ _ _ _ hnext _ =>
                    exact absurd ⟨s₃, hnext⟩
                      (next_out_of_step (hvalid y (by simp)) xs ending calls ht hp)
  · intro h
    obtain rfl | ⟨x, rfl, hecho⟩ := h
    · exact ⟨_, .nil _⟩
    · obtain ⟨s', hs', -, -⟩ := first_line (hvalid x (by simp)) hecho [] ending
      exact ⟨s', .cons hs' (.nil _)⟩

/-- One stop, answered by `+` CR LF. -/
theorem crlf_in_step_iff_stop :
    (∃ s', SendAll (Session.new (crLfDevice (ε := Empty) none [] [⟨.stop, false, bytes "+"⟩] []))
        ([⟨.stop, false, bytes "+"⟩].map fun x : CrLfExchange => (x.command, x.result)) s') ↔
      [(⟨.stop, false, bytes "+"⟩ : CrLfExchange)] = [] ∨
        ∃ x, [(⟨.stop, false, bytes "+"⟩ : CrLfExchange)] = [x] ∧ x.echoed = false := by
  refine crlf_in_step_iff _ (fun x hx => ?_) none
  rw [List.mem_singleton.mp hx]
  exact ⟨trivial, by decide, by decide, by decide, by decide⟩

/-- Two stops, each answered by `+` CR LF: the second send fails. -/
theorem crlf_out_of_step :
    (∀ x ∈ List.replicate 2 (⟨.stop, false, bytes "+"⟩ : CrLfExchange), x.Valid) ∧
    ¬ ∃ s', SendAll (Session.new
        (⟨[], List.replicate 2 (bytes "+\r\n"), none, []⟩ : Scripted Empty))
      (List.replicate 2 (.stop, .ok .ack)) s' := by
  have hvalid : (⟨.stop, false, bytes "+"⟩ : CrLfExchange).Valid :=
    ⟨trivial, by decide, by decide, by decide, by decide⟩
  refine ⟨fun x hx => (List.eq_of_mem_replicate hx) ▸ hvalid, fun h => ?_⟩
  obtain ⟨s', h⟩ := h
  obtain ⟨s₁, hs₁, ⟨calls, ht⟩, hp⟩ :=
    @first_line Empty _ hvalid rfl [⟨.stop, false, bytes "+"⟩] none
  cases h with
  | cons hsend hrest =>
      obtain ⟨-, rfl⟩ := hsend.unique hs₁
      cases hrest with
      | @cons _ s₃ _ _ _ _ hnext _ => exact next_out_of_step hvalid [] none calls ht hp ⟨s₃, hnext⟩

end Easycom
