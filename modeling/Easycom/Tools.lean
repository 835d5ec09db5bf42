import Easycom.Console

/-!
# Easycom — Tools

The two programs of `examples/` that need no input. `tcp_poll` asks for the
position until a send fails (`poll_run`); `serial_home` stops the rotator,
sends it to its home position and asks where it is, whatever the answers
are (`home_obtained`).
-/

namespace Easycom

open Rust Stream

variable {T ε : Type} [Transport T ε]

/-- `Debug` of a response. -/
def Response.debug : Response → String
  | .ack => "Ack"
  | .position az el =>
      "Position \x7b az: " ++ toString az.toNat ++ ", el: " ++ toString el.toNat ++ " \x7d"
  | .azimuthPosition az => "AzimuthPosition(" ++ toString az.toNat ++ ")"
  | .elevationPosition el => "ElevationPosition(" ++ toString el.toNat ++ ")"
  | .status st => "Status(" ++ st.debug ++ ")"
  | .statusRegister val => "StatusRegister(" ++ toString val.toNat ++ ")"
  | .errorRegister val => "ErrorRegister(" ++ toString val.toNat ++ ")"
  | .configValue register value =>
      "ConfigValue \x7b register: " ++ toString register.toNat ++ ", value: "
        ++ toString value.toInt ++ " \x7d"
  | .error => "Error"

/-! ## Polling -/

/-- What `tcp_poll` prints for one answer. -/
def pollPrint (display : ε → String) : Except (Error ε) Response → Print
  | .ok (.position az el) => .out ("AZ=" ++ pad3 az.toNat ++ "  EL=" ++ pad3 el.toNat ++ "\n")
  | .ok .error => .err "Device error\n"
  | .ok other => .err ("Unexpected: " ++ other.debug ++ "\n")
  | .error e => .err ("Error: " ++ e.display display ++ "\n")

/-- The loop of `tcp_poll`, for `n` rounds: whether it has been left. -/
def poll (display : ε → String) : Nat → Client ε Print Bool
  | 0 => .done false
  | n + 1 =>
      .call .queryPosition fun result =>
        .print (pollPrint display result)
          (match result with
          | .ok _ => poll display n
          | .error _ => .done true)

/-- The results up to the first error. -/
def untilError {δ α : Type} : List (Except δ α) → List (Except δ α)
  | [] => []
  | .ok a :: rs => .ok a :: untilError rs
  | .error e :: _ => [.error e]

theorem take_untilError {δ α : Type} {e : δ} (rs : List (Except δ α)) (n : Nat) :
    (untilError (.error e :: rs)).take (n + 1) = [.error e] := by simp [untilError]

theorem poll_makes (display : ε → String) {rs : List (Except (Error ε) Response)} {e : Error ε}
    (he : .error e ∈ rs) (n : Nat) :
    (poll display n).Makes (((untilError rs).take n).map fun r => (.queryPosition, r))
      (((untilError rs).take n).map (pollPrint display))
      (decide ((untilError rs).length ≤ n)) := by
  induction n generalizing rs with
  | zero =>
      have hlen : ¬ (untilError rs).length ≤ 0 := by
        cases rs with
        | nil => cases he
        | cons r rs => cases r <;> simp [untilError]
      rw [decide_eq_false hlen]
      exact .done false
  | succ n ih =>
      cases rs with
      | nil => cases he
      | cons r rs =>
          cases r with
          | error e' =>
              rw [take_untilError, decide_eq_true (show _ ≤ _ by simp [untilError])]
              exact .call (.print (.done true))
          | ok a =>
              have hrest := ih (show .error e ∈ rs by simpa using he)
              have hlen : (untilError (.ok a :: rs)).length ≤ n + 1 ↔ (untilError rs).length ≤ n := by
                simp [untilError]
              rw [decide_eq_decide.mpr hlen]
              exact .call (.print hrest)

/-- What sends return on lines, and then on silence or an error. -/
def resultsOf (lines : List (List UInt8)) (ending : Option ε) :
    List (Except (Error ε) Response) :=
  (lines.map fun l => (readResponse l).mapError .parse) ++ [.error (Scripted.failure ending)]

/-- The frames handed to `write`, one after the other. -/
def handed (calls : List Call) : List UInt8 :=
  calls.flatMap fun
    | .write frame => frame
    | .read => []

/-- A line that is an answer to the query of the position. -/
structure PollLine (l : List UInt8) : Prop where
  is_open : Open isTerminator l
  fits : l.length ≤ maxFrame
  ne_echo : l ≠ Command.payload .queryPosition

theorem sendAll_lines {lines : List (List UInt8)} (hlines : ∀ l ∈ lines, PollLine l) {t : UInt8}
    (ht : isTerminator t = true) (ending : Option ε) (n : Nat) {s : Session (Scripted ε)}
    {calls : List Call} (hs : s.transport = ⟨[], lines.map (· ++ [t]), ending, calls⟩)
    (hp : s.parser.Holds []) :
    ∃ s', SendAll s (((untilError (resultsOf lines ending)).take n).map fun r =>
        (.queryPosition, r)) s' ∧
      handed s'.transport.calls = handed calls ++
        ((untilError (resultsOf lines ending)).take n).flatMap fun _ => bytes "C\r" := by
  have hhanded : ∀ (calls : List Call) (k : Nat),
      handed (calls ++ [.write (bytes "C\r")] ++ List.replicate k .read)
        = handed calls ++ bytes "C\r" := by
    intro calls k
    simp [handed]
  induction n generalizing lines s calls with
  | zero => exact ⟨s, .nil s, by simp [hs]⟩
  | succ n ih =>
      cases lines with
      | nil =>
          -- nothing comes: the send fails as the port does
          obtain ⟨s', hsend, ht', -⟩ := sends_of_listens (c := .queryPosition) trivial s
            (t := ⟨[], [], ending, calls ++ [.write (bytes "C\r")]⟩) (by rw [hs]; rfl) hp
            (listens_stop (Scripted.stops [] ending _))
          refine ⟨s', ?_, ?_⟩
          · rw [resultsOf, List.map_nil, List.nil_append, take_untilError]
            exact .cons hsend (.nil s')
          · rw [resultsOf, List.map_nil, List.nil_append, take_untilError, ht']
            exact hhanded _ 1
      | cons l lines =>
          obtain ⟨hopen, hfits, hne⟩ := hlines l (by simp)
          have hd := Scripted.delivers (ε := ε) (l ++ [t]) [] (lines.map (· ++ [t])) ending
            (calls ++ [.write (bytes "C\r")])
          rw [List.append_nil] at hd
          obtain ⟨s₁, hsend, ht₁, hp₁⟩ := sends_line (c := .queryPosition) trivial s hp []
            (by rw [hs]; rfl) (by simp) hopen ht hne hd
          rw [residue_of_le hfits] at hsend
          have hcons : resultsOf (l :: lines) ending
              = (readResponse l).mapError .parse :: resultsOf lines ending := rfl
          rw [hcons]
          cases hl : readResponse l with
          | error p =>
              rw [hl] at hsend
              refine ⟨s₁, ?_, ?_⟩
              · rw [Except.mapError, take_untilError]
                exact .cons hsend (.nil s₁)
              · rw [Except.mapError, take_untilError, ht₁]
                exact hhanded _ _
          | ok r =>
              rw [hl] at hsend
              obtain ⟨s', hsends, hcalls⟩ := ih (fun l' hl' => hlines l' (by simp [hl'])) ht₁ hp₁
              refine ⟨s', .cons hsend hsends, ?_⟩
              rw [hcalls, hhanded, List.append_assoc]
              rfl

/-- **Polling ends at the first failure.** A port answers each query with
a line, and is then silent or fails. In `n` rounds `tcp_poll` prints what
each line says, errors of the device among them, up to the first line that
cannot be read, or to the failure of the port, and it is left exactly if it
has got there; it has handed `write` one query for each print. -/
theorem poll_run (display : ε → String) (lines : List (List UInt8))
    (hlines : ∀ l ∈ lines, PollLine l) (t : UInt8) (ht : isTerminator t = true)
    (ending : Option ε) (n : Nat) :
    ∃ (fuel : Nat) (s' : Session (Scripted ε)),
      (poll display n).run fuel
          (Session.new (⟨[], lines.map (· ++ [t]), ending, []⟩ : Scripted ε))
        = .ok (some (((untilError (resultsOf lines ending)).take n).map (pollPrint display),
            decide ((untilError (resultsOf lines ending)).length ≤ n), s')) ∧
      handed s'.intoTransport.calls
        = ((untilError (resultsOf lines ending)).take n).flatMap fun _ => bytes "C\r" := by
  obtain ⟨s', hsends, hcalls⟩ := sendAll_lines hlines ht ending n
    (s := Session.new (⟨[], lines.map (· ++ [t]), ending, []⟩ : Scripted ε)) rfl Parser.new_holds
  have hfailure : .error (Scripted.failure ending) ∈ resultsOf lines ending := by simp [resultsOf]
  obtain ⟨fuel, hrun⟩ := Client.run_iff.mpr ⟨_, poll_makes display hfailure n, hsends⟩
  exact ⟨fuel, s', hrun, hcalls⟩

/-- A position and an error of the device, and then nothing. -/
theorem poll_run_two :
    ∃ (fuel : Nat) (s' : Session (Scripted Empty)),
      (poll Empty.elim 5).run fuel
          (Session.new (⟨[], [bytes "AZ=180 EL=090\r", bytes "?\r"], none, []⟩ : Scripted Empty))
        = .ok (some ([.out "AZ=180  EL=090\n", .err "Device error\n", .err "Error: timeout\n"],
            true, s')) ∧
      handed s'.intoTransport.calls = bytes "C\rC\rC\r" := by
  have hlines : ∀ l ∈ [bytes "AZ=180 EL=090", bytes "?"], PollLine l := by
    intro l hl
    simp only [List.mem_cons, List.not_mem_nil, or_false] at hl
    rcases hl with rfl | rfl
    · exact ⟨by decide, by decide, by decide⟩
    · exact ⟨by decide, by decide, by decide⟩
  have hresults : untilError (resultsOf (ε := Empty) [bytes "AZ=180 EL=090", bytes "?"] none)
      = [.ok (.position 180 90), .ok .error, .error .timeout] := by decide
  have hrun := poll_run (ε := Empty) Empty.elim _ hlines (byte '\r') rfl none 5
  rw [hresults] at hrun
  exact hrun

/-! ## Homing -/

/-- `serial_home`, once the port is open. -/
def home (display : ε → String) : Client ε Print Unit :=
  .print (.out "Stopping any ongoing movement...\n")
    (.call .stop fun stopped =>
      .print (match stopped with
        | .ok _ => .out "Stopped.\n"
        | .error e => .err ("Stop failed: " ++ e.display display ++ "\n"))
      (.print (.out "Sending to home position (AZ=000, EL=000)...\n")
        (.call (.azimuthElevation 0 0) fun sent =>
          .print (match sent with
            | .ok .ack => .out "Homing command accepted.\n"
            | .ok .error => .err "Device rejected the command.\n"
            | .ok other => .out ("Unexpected response: " ++ other.debug ++ "\n")
            | .error e => .err ("Error: " ++ e.display display ++ "\n"))
          (.print (.out "Querying position...\n")
            (.call .queryPosition fun position =>
              .print (match position with
                | .ok (.position az el) =>
                    .out ("Position: AZ=" ++ pad3 az.toNat ++ " EL=" ++ pad3 el.toNat ++ "\n")
                | .ok other => .out ("Unexpected response: " ++ other.debug ++ "\n")
                | .error e => .err ("Error: " ++ e.display display ++ "\n"))
              (.done ()))))))

/-- **`serial_home` goes through with it.** On a port of any kind, and
whatever the answers are, when the program has ended a device that is fed
with what has gone out has been told to stop, to go home, and to say where
it is, in this order and once each, but for some of those in whose sends
the transport failed. -/
theorem home_obtained (display : ε → String) (t : T) (os : List Print) (s : Session (Wired T))
    (h : ∃ fuel, (home display).run fuel (Session.new ⟨t, []⟩) = .ok (some (os, (), s))) :
    ∃ r₁ r₂ r₃ ws outs parser,
      SendAll (Session.new ⟨t, []⟩)
        [(.stop, r₁), (.azimuthElevation 0 0, r₂), (.queryPosition, r₃)] s ∧
      PutOut [(.stop, r₁), (.azimuthElevation 0 0, r₂), (.queryPosition, r₃)] ws ∧
      feedAll CommandParser.feed CommandParser.new s.intoTransport.out = .ok (outs, parser) ∧
      outs.reduceOption = ws.map Prod.fst ∧ parser.len = 0 := by
  have hcalls : ∀ cs, (home display).Makes cs os () → ∃ r₁ r₂ r₃,
      cs = [(.stop, r₁), (.azimuthElevation 0 0, r₂), (.queryPosition, r₃)] := by
    intro cs h
    simp only [home, Program.makes_print, Program.makes_call, Program.makes_done] at h
    obtain ⟨-, -, r₁, -, rfl, -, -, -, -, r₂, -, rfl, -, -, -, -, r₃, -, rfl, -, -, rfl, -, -⟩ := h
    exact ⟨r₁, r₂, r₃, rfl⟩
  have hoff : ∀ cs, (home display).Makes cs os () → ∀ c ∈ cs.map Prod.fst, c.OffsetsFit := by
    intro cs hcs
    obtain ⟨r₁, r₂, r₃, rfl⟩ := hcalls cs hcs
    simp [Command.OffsetsFit]
  obtain ⟨cs, ws, outs, parser, hcs, hsends, hws, hfeed, houts, hempty⟩ := Client.obtained hoff h
  obtain ⟨r₁, r₂, r₃, rfl⟩ := hcalls cs hcs
  refine ⟨r₁, r₂, r₃, ws, outs, parser, hsends, hws, hfeed, ?_, hempty⟩
  rw [houts]
  refine List.map_congr_left fun x hx => ?_
  -- none of the three is the query that arrives as another one
  have hmem := (List.mem_filter.mp (hws.high.subset hx)).1
  simp only [List.mem_cons, List.not_mem_nil, or_false] at hmem
  rcases hmem with rfl | rfl | rfl <;> rfl

/-- On a port that fails after the first write. -/
theorem home_obtained_cut :
    ∃ (s : Session (Wired Cut)) (r₁ r₂ r₃ : _) (ws : _) (outs : _) (parser : _),
      SendAll (Session.new ⟨⟨1⟩, []⟩)
        [(.stop, r₁), (.azimuthElevation 0 0, r₂), (.queryPosition, r₃)] s ∧
      PutOut [(.stop, r₁), (.azimuthElevation 0 0, r₂), (.queryPosition, r₃)] ws ∧
      feedAll CommandParser.feed CommandParser.new s.intoTransport.out = .ok (outs, parser) ∧
      outs.reduceOption = ws.map Prod.fst ∧ parser.len = 0 := by
  have hsends : ∃ s, SendAll (Session.new (⟨⟨1⟩, []⟩ : Wired Cut))
      [(.stop, .error .timeout), (.azimuthElevation 0 0, .error (.transport ())),
        (.queryPosition, .error (.transport ()))] s :=
    ⟨_, .cons ⟨2, rfl⟩ (.cons ⟨2, rfl⟩ (.cons ⟨2, rfl⟩ (.nil _)))⟩
  obtain ⟨s, hs⟩ := hsends
  have hmakes : ∃ os, (home fun _ => "closed").Makes [(.stop, .error .timeout),
      (.azimuthElevation 0 0, .error (.transport ())),
      (.queryPosition, .error (.transport ()))] os () :=
    ⟨_, .print (.call (.print (.print (.call (.print (.print (.call (.print (.done _)))))))))⟩
  obtain ⟨os, hmakes⟩ := hmakes
  exact ⟨s, home_obtained (fun _ => "closed") _ os s (Client.run_iff.mpr ⟨_, hmakes, hs⟩)⟩

end Easycom
