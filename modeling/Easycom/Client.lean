import Easycom.DeviceLink
import Easycom.Rust.Program
import Easycom.SessionCalls

/-!
# Easycom — Client

Programs over a session. A client prints, sends commands, and looks at
their results (`Client`); it runs on a session where its sends do
(`Client.run_iff`). Over the link it runs as if it called the device
itself: frames, buffers and parsers leave no trace in what it prints
(`client_agrees`).
-/

namespace Easycom

open Rust Stream

variable {T ε ω α σ : Type} [Transport T ε]

/-- A program that sends commands and prints `ω`. -/
abbrev Client (ε ω α : Type) := Program Command (Except (Error ε) Response) ω α

/-- A client on a session, each of its sends with `fuel`. -/
def Client.run (fuel : Nat) (p : Client ε ω α) (s : Session T) :
    Exec (Option (List ω × α × Session T)) :=
  Program.run (fun s c => s.send fuel c) p s

theorem sendAll_iff_calls {s s' : Session T} {rs : List (Command × Except (Error ε) Response)} :
    SendAll s rs s' ↔ Program.Calls (fun s c r s' => ∃ fuel : Nat,
      Session.send fuel s c = .ok (some (r, s'))) s rs s' := by
  constructor
  · intro h
    induction h with
    | nil s => exact .nil s
    | cons h _ ih => exact .cons h ih
  · intro h
    induction h with
    | nil s => exact .nil s
    | cons h _ ih => exact .cons h ih

/-- **A client runs where its sends do**, and prints what their results
make it print. -/
theorem Client.run_iff {p : Client ε ω α} {s s' : Session T} {os : List ω} {a : α} :
    (∃ fuel, p.run fuel s = .ok (some (os, a, s'))) ↔
      ∃ rs, p.Makes rs os a ∧ SendAll s rs s' := by
  have hmono : ∀ {fuel : Nat} {s : Session T} {c : Command}
      {out : Except (Error ε) Response × Session T},
      s.send fuel c = .ok (some out) → ∀ k, s.send (fuel + k) c = .ok (some out) := send_mono
  simp only [sendAll_iff_calls]
  exact Program.run_iff hmono

/-! ## A link that fails -/

/-- **What a client has put out**, on a transport of any kind, and whatever
became of its sends, is decoded by a fresh `CommandParser` to its accepted
commands, each once and in order, but for some of those in whose sends the
transport failed. -/
theorem Client.obtained {p : Client ε ω α} {t : T} {s : Session (Wired T)} {os : List ω} {a : α}
    (hoff : ∀ cs, p.Makes cs os a → ∀ c ∈ cs.map Prod.fst, c.OffsetsFit)
    (h : ∃ fuel, p.run fuel (Session.new ⟨t, []⟩) = .ok (some (os, a, s))) :
    ∃ cs ws outs parser, p.Makes cs os a ∧ SendAll (Session.new ⟨t, []⟩) cs s ∧ PutOut cs ws ∧
      feedAll CommandParser.feed CommandParser.new s.intoTransport.out = .ok (outs, parser) ∧
      outs.reduceOption = (ws.map fun x => x.1.received) ∧ parser.len = 0 := by
  obtain ⟨cs, hmakes, hsends⟩ := Client.run_iff.mp h
  obtain ⟨ws, outs, parser, hws, -, hfeed, houts, hempty⟩ :=
    hsends.obtained fun x hx => hoff cs hmakes x.1 (List.mem_map_of_mem hx)
  exact ⟨cs, ws, outs, parser, hmakes, hsends, hws, hfeed, houts, hempty⟩

/-! ## A device that is called -/

/-- Why the encoder refuses a command, if it does. -/
def Command.refusal : Command → Option String
  | .azimuth az => if az > 360 then some "azimuth must be 0–360" else none
  | .elevation el => if el > 180 then some "elevation must be 0–180" else none
  | .azimuthElevation az el =>
      if az > 360 then some "azimuth must be 0–360"
      else if el > 180 then some "elevation must be 0–180"
      else none
  | _ => none

theorem Command.accepted_iff (c : Command) : c.Accepted ↔ c.refusal = none := by
  cases c with
  | azimuth n | elevation n =>
      simp only [Accepted, refusal]
      split
      · simpa using UInt16.not_le.mpr ‹_›
      · simpa using UInt16.not_lt.mp ‹_›
  | azimuthElevation az el =>
      simp only [Accepted, refusal]
      split
      · simpa using fun haz => absurd haz (UInt16.not_le.mpr ‹_›)
      · split
        · simpa using fun _ => UInt16.not_le.mpr ‹_›
        · simpa using ⟨UInt16.not_lt.mp ‹_›, UInt16.not_lt.mp ‹_›⟩
  | _ => simp [Accepted, refusal]

theorem encodeInto_refused {c : Command} {msg : String} (h : c.refusal = some msg)
    (buf : List UInt8) : encodeInto c buf = .ok (.error msg, buf) := by
  cases c with
  | azimuth n | elevation n =>
      simp only [Command.refusal] at h
      split at h
      · cases h
        rw [encodeInto, if_pos ‹_›]
        rfl
      · cases h
  | azimuthElevation az el =>
      simp only [Command.refusal] at h
      split at h
      · cases h
        rw [encodeInto, if_pos ‹_›]
        rfl
      · split at h
        · cases h
          rw [encodeInto, if_neg ‹_›, if_pos ‹_›]
          rfl
        · cases h
  | _ => cases h

/-- The commands of calls that are accepted, as the device obtains them. -/
def delivered {R : Type} (cs : List (Command × R)) : List Command :=
  ((cs.map Prod.fst).filter (·.Accepted)).map Command.received

/-- A rotator: for a command in a state, whether it echoes the frame, its
response, and the state after it. -/
abbrev Rotator (σ : Type) := σ → Command → (Bool × Response) × σ

/-- A send to a rotator that is called and not written to. A command that
is refused does not get there; a query of the status arrives as one of the
register. -/
def Rotator.call (rotator : Rotator σ) (x : σ) (c : Command) :
    Except (Error ε) Response × σ :=
  match c.refusal with
  | some msg => (.error (.invalidParam msg), x)
  | none =>
      let ((_, r), x) := rotator x c.received
      (.ok r, x)

/-- The answers of the rotator to the commands that get there. -/
def Rotator.script (rotator : Rotator σ) : σ → List Command → List (Bool × Response)
  | _, [] => []
  | x, c :: cs =>
      match c.refusal with
      | some _ => rotator.script x cs
      | none =>
          let (answer, x) := rotator x c.received
          answer :: rotator.script x cs

/-- Its responses can be encoded, and no keep-alive is answered by an
error, which is an echo of it. -/
structure Rotator.Valid (rotator : Rotator σ) : Prop where
  inRange : ∀ x c, (rotator x c).1.2.InRange
  noEcho : ∀ x, (rotator x .keepAlive).1.2 ≠ .error

/-- **The calls of a client return over the link** what they return
without it. -/
theorem sendAll_calls {rotator : Rotator σ} (hvalid : rotator.Valid) (p : Client Panic ω α)
    (x : σ) (hoff : ∀ c ∈ p.calls rotator.call x, c.1.OffsetsFit) {s : Session Link}
    (hs : s.Quiet)
    (hscript : s.transport.device.script
      = rotator.script x ((p.calls rotator.call x).map Prod.fst)) :
    ∃ s', SendAll s (p.calls rotator.call x) s' ∧ s'.Quiet ∧
      s'.transport.device.obtained = s.transport.device.obtained ++
        delivered (p.calls rotator.call x) := by
  induction p generalizing x s with
  | done a => exact ⟨s, .nil s, hs, by simp [Program.calls, delivered]⟩
  | print o rest ih => exact ih x hoff hs hscript
  | call c rest ih =>
      rw [Program.calls] at hoff hscript ⊢
      cases hrefusal : c.refusal with
      | some msg =>
          have hcall : rotator.call (ε := Panic) x c = (.error (.invalidParam msg), x) := by
            rw [Rotator.call, hrefusal]
          rw [hcall] at hoff hscript ⊢
          rw [List.map_cons, Rotator.script, hrefusal] at hscript
          obtain ⟨s', hsends, hs', hobtained⟩ :=
            ih _ x (fun d hd => hoff d (List.mem_cons_of_mem _ hd)) hs hscript
          have hacc : ¬ c.Accepted := by simp [c.accepted_iff, hrefusal]
          refine ⟨s', .cons ⟨0, send_rejected (encodeInto_refused hrefusal _) s 0⟩ hsends, hs', ?_⟩
          rw [hobtained]
          simp [delivered, hacc]
      | none =>
          have hacc : c.Accepted := c.accepted_iff.mpr hrefusal
          have hcall : rotator.call (ε := Panic) x c
              = (.ok (rotator x c.received).1.2, (rotator x c.received).2) := by
            rw [Rotator.call, hrefusal]
          rw [hcall] at hoff hscript ⊢
          rw [List.map_cons, Rotator.script, hrefusal] at hscript
          have hexchange : (⟨c, (rotator x c.received).1.2, (rotator x c.received).1.1⟩
              : Exchange).Valid := by
            refine ⟨hacc, hoff _ List.mem_cons_self, hvalid.inRange _ _, fun h => ?_⟩
            obtain ⟨rfl, herror⟩ := h
            exact hvalid.noEcho x herror
          obtain ⟨s₁, hsend, hs₁, hobtained₁, hscript₁⟩ := exchange_agrees hexchange hs hscript
          obtain ⟨s', hsends, hs', hobtained⟩ :=
            ih _ _ (fun d hd => hoff d (List.mem_cons_of_mem _ hd)) hs₁ hscript₁
          refine ⟨s', .cons hsend hsends, hs', ?_⟩
          rw [hobtained, hobtained₁]
          simp [delivered, hacc]

/-- **Every client sees the device.** Over the link, a client of any kind
prints and returns what it would if it called the rotator, and the device
obtains its commands, but for those that are refused; nothing is left in a
queue or in a parser. -/
theorem client_agrees (rotator : Rotator σ) (hvalid : rotator.Valid) (p : Client Panic ω α) (x : σ)
    (hoff : ∀ c ∈ p.calls rotator.call x, c.1.OffsetsFit) :
    ∃ fuel s',
      p.run fuel (Session.new (Link.new
          (rotator.script x ((p.calls rotator.call x).map Prod.fst))))
        = .ok (some ((p.eval rotator.call x).1, (p.eval rotator.call x).2.1, s')) ∧
      s'.Quiet ∧
      s'.transport.device.obtained = delivered (p.calls rotator.call x) := by
  obtain ⟨s', hsends, hs', hobtained⟩ :=
    sendAll_calls hvalid p x hoff
      (s := Session.new (Link.new (rotator.script x ((p.calls rotator.call x).map Prod.fst))))
      ⟨rfl, rfl, rfl, rfl, rfl⟩ rfl
  obtain ⟨fuel, hrun⟩ := Client.run_iff.mpr ⟨_, p.makes_eval _ _, hsends⟩
  exact ⟨fuel, s', hrun, hs', hobtained⟩

/-- A rotator that remembers its azimuth, and echoes. -/
def azimuthRotator : Rotator UInt16
  | _, .azimuth az => ((true, .ack), az)
  | x, .queryPosition => ((true, .position (x % 361) 0), x)
  | x, _ => ((true, .ack), x)

/-- A client that turns, asks where the rotator is, and prints the answer. -/
def turnAndAsk : Client Panic (Except (Error Panic) Response) Unit :=
  .call (.azimuth 90) fun _ => .call (.azimuth 361) fun refused => .print refused
    (.call .queryPosition fun answer => .print answer (.done ()))

theorem client_agrees_turn :
    ∃ fuel s',
      turnAndAsk.run fuel (Session.new (Link.new
          [(true, .ack), (true, .position 90 0)]))
        = .ok (some ([.error (.invalidParam "azimuth must be 0–360"), .ok (.position 90 0)], (),
            s')) ∧
      s'.Quiet ∧ s'.transport.device.obtained = [.azimuth 90, .queryPosition] := by
  refine client_agrees azimuthRotator ⟨fun x c => ?_, fun x => nofun⟩ turnAndAsk 0 fun c hc => ?_
  · cases c with
    | queryPosition =>
        have hmod := Nat.mod_lt x.toNat (show 361 > 0 by decide)
        show x % 361 ≤ 999 ∧ (0 : UInt16) ≤ 999
        rw [UInt16.le_iff_toNat_le, UInt16.toNat_mod]
        exact ⟨Nat.le_trans (Nat.le_of_lt hmod) (by decide), by decide⟩
    | _ => trivial
  · cases hc with
    | head => trivial
    | tail _ hc =>
        cases hc with
        | head => trivial
        | tail _ hc => exact List.mem_singleton.mp hc ▸ trivial

end Easycom
