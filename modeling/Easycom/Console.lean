import Easycom.Client
import Easycom.SessionCalls
import Easycom.Stream.Words

/-!
# Easycom — Console

The interactive program of `examples/cli.rs`: it reads a line, turns it
into a command, sends it, prints the answer, and goes on until it is told
to stop. What a line means is a language (`typed_command`). Whatever the
answers, the program sends the commands of its lines and no others, so the
device at the other end of a link that fails in any way obtains what was
typed (`repl_obtained`).
-/

namespace Easycom

open Rust Stream

/-! ## Texts -/

/-- One write to a standard stream. -/
inductive Print where
  | out (text : String)
  | err (text : String)
  deriving DecidableEq, Repr

/-- `{n:03}`. -/
def pad3 (n : Nat) : String := "".pushn '0' (3 - (toString n).length) ++ toString n

/-- `Display` of a parse error. -/
def ParseError.display : ParseError → String
  | .unexpectedEof => "unexpected end of input"
  | .invalidUtf8 => "invalid UTF-8 in frame"
  | .unknownCommand => "unknown command letter"
  | .badChecksum => "checksum mismatch"

/-- `Display` of an error, given that of the transport's errors. -/
def Error.display {ε : Type} (display : ε → String) : Error ε → String
  | .transport e => "transport error: " ++ display e
  | .parse p => "parse error: " ++ p.display
  | .timeout => "timeout"
  | .invalidParam s => "invalid parameter: " ++ s

/-- `Debug` of a device status. -/
def DeviceStatus.debug : DeviceStatus → String
  | .idle => "Idle"
  | .moving => "Moving"
  | .homing => "Homing"
  | .notHomed => "NotHomed"
  | .homingAzError => "HomingAzError"
  | .homingElError => "HomingElError"

/-! ## A line of input -/

/-- `char::is_whitespace`. -/
def isWhitespace (c : Char) : Bool :=
  let n := c.toNat
  (0x09 ≤ n && n ≤ 0x0D) || n == 0x20 || n == 0x85 || n == 0xA0 || n == 0x1680 ||
    (0x2000 ≤ n && n ≤ 0x200A) || n == 0x2028 || n == 0x2029 || n == 0x202F || n == 0x205F ||
    n == 0x3000

/-- `split_whitespace`. -/
def splitWhitespace (line : List Char) : List (List Char) := words isWhitespace line

/-- The bytes of a text. -/
def utf8 (part : List Char) : List UInt8 := part.flatMap String.utf8EncodeChar

/-- `parse_arg`: the number at `idx`, or the usage text with which the
program exits. -/
def parseArg (parts : List (List Char)) (idx : Nat) (usage : String) : Except String UInt16 :=
  match parts[idx]?.bind fun part => parseU16 (utf8 part) with
  | some n => .ok n
  | none => .error usage

/-- What a line asks for. -/
inductive Request where
  | blank
  | help
  | quit
  | unknown (other : List Char)
  | usage (text : String)
  | send (cmd : Command)
  deriving DecidableEq, Repr

/-- A command, unless an argument of it is missing. -/
def Request.ofArgs : Except String Command → Request
  | .ok cmd => .send cmd
  | .error text => .usage text

def request (parts : List (List Char)) : Request :=
  match parts with
  | [] => .blank
  | part :: _ =>
      if part = "az".toList then .ofArgs do
        let n ← parseArg parts 1 "az <0-360>"
        return .azimuth n
      else if part = "el".toList then .ofArgs do
        let n ← parseArg parts 1 "el <0-180>"
        return .elevation n
      else if part = "pos".toList then .ofArgs do
        let az ← parseArg parts 1 "pos <az> <el>"
        let el ← parseArg parts 2 "pos <az> <el>"
        return .azimuthElevation az el
      else if part = "query".toList then .send .queryPosition
      else if part = "status".toList then .send .queryStatus
      else if part = "stop".toList then .send .stop
      else if part = "keepalive".toList then .send .keepAlive
      else if part = "help".toList then .help
      else if part = "quit".toList ∨ part = "exit".toList ∨ part = "q".toList then .quit
      else .unknown part

/-! ## The language of the lines -/

/-- The words of a line that is a command. Numbers are read as `u16` is:
leading zeros and a plus sign are allowed, and what follows is ignored. -/
inductive Typed : List (List Char) → Command → Prop where
  | az {t : List Char} {rest : List (List Char)} {n : UInt16} (h : Numeral (utf8 t) n.toNat) :
      Typed ("az".toList :: t :: rest) (.azimuth n)
  | el {t : List Char} {rest : List (List Char)} {n : UInt16} (h : Numeral (utf8 t) n.toNat) :
      Typed ("el".toList :: t :: rest) (.elevation n)
  | pos {t u : List Char} {rest : List (List Char)} {az el : UInt16}
      (haz : Numeral (utf8 t) az.toNat) (hel : Numeral (utf8 u) el.toNat) :
      Typed ("pos".toList :: t :: u :: rest) (.azimuthElevation az el)
  | query (rest : List (List Char)) : Typed ("query".toList :: rest) .queryPosition
  | status (rest : List (List Char)) : Typed ("status".toList :: rest) .queryStatus
  | stop (rest : List (List Char)) : Typed ("stop".toList :: rest) .stop
  | keepAlive (rest : List (List Char)) : Typed ("keepalive".toList :: rest) .keepAlive

theorem parseArg_eq_ok {parts : List (List Char)} {idx : Nat} {usage : String} {n : UInt16} :
    parseArg parts idx usage = .ok n ↔ ∃ t, parts[idx]? = some t ∧ Numeral (utf8 t) n.toNat := by
  rw [parseArg]
  cases h : parts[idx]?.bind fun part => parseU16 (utf8 part) with
  | none =>
      simp only [Option.bind_eq_none_iff] at h
      constructor
      · intro hn
        cases hn
      · intro ht
        obtain ⟨t, ht, hn⟩ := ht
        exact absurd (parseU16_eq_some.mpr hn) (by simp [h t ht])
  | some m =>
      obtain ⟨t, ht, hm⟩ := Option.bind_eq_some_iff.mp h
      constructor
      · intro hn
        cases hn
        exact ⟨t, ht, parseU16_eq_some.mp hm⟩
      · intro hn
        obtain ⟨t', ht', hn⟩ := hn
        obtain rfl := Option.some.inj (ht.symm.trans ht')
        obtain rfl := Option.some.inj (hm.symm.trans (parseU16_eq_some.mpr hn))
        rfl

theorem ofArgs_eq_send {x : Except String Command} {c : Command} :
    Request.ofArgs x = .send c ↔ x = .ok c := by
  cases x <;> simp [Request.ofArgs]

theorem bind_eq_ok {β γ δ : Type} {x : Except δ β} {f : β → Except δ γ} {c : γ} :
    x >>= f = .ok c ↔ ∃ b, x = .ok b ∧ f b = .ok c := by
  cases x <;> simp [bind, Except.bind]

theorem request_eq_send {parts : List (List Char)} {c : Command} :
    request parts = .send c ↔ Typed parts c := by
  constructor
  · intro h
    rcases parts with _ | ⟨part, rest⟩
    · cases h
    rw [request] at h
    split_ifs at h with haz hel hpos hquery hstatus hstop hkeepalive
    · obtain ⟨n, harg, hc⟩ := bind_eq_ok.mp (ofArgs_eq_send.mp h)
      obtain ⟨t, ht, hn⟩ := parseArg_eq_ok.mp harg
      cases hc
      subst haz
      cases rest with
      | nil => cases ht
      | cons u rest =>
          cases ht
          exact .az hn
    · obtain ⟨n, harg, hc⟩ := bind_eq_ok.mp (ofArgs_eq_send.mp h)
      obtain ⟨t, ht, hn⟩ := parseArg_eq_ok.mp harg
      cases hc
      subst hel
      cases rest with
      | nil => cases ht
      | cons u rest =>
          cases ht
          exact .el hn
    · obtain ⟨az, harg, h⟩ := bind_eq_ok.mp (ofArgs_eq_send.mp h)
      obtain ⟨el, harg', hc⟩ := bind_eq_ok.mp h
      obtain ⟨t, ht, haz⟩ := parseArg_eq_ok.mp harg
      obtain ⟨u, hu, hel⟩ := parseArg_eq_ok.mp harg'
      cases hc
      subst hpos
      match rest, ht, hu with
      | t :: u :: rest, rfl, rfl => exact .pos haz hel
    · cases h
      exact hquery ▸ .query rest
    · cases h
      exact hstatus ▸ .status rest
    · cases h
      exact hstop ▸ .stop rest
    · cases h
      exact hkeepalive ▸ .keepAlive rest
  · intro h
    cases h with
    | az h =>
        rw [request, if_pos rfl, parseArg_eq_ok.mpr ⟨_, rfl, h⟩]
        rfl
    | el h =>
        rw [request, if_neg (by decide), if_pos rfl, parseArg_eq_ok.mpr ⟨_, rfl, h⟩]
        rfl
    | pos haz hel =>
        rw [request, if_neg (by decide), if_neg (by decide), if_pos rfl,
          parseArg_eq_ok.mpr ⟨_, rfl, haz⟩, parseArg_eq_ok.mpr ⟨_, rfl, hel⟩]
        rfl
    | query | status | stop | keepAlive => rfl

theorem Typed.offsetsFit {parts : List (List Char)} {c : Command} (h : Typed parts c) :
    c.OffsetsFit := by
  cases h <;> trivial

/-- **What a line means.** A line of input is sent as a command exactly
when its words, between any white space, spell one. -/
theorem typed_command (line : List Char) (c : Command) :
    request (splitWhitespace line) = .send c ↔
      ∃ parts, Words isWhitespace line parts ∧ Typed parts c := by
  rw [request_eq_send]
  constructor
  · intro h
    exact ⟨_, words_iff.mp rfl, h⟩
  · intro h
    obtain ⟨parts, hwords, h⟩ := h
    rwa [splitWhitespace, words_iff.mpr hwords]

/-! ## The program -/

/-- `print_help`. -/
def help : Print :=
  .out "Commands: az <n>  el <n>  pos <az> <el>  query  status  stop  keepalive  help  quit\n"

def prompt : Print := .out "> "

/-- What is printed for the result of a send. -/
def describe {ε : Type} (display : ε → String) : Except (Error ε) Response → Print
  | .ok .ack => .out "OK\n"
  | .ok (.position az el) => .out ("AZ=" ++ pad3 az.toNat ++ "  EL=" ++ pad3 el.toNat ++ "\n")
  | .ok (.azimuthPosition az) => .out ("AZ=" ++ pad3 az.toNat ++ "\n")
  | .ok (.elevationPosition el) => .out ("EL=" ++ pad3 el.toNat ++ "\n")
  | .ok (.status status) => .out ("Status: " ++ status.debug ++ "\n")
  | .ok (.statusRegister val) => .out ("Status register: " ++ toString val.toNat ++ "\n")
  | .ok (.errorRegister val) => .out ("Error register: " ++ toString val.toNat ++ "\n")
  | .ok (.configValue register value) =>
      .out ("Config[" ++ toString register.toNat ++ "] = " ++ toString value.toInt ++ "\n")
  | .ok .error => .out "Device error (?)\n"
  | .error e => .err ("Error: " ++ e.display display ++ "\n")

/-- How the program ends: `main` returns, or `process::exit(1)`. -/
inductive Exit where
  | returned
  | failed
  deriving DecidableEq, Repr

/-- A line of the input, or the text of the error of reading it. -/
abbrev Line := Except String (List Char)

variable {T ε σ : Type} [Transport T ε]

/-- The loop of `run_repl` on the lines that are read. -/
def replLoop (display : ε → String) : List Line → Client ε Print Exit
  | [] => .done .returned
  | .error e :: _ => .print (.err ("Read error: " ++ e ++ "\n")) (.done .returned)
  | .ok line :: lines =>
      match request (splitWhitespace line) with
      | .blank => .print prompt (replLoop display lines)
      | .help => .print help (.print prompt (replLoop display lines))
      | .unknown other =>
          .print (.err ("Unknown command: " ++ String.ofList other ++ ". Type 'help'.\n"))
            (.print prompt (replLoop display lines))
      | .quit => .done .returned
      | .usage text => .print (.err ("Usage: " ++ text ++ "\n")) (.done .failed)
      | .send cmd =>
          .call cmd fun result =>
            .print (describe display result) (.print prompt (replLoop display lines))

/-- `run_repl`. -/
def runRepl (display : ε → String) (lines : List Line) : Client ε Print Exit :=
  .print help (.print prompt (replLoop display lines))

/-! ## What the program sends -/

/-- The commands of the lines, up to the one that ends the program. -/
def typed : List Line → List Command
  | [] => []
  | .error _ :: _ => []
  | .ok line :: lines =>
      match request (splitWhitespace line) with
      | .blank | .help | .unknown _ => typed lines
      | .quit | .usage _ => []
      | .send cmd => cmd :: typed lines

/-- How the program ends: it fails only at a missing argument. -/
def ending : List Line → Exit
  | [] => .returned
  | .error _ :: _ => .returned
  | .ok line :: lines =>
      match request (splitWhitespace line) with
      | .blank | .help | .unknown _ | .send _ => ending lines
      | .quit => .returned
      | .usage _ => .failed

theorem typed_offsetsFit {lines : List Line} {c : Command} (h : c ∈ typed lines) :
    c.OffsetsFit := by
  induction lines with
  | nil => cases h
  | cons line lines ih =>
      cases line with
      | error e => cases h
      | ok line =>
          rw [typed] at h
          cases hreq : request (splitWhitespace line) with
          | send cmd =>
              rw [hreq] at h
              cases h with
              | head => exact (request_eq_send.mp hreq).offsetsFit
              | tail _ h => exact ih h
          | blank | help | unknown =>
              rw [hreq] at h
              exact ih h
          | quit | usage =>
              rw [hreq] at h
              cases h

/-- **The results of its sends do not change what the program sends**, nor
how it ends. -/
theorem replLoop_makes {display : ε → String} {lines : List Line}
    {cs : List (Command × Except (Error ε) Response)} {os : List Print} {a : Exit}
    (h : (replLoop display lines).Makes cs os a) :
    cs.map Prod.fst = typed lines ∧ a = ending lines := by
  induction lines generalizing cs os with
  | nil =>
      obtain ⟨rfl, -, rfl⟩ := Program.makes_done.mp h
      exact ⟨rfl, rfl⟩
  | cons line lines ih =>
      cases line with
      | error e =>
          obtain ⟨os', -, h⟩ := Program.makes_print.mp h
          obtain ⟨rfl, -, rfl⟩ := Program.makes_done.mp h
          exact ⟨rfl, rfl⟩
      | ok line =>
          rw [replLoop] at h
          rw [typed, ending]
          cases hreq : request (splitWhitespace line) with
          | blank =>
              simp only [hreq, Program.makes_print] at h
              obtain ⟨os', -, h⟩ := h
              exact ih h
          | help | unknown =>
              simp only [hreq, Program.makes_print] at h
              obtain ⟨os', -, os'', -, h⟩ := h
              exact ih h
          | quit =>
              simp only [hreq, Program.makes_done] at h
              obtain ⟨rfl, -, rfl⟩ := h
              exact ⟨rfl, rfl⟩
          | usage text =>
              simp only [hreq, Program.makes_print, Program.makes_done] at h
              obtain ⟨os', -, rfl, -, rfl⟩ := h
              exact ⟨rfl, rfl⟩
          | send cmd =>
              simp only [hreq, Program.makes_call, Program.makes_print] at h
              obtain ⟨r, cs', rfl, os', -, os'', -, h⟩ := h
              obtain ⟨hcs, ha⟩ := ih h
              exact ⟨by rw [List.map_cons, hcs], ha⟩

/-- **A device obtains what was typed.** Whatever the link does to the
answers, and whether or not it fails, what the program has put out when it
ends is, to a fresh `CommandParser`, the commands typed before its end: all
whose angles are not refused, but for some of those in whose sends the
transport failed. -/
theorem repl_obtained (display : ε → String) (lines : List Line) (t : T) (os : List Print)
    (a : Exit) (s : Session (Wired T))
    (h : ∃ fuel, (runRepl display lines).run fuel (Session.new ⟨t, []⟩) = .ok (some (os, a, s))) :
    a = ending lines ∧
    ∃ cs ws outs parser, SendAll (Session.new ⟨t, []⟩) cs s ∧ cs.map Prod.fst = typed lines ∧
      PutOut cs ws ∧
      feedAll CommandParser.feed CommandParser.new s.intoTransport.out = .ok (outs, parser) ∧
      outs.reduceOption = (ws.map fun x => x.1.received) ∧ parser.len = 0 := by
  have hmakes : ∀ cs, (runRepl display lines).Makes cs os a →
      cs.map Prod.fst = typed lines ∧ a = ending lines := by
    intro cs h
    simp only [runRepl, Program.makes_print] at h
    obtain ⟨os', -, os'', -, h⟩ := h
    exact replLoop_makes h
  have hoff : ∀ cs, (runRepl display lines).Makes cs os a →
      ∀ c ∈ cs.map Prod.fst, c.OffsetsFit := by
    intro cs hcs c hc
    rw [(hmakes cs hcs).1] at hc
    exact typed_offsetsFit hc
  obtain ⟨cs, ws, outs, parser, hcs, hsends, hws, hfeed, houts, hempty⟩ := Client.obtained hoff h
  obtain ⟨htyped, ha⟩ := hmakes cs hcs
  exact ⟨ha, cs, ws, outs, parser, hsends, htyped, hws, hfeed, houts, hempty⟩

/-- A status, an angle out of range, and a stop whose write fails. -/
theorem repl_obtained_cut :
    ∃ (s : Session (Wired Cut)) (cs : _) (ws : _) (outs : _) (parser : _),
      SendAll (Session.new ⟨⟨1⟩, []⟩) cs s ∧
      cs.map Prod.fst = [.queryStatus, .elevation 999, .stop] ∧ PutOut cs ws ∧
      feedAll CommandParser.feed CommandParser.new s.intoTransport.out = .ok (outs, parser) ∧
      outs.reduceOption = (ws.map fun x => x.1.received) ∧ parser.len = 0 := by
  have hsends : ∃ s, SendAll (Session.new (⟨⟨1⟩, []⟩ : Wired Cut))
      [(.queryStatus, .error .timeout),
        (.elevation 999, .error (.invalidParam "elevation must be 0–180")),
        (.stop, .error (.transport ()))] s :=
    ⟨_, .cons ⟨2, rfl⟩ (.cons ⟨2, rfl⟩ (.cons ⟨2, rfl⟩ (.nil _)))⟩
  obtain ⟨s, hs⟩ := hsends
  have hmakes : ∃ os a, (runRepl (fun _ => "closed")
      [.ok "status".toList, .ok "el 999".toList, .ok "stop".toList]).Makes
        [(.queryStatus, .error .timeout),
          (.elevation 999, .error (.invalidParam "elevation must be 0–180")),
          (.stop, .error (.transport ()))] os a :=
    ⟨_, _, .print (.print (.call (.print (.print (.call (.print (.print
      (.call (.print (.print (.done _)))))))))))⟩
  obtain ⟨os, a, hmakes⟩ := hmakes
  obtain ⟨-, hobtained⟩ :=
    repl_obtained (fun _ => "closed") _ _ _ _ s (Client.run_iff.mpr ⟨_, hmakes, hs⟩)
  exact ⟨s, hobtained⟩

end Easycom
