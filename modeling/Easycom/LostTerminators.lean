import Easycom.LineEndings
import Easycom.PositionDecoding
import Easycom.Stream.Merged

/-!
# Easycom — LostTerminators

Terminators that get lost on the way: the lines of several frames reach the
device as one. Such a merged line is never read as a command that was not
sent: it yields nothing, or the first of its commands
(`lostTerminators_commands`). The reason is what can stand behind the
payload of the first frame (`Continues`): a checksum or another payload,
and neither begins like more of a number.
-/

namespace Easycom

open Rust Stream

/-! ## Merged texts -/

/-- What can stand behind a payload in a merged line. -/
inductive Continues : List UInt8 → Prop where
  | star (v : List UInt8) : Continues (byte '*' :: v)
  | payload (c : Command) (v : List UInt8) : Continues (c.payload ++ v)

/-- A byte that no field of a command contains. -/
structure NoField (b : UInt8) : Prop where
  digit : isDigit b = false
  plus : b ≠ byte '+'
  minus : b ≠ byte '-'

theorem Continues.head {w : List UInt8} (h : Continues w) : ∃ b v, w = b :: v ∧ NoField b := by
  cases h with
  | star v => exact ⟨_, v, rfl, by decide, by decide, by decide⟩
  | payload c v => cases c <;> exact ⟨_, _, rfl, by decide, by decide, by decide⟩

variable {b : UInt8} {s v : List UInt8}

theorem NoField.not_numeral (h : NoField b) {n : Nat} : ¬ Numeral (s ++ b :: v) n :=
  fun hn => not_mem_numeral hn h.digit h.plus (by simp)

theorem NoField.not_angleText (h : NoField b) {n : Nat} : ¬ AngleText (b :: v) n := by
  intro ha
  generalize hs : b :: v = u at ha
  cases ha with
  | whole hn => exact h.not_numeral (s := []) (hs ▸ hn)
  | @fraction s n hn frac =>
      cases s with
      | nil => exact not_numeral_nil hn
      | cons a s =>
          obtain ⟨rfl, -⟩ := List.cons.inj hs
          exact h.not_numeral (s := []) hn

theorem NoField.not_registerText (h : NoField b) (r : Nat) (n : Int) {reg : Nat} {val : Int} :
    ¬ RegisterText (decimal r ++ byte ',' :: (decimalInt n ++ b :: v)) reg val := by
  intro ht
  have hval := ((registerText_split (not_mem_decimal (by decide))).mp ht).2
  rcases hval.mem b (by simp) with hd | hp | hm
  · rw [h.digit] at hd
    cases hd
  · exact h.plus hp
  · exact h.minus hm

/-- `C` and a combined set do not make a register. -/
theorem not_registerText_space {ds t : List UInt8} (hcomma : byte ',' ∉ ds) {reg : Nat}
    {val : Int} : ¬ RegisterText (ds ++ byte ' ' :: t) reg val := by
  intro h
  generalize hs : ds ++ byte ' ' :: t = u at h
  cases h with
  | @mk a c _ _ ha _ =>
      rcases List.append_eq_append_iff.mp hs with ⟨z, rfl, hz⟩ | ⟨z, rfl, hz⟩
      · cases z with
        | nil => exact absurd (List.head_eq_of_cons_eq hz) (by decide)
        | cons x z =>
            obtain rfl := List.head_eq_of_cons_eq hz
            exact not_mem_numeral (c := byte ' ') ha (by decide) (by decide) (by simp)
      · cases z with
        | nil => exact absurd (List.head_eq_of_cons_eq hz) (by decide)
        | cons x z =>
            obtain rfl := List.head_eq_of_cons_eq hz
            exact hcomma (by simp)

/-- No payload and no checksum completes `S` to one of the other stops. -/
theorem Continues.not_stop {w : List UInt8} (h : Continues w) :
    w ≠ bytes "A SE" ∧ w ≠ bytes "A" ∧ w ≠ bytes "E" := by
  cases h with
  | star v => simp [bytes, byte]
  | payload c v =>
      cases c with
      | azimuth az =>
          have hdigit := digit_ne (c := 32) (isDigit_digit (az.toNat / 100)) (by decide)
          simp [Command.payload, bytes, byte, digits3, hdigit]
      | _ => simp [Command.payload, bytes, byte, digits3]

/-- `C` in front of them is neither a write nor a read of a register. -/
theorem Continues.not_register {w s : List UInt8} (h : Continues w) :
    (w = byte 'W' :: s → ∀ reg val, ¬ RegisterText s reg val) ∧
      (w = byte 'R' :: s → ∀ reg, ¬ Numeral s reg) := by
  cases h with
  | star v => simp [byte]
  | payload c v =>
      constructor
      · intro hw reg val ht
        cases c with
        | azimuthElevation az el =>
            simp [Command.payload, bytes] at hw
            rw [← hw] at ht
            exact not_registerText_space (not_mem_digits3 (by decide)) ht
        | _ => simp [Command.payload, bytes, byte] at hw
      · intro hw reg hn
        cases c with
        | reset =>
            simp [Command.payload, bytes, byte] at hw
            rw [← hw] at hn
            exact not_mem_numeral (c := byte 'E') hn (by decide) (by decide) (by simp [byte])
        | _ => simp [Command.payload, bytes, byte] at hw

theorem Continues.keyword {c : Command} {w : List UInt8} (hw : Continues w) {k : String}
    {d : Command} (hk : (k, d) ∈ keywords) : c.payload ++ w ≠ bytes k := by
  intro hp
  obtain ⟨hsase, hsa, hse⟩ := hw.not_stop
  obtain ⟨b, v, rfl, -⟩ := hw.head
  simp only [keywords, List.mem_cons, List.not_mem_nil, Prod.mk.injEq, or_false] at hk
  rcases hk with ⟨rfl, -⟩ | ⟨rfl, -⟩ | ⟨rfl, -⟩ | ⟨rfl, -⟩ | ⟨rfl, -⟩ | ⟨rfl, -⟩ | ⟨rfl, -⟩ |
    ⟨rfl, -⟩ | ⟨rfl, -⟩ | ⟨rfl, -⟩ | ⟨rfl, -⟩ | ⟨rfl, -⟩
  all_goals
    cases c with
    | stop => simp_all [Command.payload, bytes, byte]
    | _ => simp [Command.payload, bytes, byte, digits3] at hp

/-- **What a merged line spells**, if anything, is its first command: only
the query of the status register is read with anything behind it. -/
theorem Continues.text {c d : Command} {w : List UInt8} (hw : Continues w)
    (h : CommandText (c.payload ++ w) d) : d = c.received := by
  have hkeyword := fun k d (hk : (k, d) ∈ keywords) => hw.keyword (c := c) hk
  have hwrite := fun s => (hw.not_register (s := s)).1
  have hread := fun s => (hw.not_register (s := s)).2
  obtain ⟨b, v, rfl, hb⟩ := hw.head
  generalize hp : c.payload ++ b :: v = p at h hkeyword
  cases h with
  | keyword hk => exact absurd rfl (hkeyword _ _ hk)
  | azimuth3 hds _ =>
      have hlen := congrArg List.length hp
      have hdigits := hds.length
      cases c with
      | azimuth az =>
          simp [Command.payload, bytes] at hlen
          omega
      | queryAzimuth =>
          simp [Command.payload, bytes, byte] at hp
          have hz := hds.all 90 (by simp [← hp])
          exact absurd hz (by decide)
      | _ => simp [Command.payload, bytes, byte] at hp
  | elevation3 hds _ =>
      have hlen := congrArg List.length hp
      have hdigits := hds.length
      cases c with
      | elevation el =>
          simp [Command.payload, bytes] at hlen
          omega
      | queryElevation =>
          simp [Command.payload, bytes, byte] at hp
          have hz := hds.all 76 (by simp [← hp])
          exact absurd hz (by decide)
      | _ => simp [Command.payload, bytes, byte] at hp
  | both3 haz hel _ _ =>
      have hlen := congrArg List.length hp
      have hdigits := haz.length
      have hdigits' := hel.length
      cases c with
      | azimuthElevation az el =>
          simp [Command.payload, bytes] at hlen
          omega
      | _ => simp [Command.payload, bytes, byte] at hp
  | offset haz hel =>
      have hlen := congrArg List.length hp
      obtain ⟨_, _, _, _, rfl⟩ := haz.cases
      obtain ⟨_, _, _, _, rfl⟩ := hel.cases
      cases c with
      | offset az el =>
          simp [Command.payload, bytes] at hlen
          omega
      | _ => simp [Command.payload, bytes, byte] at hp
  | velocityLeft hs | velocityRight hs | velocityUp hs | velocityDown hs =>
      cases c with
      | velocityLeft speed | velocityRight speed | velocityUp speed | velocityDown speed =>
          -- the two letters agree for one of them only
          simp [Command.payload, bytes, byte] at hp <;>
            exact absurd (hp ▸ hs) hb.not_numeral
      | _ => simp [Command.payload, bytes, byte] at hp
  | writeConfig hs =>
      cases c with
      | writeConfig reg val =>
          simp [Command.payload, bytes] at hp
          exact absurd (hp ▸ hs) (hb.not_registerText _ _)
      | queryPosition =>
          simp [Command.payload, bytes] at hp
          exact absurd hs (hwrite _ (by rw [hp.1, hp.2]) _ _)
      | _ => simp [Command.payload, bytes, byte] at hp
  | readConfig hs =>
      cases c with
      | readConfig reg =>
          simp [Command.payload, bytes] at hp
          exact absurd (hp ▸ hs) hb.not_numeral
      | queryPosition =>
          simp [Command.payload, bytes] at hp
          exact absurd hs (hread _ (by rw [hp.1, hp.2]) _)
      | _ => simp [Command.payload, bytes, byte] at hp
  | statusRegister _ _ =>
      cases c with
      | queryStatus => rfl
      | getStatusRegister => rfl
      | _ => simp [Command.payload, bytes, byte] at hp
  | both _ h =>
      cases h with
      | @mk s t _ _ hs _ _ _ _ =>
          cases c with
          | queryAzimuth =>
              simp [Command.payload, bytes] at hp
              obtain ⟨a, s, rfl⟩ := List.exists_cons_of_ne_nil hs.ne_nil
              obtain rfl := List.head_eq_of_cons_eq hp
              exact absurd hs hb.not_angleText
          | azimuth az =>
              simp [Command.payload, bytes, byte, digits3] at hp
              exact absurd hp.1 (digit_ne (isDigit_digit _) (by decide))
          | _ => simp [Command.payload, bytes, byte] at hp
  | azimuth _ hs _ _ =>
      cases c with
      | queryAzimuth =>
          simp [Command.payload, bytes] at hp
          exact absurd (hp ▸ hs) hb.not_angleText
      | azimuth az =>
          simp [Command.payload, bytes, byte, digits3] at hp
          exact absurd hp.1 (digit_ne (isDigit_digit _) (by decide))
      | _ => simp [Command.payload, bytes, byte] at hp
  | elevation _ hs _ =>
      cases c with
      | queryElevation =>
          simp [Command.payload, bytes] at hp
          exact absurd (hp ▸ hs) hb.not_angleText
      | elevation el =>
          simp [Command.payload, bytes, byte, digits3] at hp
          exact absurd hp.1 (digit_ne (isDigit_digit _) (by decide))
      | _ => simp [Command.payload, bytes, byte] at hp

/-! ## Merged lines -/

/-- What is kept of a merged line still starts with its first payload. -/
theorem kept_merged {q w p : List UInt8} (hq : byte '*' ∉ q) (hw : w = [] ∨ Continues w)
    (hp : Kept (q ++ w) p) : ∃ v, p = q ++ v ∧ (v = [] ∨ Continues v) := by
  generalize hu : q ++ w = u at hp
  cases hp with
  | @cut p t _ _ =>
      have hsplit : ∃ v, p = q ++ v ∧ w = v ++ byte '*' :: t := by
        rcases List.append_eq_append_iff.mp hu with ⟨z, hz, hw'⟩ | ⟨z, hz, hw'⟩
        · exact ⟨z, hz, hw'⟩
        · cases z with
          | nil => exact ⟨[], by simpa using hz.symm, by simpa using hw'.symm⟩
          | cons a z =>
              obtain rfl := List.head_eq_of_cons_eq hw'
              exact absurd (by simp [hz]) hq
      obtain ⟨v, rfl, rfl⟩ := hsplit
      refine ⟨v, rfl, ?_⟩
      -- the star that cuts is behind the payload that continues, if there is one
      rcases hw with hw | hw
      · simp at hw
      · generalize hx : v ++ byte '*' :: t = x at hw
        cases hw with
        | star y =>
            cases v with
            | nil => exact .inl rfl
            | cons a v =>
                obtain rfl := List.head_eq_of_cons_eq hx
                exact .inr (.star v)
        | payload c y =>
            rcases List.append_eq_append_iff.mp hx with ⟨z, hz, hy⟩ | ⟨z, rfl, hy⟩
            · cases z with
              | nil =>
                  rw [List.append_nil] at hz
                  exact .inr (by simpa [hz] using Continues.payload c [])
              | cons a z =>
                  obtain rfl := List.head_eq_of_cons_eq hy
                  exact absurd (by simp [hz]) c.payload_plain.star_not_mem
            · exact .inr (.payload c z)
  | short _ _ => exact ⟨w, hu.symm, hw⟩
  | bare _ => exact ⟨w, hu.symm, hw⟩

/-- The frames of a merged line. -/
def mergedLine (g : List HostFrame) : List UInt8 := g.flatMap HostFrame.line

theorem mergedLine_continues (g : List HostFrame) : mergedLine g = [] ∨ Continues (mergedLine g) := by
  cases g with
  | nil => exact .inl rfl
  | cons f g =>
      rw [mergedLine, List.flatMap_cons, HostFrame.line]
      split
      · rw [Command.checkedPayload, List.append_assoc]
        exact .inr (.payload _ _)
      · exact .inr (.payload _ _)

/-- A merged line is read as its first command or as none. -/
theorem readCommand_mergedLine {f : HostFrame} {g : List HostFrame} {c : Command}
    (hacc : f.command.Accepted) (hoff : f.command.OffsetsFit)
    (h : readCommand (mergedLine (f :: g)) = some c) : c = f.command.received := by
  have hline : ∃ w, mergedLine (f :: g) = f.command.payload ++ w ∧ (w = [] ∨ Continues w) := by
    rw [mergedLine, List.flatMap_cons, ← mergedLine, HostFrame.line]
    split
    · rw [Command.checkedPayload, List.append_assoc]
      exact ⟨_, rfl, .inr (.star _)⟩
    · exact ⟨_, rfl, mergedLine_continues g⟩
  obtain ⟨w, hw, hcont⟩ := hline
  rw [hw] at h
  obtain ⟨p, hp, htext⟩ := readCommand_eq_some.mp h
  obtain ⟨v, rfl, hv⟩ := kept_merged f.command.payload_plain.star_not_mem hcont hp
  rcases hv with rfl | hv
  · rw [List.append_nil] at htext
    exact htext.unique (f.command.payload_text hacc hoff)
  · exact hv.text htext

/-- A line of frames is read as one of them, or not at all. -/
theorem readsFrames_commands : ReadsFrames HostFrame.line readCommand
    (fun f => f.command.received) fun f => f.command.Accepted ∧ f.command.OffsetsFit where
  one f hf := f.readCommand_line hf.1 hf.2
  merged g hg hne c hc := by
    obtain ⟨f, g, rfl⟩ := List.exists_cons_of_ne_nil hne
    obtain ⟨hacc, hoff⟩ := hg f List.mem_cons_self
    exact ⟨f, List.mem_cons_self, readCommand_mergedLine hacc hoff hc⟩

/-! ## The stream -/

/-- The bytes that arrive of the frames of a host. -/
def arrivedFrames (xs : List (Transmitted HostFrame)) : List UInt8 :=
  arrived HostFrame.line (fun _ => byte '\r') xs

/-- **Lost terminators.** Accepted commands are sent with or without their
checksums, and any of the terminators is lost, so that frames arrive as
one line; no such line is longer than the buffer. From each line the device
obtains one of the commands on it, or none, and the command if there is but
one; so nothing is obtained that was not sent, and the order is kept. -/
theorem lostTerminators_commands (xs : List (Transmitted HostFrame))
    (hroom : ∀ x ∈ xs, 23 ≤ x.frame.buf.length)
    (hacc : ∀ x ∈ xs, x.frame.command.Accepted)
    (hoff : ∀ x ∈ xs, x.frame.command.OffsetsFit)
    (hfits : ∀ l ∈ (splitLines isTerminator (arrivedFrames xs)).1, l.length ≤ maxCmdFrame) :
    (∀ x ∈ xs, x.frame.sent = .ok (.ok (x.frame.line ++ [byte '\r']))) ∧
    ∃ outs parser,
      feedAll CommandParser.feed CommandParser.new (arrivedFrames xs) = .ok (outs, parser) ∧
      Merged HostFrame.line readCommand (fun f => f.command.received) xs outs.reduceOption := by
  refine ⟨fun x hx => HostFrame.sent_eq (hacc x hx) (hroom x hx), ?_⟩
  obtain ⟨⟨outs, parser⟩, hfeed, houts, -⟩ := feedAll_commandsOf (arrivedFrames xs)
  have hlines : commandsOf (arrivedFrames xs)
      = (splitLines isTerminator (arrivedFrames xs)).1.filterMap readCommand := by
    rw [commandsOf_eq]
    refine List.filterMap_congr fun l hl => ?_
    rw [residue_of_le (hfits l hl)]
  have hread : outs.reduceOption = _ := houts.trans hlines
  refine ⟨outs, parser, hfeed, ?_⟩
  rw [hread]
  exact merged_lines readsFrames_commands (fun f => f.line_fits.1) (fun _ => rfl)
    fun x hx => ⟨hacc x hx, hoff x hx⟩

/-- A stop without its terminator, a query and a reset. -/
theorem lostTerminators_commands_three :
    ∃ outs parser,
      feedAll CommandParser.feed CommandParser.new
        (arrivedFrames [⟨⟨.stop, false, List.replicate 32 0⟩, false⟩,
          ⟨⟨.queryAzimuth, true, List.replicate 32 0⟩, true⟩,
          ⟨⟨.reset, true, List.replicate 32 0⟩, true⟩]) = .ok (outs, parser) ∧
      Merged HostFrame.line readCommand (fun f => f.command.received)
        [⟨⟨.stop, false, List.replicate 32 0⟩, false⟩,
          ⟨⟨.queryAzimuth, true, List.replicate 32 0⟩, true⟩,
          ⟨⟨.reset, true, List.replicate 32 0⟩, true⟩] outs.reduceOption :=
  (lostTerminators_commands [⟨⟨.stop, false, List.replicate 32 0⟩, false⟩,
    ⟨⟨.queryAzimuth, true, List.replicate 32 0⟩, true⟩,
    ⟨⟨.reset, true, List.replicate 32 0⟩, true⟩]
    (by decide) (by decide) (by simp [Command.OffsetsFit]) (by decide)).2

end Easycom
