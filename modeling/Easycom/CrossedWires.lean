import Easycom.AngleForms
import Easycom.LostTerminators

/-!
# Easycom — CrossedWires

What a device makes of the answers of another device on the same line. The
two languages overlap: the position of one axis, as it is reported, is the
command to go there, and a reported status register is a query of it. No
other response is heard as a command (`Response.readCommand_payload`), in a
stream of them either (`responses_heard`).
-/

namespace Easycom

open Rust Stream

/-- The command that a response is heard as. A position is written with
three digits, and heard as these. -/
def Response.heardAs : Response → Option Command
  | .azimuthPosition az => if az % 1000 ≤ 360 then some (.azimuth (az % 1000)) else none
  | .elevationPosition el => if el % 1000 ≤ 180 then some (.elevation (el % 1000)) else none
  | .statusRegister _ => some .getStatusRegister
  | .error => some .keepAlive
  | _ => none

/-- A text that is plain is read by its form. -/
theorem readCommand_of_text {p : List UInt8} (hp : Plain p) {c : Option Command}
    (h : ∀ d, CommandText p d ↔ c = some d) : readCommand p = c := by
  obtain ⟨r, hr, hspec⟩ := decodeStripped_spec p
  have hread := decodeCommand_kept (.bare hp.star_not_mem)
  rw [hr, decodeCommand_eq] at hread
  rw [Except.ok.inj hread]
  exact Option.ext fun d => (hspec d).trans (h d)

/-- A number of three digits with a fraction of one, behind a label. -/
theorem readCommand_reported {k : String} {f : UInt16 → Command} {bound : UInt16}
    (hk : k = "AZ" ∨ k = "EL")
    (hsingle : ∀ u c, SingleAxisText (bytes k ++ u) c ↔
      ∃ n, c = f n ∧ AngleText u n.toNat ∧ n ≤ bound) (n : UInt16) :
    readCommand (bytes k ++ digits3 n.toNat ++ bytes ".0")
      = if n % 1000 ≤ bound then some (f (n % 1000)) else none := by
  have hfraction : Fraction (bytes ".0") := .inr ⟨bytes "0", rfl, by simp [bytes, byte, isDigit]⟩
  have hread := decodeCommand_number hk hsingle (digits3_digits n.toNat) hfraction
  have hmod : UInt16.ofNat (n.toNat % 1000) = n % 1000 := by
    rw [← UInt16.ofNat_toNat (x := n % 1000), UInt16.toNat_mod]
    rfl
  rw [decodeCommand_eq, digitsValue_digits3, hmod] at hread
  rw [List.append_assoc, Except.ok.inj hread]
  simp only [UInt16.le_iff_toNat_le, UInt16.toNat_mod]
  rfl

/-- No keyword has a digit in it. -/
theorem keyword_no_digit {k : String} {c : Command} (hk : (k, c) ∈ keywords) {b : UInt8}
    (hb : b ∈ bytes k) : isDigit b = false := by
  have hall : ∀ x ∈ keywords, ∀ b ∈ bytes x.1, isDigit b = false := by
    simp [keywords, bytes, byte, isDigit]
  exact hall _ hk b hb

/-- A text that is plain and spells nothing is not heard. -/
theorem readCommand_eq_none {p : List UInt8} (hp : Plain p) (h : ∀ d, ¬ CommandText p d) :
    readCommand p = none := by
  refine readCommand_of_text hp fun d => ?_
  constructor
  · intro hd
    exact absurd hd (h d)
  · intro hd
    cases hd

/-- A position of both axes is not that of a command: there is an `=` where
an angle has its first digit. -/
theorem not_commandText_position (az el : UInt16) (d : Command) :
    ¬ CommandText (Response.position az el).payload d := by
  intro h
  have hequals : NoField (byte '=') := ⟨by decide, by decide, by decide⟩
  generalize hp : (Response.position az el).payload = p at h
  cases h with
  | keyword hk =>
      have hdigit := keyword_no_digit hk (b := digit az.toNat)
        (by simp [← hp, Response.payload, digits3])
      simp at hdigit
  | azimuth3 hds _ =>
      simp [Response.payload, bytes, byte] at hp
      exact absurd (hds.all 90 (by simp [← hp])) (by decide)
  | both _ h =>
      cases h with
      | mk hs _ _ _ _ =>
          simp [Response.payload, bytes] at hp
          obtain ⟨b, s, rfl⟩ := List.exists_cons_of_ne_nil hs.ne_nil
          obtain rfl := List.head_eq_of_cons_eq hp
          exact absurd hs hequals.not_angleText
  | azimuth _ hs _ _ =>
      simp [Response.payload, bytes] at hp
      exact absurd (hp ▸ hs) hequals.not_angleText
  | _ => simp [Response.payload, bytes, byte] at hp

theorem not_commandText_errorRegister (val : UInt16) (d : Command) :
    ¬ CommandText (Response.errorRegister val).payload d := by
  intro h
  generalize hp : (Response.errorRegister val).payload = p at h
  cases h with
  | keyword hk =>
      obtain ⟨b, hb⟩ := List.exists_mem_of_ne_nil _ (decimal_digits val.toNat).ne_nil
      have hdigit := keyword_no_digit hk (b := b) (by rw [← hp]; simp [Response.payload, hb])
      rw [(decimal_digits val.toNat).all b hb] at hdigit
      cases hdigit
  | both _ h =>
      cases h
      simp [Response.payload, bytes, byte] at hp
  | _ => simp [Response.payload, bytes, byte] at hp

/-- A value of the configuration is not the command that reads it, which has
no comma. -/
theorem not_commandText_configValue (reg : UInt16) (val : Int32) (d : Command) :
    ¬ CommandText (Response.configValue reg val).payload d := by
  intro h
  generalize hp : (Response.configValue reg val).payload = p at h
  cases h with
  | keyword hk =>
      obtain ⟨b, hb⟩ := List.exists_mem_of_ne_nil _ (decimal_digits reg.toNat).ne_nil
      have hdigit := keyword_no_digit hk (b := b) (by rw [← hp]; simp [Response.payload, hb])
      rw [(decimal_digits reg.toNat).all b hb] at hdigit
      cases hdigit
  | readConfig hs =>
      simp [Response.payload, bytes] at hp
      exact not_mem_numeral (c := byte ',') hs (by decide) (by decide) (by rw [← hp]; simp)
  | both _ h =>
      cases h
      simp [Response.payload, bytes, byte] at hp
  | _ => simp [Response.payload, bytes, byte] at hp

/-- **What is heard of a response.** -/
theorem Response.readCommand_payload (r : Response) : readCommand r.payload = r.heardAs := by
  cases r with
  | ack => decide
  | error => decide
  | status st => cases st <;> decide
  | position az el => exact readCommand_eq_none (payload_plain _) (not_commandText_position az el)
  | azimuthPosition az =>
      exact readCommand_reported (.inl rfl) (fun u c => singleAxisText_az) az
  | elevationPosition el =>
      exact readCommand_reported (.inr rfl) (fun u c => singleAxisText_el) el
  | statusRegister val =>
      refine readCommand_of_text (payload_plain _) fun d => ?_
      have htext : CommandText (Response.statusRegister val).payload .getStatusRegister :=
        .statusRegister (numeral_valid (decimal_numeral _)) (decimal_numeral _).ne_nil
      constructor
      · intro h
        rw [← htext.unique h]
        rfl
      · intro h
        cases h
        exact htext
  | errorRegister val =>
      exact readCommand_eq_none (payload_plain _) (not_commandText_errorRegister val)
  | configValue reg val =>
      exact readCommand_eq_none (payload_plain _) (not_commandText_configValue reg val)

/-- **A device hears another one.** The responses that a device sends, in
buffers with room for them, arrive at the `CommandParser` of another device:
it obtains every position of one axis that is in its range, as the command
to go there, a query for every status register and a keep-alive for every
error, and nothing for any other response. -/
theorem responses_heard (rs : List Response) :
    (∀ r ∈ rs, ∀ buf : List UInt8, 32 ≤ buf.length → r.sent buf = .ok r.frame) ∧
    ∃ outs parser,
      feedAll CommandParser.feed CommandParser.new (rs.flatMap Response.frame)
        = .ok (outs, parser) ∧
      outs.reduceOption = rs.filterMap Response.heardAs ∧
      parser.len = 0 := by
  refine ⟨fun r _ buf hbuf => Response.sent_eq hbuf, ?_⟩
  have hvalid : ∀ x ∈ rs.map fun r => (⟨r.payload, [r.terminator]⟩ : EndedLine), x.Valid := by
    intro x hx
    obtain ⟨r, -, rfl⟩ := List.mem_map.mp hx
    exact ⟨r.payload_plain.is_open, by simp,
      List.forall_mem_singleton.mpr r.terminator_isTerminator⟩
  have hstream : streamOf (rs.map fun r => (⟨r.payload, [r.terminator]⟩ : EndedLine))
      = rs.flatMap Response.frame := by
    rw [streamOf, List.flatMap_map]
    rfl
  obtain ⟨outs, parser, hfeed, houts, hempty⟩ := feedAll_streamOf hvalid
  refine ⟨outs, parser, hstream ▸ hfeed, ?_, hempty⟩
  rw [houts, List.filterMap_map]
  refine List.filterMap_congr fun r _ => ?_
  have hlen := r.payload_length_le
  show readCommand (residue maxCmdFrame r.payload) = _
  rw [residue_of_le (by rw [maxCmdFrame]; omega), r.readCommand_payload]

example : [Response.status .moving, .azimuthPosition 90, .azimuthPosition 400].filterMap
    Response.heardAs = [.azimuth 90] := rfl

end Easycom
