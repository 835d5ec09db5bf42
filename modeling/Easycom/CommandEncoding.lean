import Easycom.Frames

/-!
# Easycom — CommandEncoding

What the frame of a command says about it. Two accepted commands are
written alike only where they are one for the device, or where they are
offsets that agree in sign and modulo 1000 (`Command.payload_eq_iff`): the
three-digit writer drops what does not fit, and of all parameters only the
offsets are not checked first (`neverAltered_iff`). In the other direction,
what a device decodes is always in range and has a frame of its own
(`decoded_wellFormed`). The frame is that of the protocol's tables
(`encoders_write_frame`).
-/

namespace Easycom

open Rust

/-! ## Commands with one frame -/

/-- Two numbers that a sign and three digits do not tell apart. -/
def SameField (m n : Int) : Prop :=
  (0 ≤ m ↔ 0 ≤ n) ∧ m.natAbs % 1000 = n.natAbs % 1000

theorem signed3_eq_iff {m n : Int} : signed3 m = signed3 n ↔ SameField m n := by
  rw [signed3, signed3, List.cons.injEq, digits3_eq_iff, SameField]
  refine and_congr_left fun _ => ?_
  by_cases hm : 0 ≤ m <;> by_cases hn : 0 ≤ n <;> simp [hm, hn, byte]

/-- Offsets that fit the wire are told apart. -/
theorem SameField.eq {m n : Int} (h : SameField m n) (hm : -999 ≤ m ∧ m ≤ 999)
    (hn : -999 ≤ n ∧ n ≤ 999) : m = n := by
  obtain ⟨hsign, hmod⟩ := h
  rw [Nat.mod_eq_of_lt (by omega), Nat.mod_eq_of_lt (by omega)] at hmod
  omega

theorem Command.payload_received (c : Command) : c.received.payload = c.payload := by
  cases c <;> rfl

/-- Only offsets start with an O. -/
theorem Command.payload_head {c : Command} {s : List UInt8}
    (h : c.payload = byte 'O' :: s) : ∃ az el, c = .offset az el := by
  cases c with
  | offset az el => exact ⟨az, el, rfl⟩
  | _ => simp [payload, bytes, byte] at h

/-- **When two accepted commands have one frame.** -/
theorem Command.payload_eq_iff {c d : Command} (hc : c.Accepted) (hd : d.Accepted) :
    c.payload = d.payload ↔ c.received = d.received ∨
      ∃ az el az' el', c = .offset az el ∧ d = .offset az' el' ∧
        SameField az.toInt az'.toInt ∧ SameField el.toInt el'.toInt := by
  constructor
  · intro h
    by_cases hoff : ∃ az el, c = .offset az el
    · obtain ⟨az, el, rfl⟩ := hoff
      obtain ⟨az', el', rfl⟩ := payload_head h.symm
      simp only [payload, List.append_assoc, List.append_cancel_left_eq] at h
      obtain ⟨haz, hel⟩ := List.append_inj h (by simp)
      exact .inr ⟨az, el, az', el', rfl, rfl, signed3_eq_iff.mp haz, signed3_eq_iff.mp hel⟩
    · have hoff' : ¬ ∃ az el, d = .offset az el := by
        rintro ⟨az, el, rfl⟩
        exact hoff (payload_head h)
      have hfit : ∀ e : Command, (¬ ∃ az el, e = .offset az el) → e.OffsetsFit := by
        intro e he
        cases e with
        | offset az el => exact absurd ⟨az, el, rfl⟩ he
        | _ => trivial
      -- both are read back from the one frame
      have htext := Command.payload_text hc (hfit c hoff)
      rw [h] at htext
      exact .inl (htext.unique (Command.payload_text hd (hfit d hoff')))
  · rintro (h | ⟨az, el, az', el', rfl, rfl, haz, hel⟩)
    · rw [← c.payload_received, h, d.payload_received]
    · rw [payload, payload, signed3_eq_iff.mpr haz, signed3_eq_iff.mpr hel]

/-! ## Altered parameters -/

/-- The parameters of a command fit the digits that the wire has for them. -/
def Command.Representable : Command → Prop
  | .azimuth az => az ≤ 999
  | .elevation el => el ≤ 999
  | .azimuthElevation az el => az ≤ 999 ∧ el ≤ 999
  | c => c.OffsetsFit

theorem Command.received_eq (c : Command) :
    c.received = if c = .queryStatus then .getStatusRegister else c := by
  cases c <;> rfl

theorem Command.received_eq_iff {c d : Command} :
    c.received = d.received ↔ c = d ∨ (c = .queryStatus ∧ d = .getStatusRegister) ∨
      (c = .getStatusRegister ∧ d = .queryStatus) := by
  rw [received_eq, received_eq]
  split_ifs with hc hd hd
  · simp [hc, hd]
  · simp [hc, Ne.symm hd, eq_comm]
  · simp [hc, hd]
  · simp [hc, hd]

/-- The encoder never rejects an offset. -/
theorem fits_of_rejected {c : Command} {buf : List UInt8} (hroom : 20 ≤ buf.length)
    (h : ¬ c.Representable → ∃ msg, encodeInto c buf = .ok (.error msg, buf)) :
    c.OffsetsFit := by
  cases c with
  | offset az el =>
      by_contra hfit
      obtain ⟨msg, hmsg⟩ := h hfit
      have hacc : (Command.offset az el).Accepted := trivial
      rw [encodeInto_accepted hacc hroom] at hmsg
      cases hmsg
  | _ => trivial

/-- It rejects every angle that does not fit. -/
theorem rejected_of_fits {c : Command} (hfit : c.OffsetsFit) (buf : List UInt8)
    (h : ¬ c.Representable) : ∃ msg, encodeInto c buf = .ok (.error msg, buf) := by
  refine encodeInto_rejected (fun hacc => h ?_) buf
  have hle : ∀ {v w : UInt16}, v ≤ w → w ≤ 999 → v ≤ 999 := fun h h' => UInt16.le_trans h h'
  cases c with
  | azimuth az | elevation az => exact hle hacc (by decide)
  | azimuthElevation az el => exact ⟨hle hacc.1 (by decide), hle hacc.2 (by decide)⟩
  | _ => exact hfit

/-- **When no parameter is altered.** Two commands that are encoded are
never written alike (but for the two queries of the status register), and a
parameter the wire cannot hold is rejected, exactly where the offsets are
within three digits: these are not checked. -/
theorem neverAltered_iff (c d : Command) (buf buf' : List UInt8) (hroom : 20 ≤ buf.length)
    (hroom' : 20 ≤ buf'.length) :
    ((∀ n m out out', encodeInto c buf = .ok (.ok n, out) →
        encodeInto d buf' = .ok (.ok m, out') → out.take n = out'.take m →
        c = d ∨ (c = .queryStatus ∧ d = .getStatusRegister) ∨
          (c = .getStatusRegister ∧ d = .queryStatus)) ∧
      (¬ c.Representable → ∃ msg, encodeInto c buf = .ok (.error msg, buf)) ∧
      (¬ d.Representable → ∃ msg, encodeInto d buf' = .ok (.error msg, buf'))) ↔
    c.OffsetsFit ∧ d.OffsetsFit := by
  constructor
  · rintro ⟨-, hc, hd⟩
    exact ⟨fits_of_rejected hroom hc, fits_of_rejected hroom' hd⟩
  · rintro ⟨hc, hd⟩
    refine ⟨?_, rejected_of_fits hc buf, rejected_of_fits hd buf'⟩
    intro n m out out' henc henc' hout
    obtain ⟨hacc, -, hframe⟩ := encodeInto_ok hroom henc
    obtain ⟨hacc', -, hframe'⟩ := encodeInto_ok hroom' henc'
    rw [hframe, hframe', List.append_cancel_right_eq, Command.payload_eq_iff hacc hacc'] at hout
    rcases hout with h | ⟨az, el, az', el', rfl, rfl, haz, hel⟩
    · exact Command.received_eq_iff.mp h
    · have haz' := Int16.toInt_inj.mp (haz.eq hc.1 hd.1)
      have hel' := Int16.toInt_inj.mp (hel.eq hc.2 hd.2)
      exact .inl (by rw [haz', hel'])

/-- The criterion on two offsets of one degree's difference. -/
theorem neverAltered_iff_offsets :
    ((∀ n m out out', encodeInto (.offset 10 (-5)) (List.replicate 32 0) = .ok (.ok n, out) →
        encodeInto (.offset 10 (-6)) (List.replicate 32 0) = .ok (.ok m, out') →
        out.take n = out'.take m →
        Command.offset 10 (-5) = .offset 10 (-6) ∨
          (Command.offset 10 (-5) = .queryStatus ∧ Command.offset 10 (-6) = .getStatusRegister) ∨
          (Command.offset 10 (-5) = .getStatusRegister ∧ Command.offset 10 (-6) = .queryStatus)) ∧
      (¬ (Command.offset 10 (-5)).Representable →
        ∃ msg, encodeInto (.offset 10 (-5)) (List.replicate 32 0)
          = .ok (.error msg, List.replicate 32 0)) ∧
      (¬ (Command.offset 10 (-6)).Representable →
        ∃ msg, encodeInto (.offset 10 (-6)) (List.replicate 32 0)
          = .ok (.error msg, List.replicate 32 0))) ↔
    (Command.offset 10 (-5)).OffsetsFit ∧ (Command.offset 10 (-6)).OffsetsFit :=
  neverAltered_iff _ _ _ _ (by simp) (by simp)

/-- An offset of a thousand degrees is written as an offset of none. -/
theorem offset_altered :
    Command.offset 1000 0 ≠ .offset 0 0 ∧ ¬ (Command.offset 1000 0).Representable ∧
    encodeInto (.offset 1000 0) (List.replicate 32 0)
      = .ok (.ok 10, bytes "O+000+000\r" ++ List.replicate 22 0) ∧
    encodeInto (.offset 0 0) (List.replicate 32 0)
      = .ok (.ok 10, bytes "O+000+000\r" ++ List.replicate 22 0) := by
  refine ⟨by decide, ?_, by decide, by decide⟩
  intro h
  exact absurd h.1.2 (by decide)

/-! ## What a device obtains -/

theorem SignedField3.bounds {ds : List UInt8} {v : Int} (h : SignedField3 ds v) :
    -999 ≤ v ∧ v ≤ 999 := by
  cases h with
  | plus h | minus h =>
      have := h.lt
      omega

/-- A text spells a command in range, and never the other status query. -/
theorem CommandText.wellFormed {p : List UInt8} {c : Command} (h : CommandText p c) :
    c ≠ .queryStatus ∧ c.Accepted ∧ c.OffsetsFit := by
  cases h with
  | keyword h =>
      have hall : ∀ kc ∈ keywords, kc.2 ≠ .queryStatus ∧ kc.2.Accepted := by decide
      obtain ⟨hne, hacc⟩ := hall _ h
      refine ⟨hne, hacc, ?_⟩
      cases c with
      | offset az el => simp [keywords] at h
      | _ => trivial
  | azimuth3 _ hle | elevation3 _ hle | azimuth _ _ hle | elevation _ _ hle =>
      exact ⟨by simp, hle, trivial⟩
  | both3 _ _ haz hel => exact ⟨by simp, ⟨haz, hel⟩, trivial⟩
  | both _ h =>
      cases h with
      | mk _ _ _ haz hel => exact ⟨by simp, ⟨haz, hel⟩, trivial⟩
  | offset haz hel => exact ⟨by simp, trivial, haz.bounds, hel.bounds⟩
  | velocityLeft | velocityRight | velocityUp | velocityDown | writeConfig | readConfig
    | statusRegister => exact ⟨by simp, trivial, trivial⟩

/-- **Whatever the host sends, the device obtains a command in range, in a
normal form**: its angles and offsets are within the limits, and the frame
`encode_into` writes for it, at most twenty bytes long, is decoded to it
again. -/
theorem decoded_wellFormed (frame : List UInt8) (c : Command)
    (h : decodeCommand frame = .ok (some c)) (buf : List UInt8) (hroom : 20 ≤ buf.length) :
    c ≠ .queryStatus ∧ c.Accepted ∧ c.OffsetsFit ∧
    ∃ n out, encodeInto c buf = .ok (.ok n, out) ∧ n ≤ 20 ∧
      out.take n = out.take (n - 1) ++ [byte '\r'] ∧
      decodeCommand (out.take (n - 1)) = .ok (some c) := by
  rw [decodeCommand_eq, Except.ok.injEq, readCommand_eq_some] at h
  obtain ⟨p, -, htext⟩ := h
  obtain ⟨hne, hacc, hfit⟩ := htext.wellFormed
  have hlen := c.payload_length_le
  have hrec : c.received = c := by
    cases c with
    | queryStatus => exact absurd rfl hne
    | _ => rfl
  have hread := readCommand_payload hacc hfit
  rw [hrec] at hread
  refine ⟨hne, hacc, hfit, _, _, encodeInto_accepted hacc hroom, by omega, ?_, ?_⟩
  · rw [take_filled_concat, Nat.add_sub_cancel, take_filled_append]
  · rw [Nat.add_sub_cancel, take_filled_append, decodeCommand_eq, hread]

/-- A set of both axes in Easycomm's spelling comes back in that of GS-232. -/
theorem decoded_wellFormed_combined :
    Command.azimuthElevation 180 45 ≠ .queryStatus ∧
    (Command.azimuthElevation 180 45).Accepted ∧ (Command.azimuthElevation 180 45).OffsetsFit ∧
    ∃ n out, encodeInto (.azimuthElevation 180 45) (List.replicate 32 0) = .ok (.ok n, out) ∧
      n ≤ 20 ∧ out.take n = out.take (n - 1) ++ [byte '\r'] ∧
      decodeCommand (out.take (n - 1)) = .ok (some (.azimuthElevation 180 45)) :=
  decoded_wellFormed (bytes "AZ180.7 EL+45*00") _ (by decide) _ (by simp)

/-! ## The documented frames -/

/-- A sign and three digits. -/
def OffsetField (s : List UInt8) (n : Int) : Prop :=
  ∃ ds, Field3 ds n.natAbs ∧ s = (if 0 ≤ n then byte '+' else byte '-') :: ds

/-- A decimal without leading zeros, with a minus in front of a negative. -/
def CanonicalInt (s : List UInt8) (n : Int) : Prop :=
  ∃ ds, Canonical ds n.natAbs ∧ s = if n < 0 then byte '-' :: ds else ds

/-- The frames of the protocol's tables, without their CR. -/
def Command.Documented : Command → List UInt8 → Prop
  | .azimuth az, p => ∃ ds, Field3 ds az.toNat ∧ p = bytes "A" ++ ds
  | .elevation el, p => ∃ ds, Field3 ds el.toNat ∧ p = bytes "E" ++ ds
  | .azimuthElevation az el, p => ∃ ds es, Field3 ds az.toNat ∧ Field3 es el.toNat ∧
      p = bytes "W" ++ ds ++ bytes " " ++ es
  | .queryPosition, p => p = bytes "C"
  | .queryAzimuth, p => p = bytes "AZ"
  | .queryElevation, p => p = bytes "EL"
  | .queryStatus, p => p = bytes "GS"
  | .stop, p => p = bytes "S"
  | .keepAlive, p => p = bytes "?"
  | .offset az el, p => ∃ s t, OffsetField s az.toInt ∧ OffsetField t el.toInt ∧
      p = bytes "O" ++ s ++ t
  | .velocityLeft speed, p => ∃ ds, Canonical ds speed.toNat ∧ p = bytes "VL" ++ ds
  | .velocityRight speed, p => ∃ ds, Canonical ds speed.toNat ∧ p = bytes "VR" ++ ds
  | .velocityUp speed, p => ∃ ds, Canonical ds speed.toNat ∧ p = bytes "VU" ++ ds
  | .velocityDown speed, p => ∃ ds, Canonical ds speed.toNat ∧ p = bytes "VD" ++ ds
  | .getStatusRegister, p => p = bytes "GS"
  | .getErrorRegister, p => p = bytes "GE"
  | .readConfig reg, p => ∃ ds, Canonical ds reg.toNat ∧ p = bytes "CR" ++ ds
  | .writeConfig register value, p => ∃ ds s, Canonical ds register.toNat ∧
      CanonicalInt s value.toInt ∧ p = bytes "CW" ++ ds ++ bytes "," ++ s
  | .reset, p => p = bytes "RESET"
  | .park, p => p = bytes "PARK"

theorem offsetField_signed3 {n : Int} (h : -999 ≤ n ∧ n ≤ 999) : OffsetField (signed3 n) n :=
  ⟨_, field3_digits3 (by omega), rfl⟩

theorem canonicalInt_decimalInt (n : Int) : CanonicalInt (decimalInt n) n :=
  ⟨_, decimal_canonical _, rfl⟩

/-- **The payload is the documented frame**, where the wire holds the
command. -/
theorem Command.payload_documented {c : Command} (hc : c.Accepted) (hfit : c.OffsetsFit) :
    c.Documented c.payload := by
  have h360 : (360 : UInt16).toNat = 360 := rfl
  have h180 : (180 : UInt16).toNat = 180 := rfl
  cases c with
  | azimuth az =>
      have hle := UInt16.le_iff_toNat_le.mp hc
      exact ⟨_, field3_digits3 (by omega), rfl⟩
  | elevation el =>
      have hle := UInt16.le_iff_toNat_le.mp hc
      exact ⟨_, field3_digits3 (by omega), rfl⟩
  | azimuthElevation az el =>
      have haz := UInt16.le_iff_toNat_le.mp hc.1
      have hel := UInt16.le_iff_toNat_le.mp hc.2
      exact ⟨_, _, field3_digits3 (by omega), field3_digits3 (by omega), rfl⟩
  | offset az el =>
      exact ⟨_, _, offsetField_signed3 hfit.1, offsetField_signed3 hfit.2, rfl⟩
  | velocityLeft speed | velocityRight speed | velocityUp speed | velocityDown speed
    | readConfig reg => exact ⟨_, decimal_canonical _, rfl⟩
  | writeConfig register value =>
      exact ⟨_, _, decimal_canonical _, canonicalInt_decimalInt _, rfl⟩
  | queryPosition | queryAzimuth | queryElevation | queryStatus | stop | keepAlive
    | getStatusRegister | getErrorRegister | reset | park => rfl

/-- A digit from 0 to 9, or a letter from A to F. -/
def UpperHex (b : UInt8) : Prop :=
  48 ≤ b.toNat ∧ b.toNat ≤ 57 ∨ 65 ≤ b.toNat ∧ b.toNat ≤ 70

instance (b : UInt8) : Decidable (UpperHex b) := inferInstanceAs (Decidable (_ ∨ _))

/-- The digits of a checksum are upper-case hexadecimal and spell it. -/
theorem checksumSuffix_upper (v : UInt8) :
    ∃ hi lo, checksumSuffix v = [byte '*', hi, lo] ∧ UpperHex hi ∧ UpperHex lo ∧
      hexByte hi lo = some v := by
  have hupper : ∀ n < 16, UpperHex (hexDigits.getD n 0) := by decide
  obtain ⟨i, j, hi, hj, hsuffix, hsum⟩ := checksumSuffix_table v
  exact ⟨_, _, hsuffix, hupper i hi, hupper j hj, hsum⟩

/-- **The encoders write the documented frame and nothing else.** A command
with an angle out of range is an error and leaves the buffer as it was. Any
other is written over the front of the buffer, the rest of which is kept;
the checksum is the XOR of all bytes of the payload, in upper case. -/
theorem encoders_write_frame (c : Command) (hfit : c.OffsetsFit) (buf : List UInt8)
    (hroom : 20 ≤ buf.length) :
    (¬ c.Accepted → ∃ msg, encodeInto c buf = .ok (.error msg, buf)) ∧
    (¬ c.Accepted → 23 ≤ buf.length →
      ∃ msg, encodeWithChecksum c buf = .ok (.error msg, buf)) ∧
    (c.Accepted → ∃ n payload, c.Documented payload ∧ Plain payload ∧
      n = payload.length + 1 ∧ 2 ≤ n ∧ n ≤ 20 ∧
      encodeInto c buf = .ok (.ok n, filled buf (payload ++ [byte '\r'])) ∧
      (23 ≤ buf.length → ∃ hi lo, UpperHex hi ∧ UpperHex lo ∧
        hexByte hi lo = some (payload.foldl (· ^^^ ·) 0) ∧
        encodeWithChecksum c buf
          = .ok (.ok (n + 3), filled buf (payload ++ [byte '*', hi, lo] ++ [byte '\r'])))) := by
  refine ⟨fun hc => encodeInto_rejected hc buf, fun hc _ => encodeWithChecksum_rejected hc buf,
    fun hc => ?_⟩
  have hlen := c.payload_length_le
  have hpos : 0 < c.payload.length := List.length_pos_iff.mpr c.payload_ne_nil
  refine ⟨_, c.payload, Command.payload_documented hc hfit, c.payload_plain, rfl, by omega,
    by omega, encodeInto_accepted hc hroom, fun hroom' => ?_⟩
  obtain ⟨hi, lo, hsuffix, hhi, hlo, hsum⟩ := checksumSuffix_upper (xorChecksum c.payload)
  refine ⟨hi, lo, hhi, hlo, hsum, ?_⟩
  rw [encodeWithChecksum_accepted hc hroom', Command.checkedPayload, hsuffix,
    List.length_append]
  rfl

/-- The longest command, over a buffer of noise. -/
theorem encoders_write_frame_longest :
    ∃ n payload, (Command.writeConfig 65535 Int32.minValue).Documented payload ∧
      Plain payload ∧ n = payload.length + 1 ∧ 2 ≤ n ∧ n ≤ 20 ∧
      encodeInto (.writeConfig 65535 Int32.minValue) (List.replicate 23 0xFF)
        = .ok (.ok n, filled (List.replicate 23 0xFF) (payload ++ [byte '\r'])) ∧
      (23 ≤ (List.replicate 23 (0xFF : UInt8)).length → ∃ hi lo, UpperHex hi ∧
        UpperHex lo ∧ hexByte hi lo = some (payload.foldl (· ^^^ ·) 0) ∧
        encodeWithChecksum (.writeConfig 65535 Int32.minValue) (List.replicate 23 0xFF)
          = .ok (.ok (n + 3), filled (List.replicate 23 0xFF)
            (payload ++ [byte '*', hi, lo] ++ [byte '\r']))) :=
  (encoders_write_frame (.writeConfig 65535 Int32.minValue) trivial (List.replicate 23 0xFF)
    (by decide)).2.2 trivial

end Easycom
