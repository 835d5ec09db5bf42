import Easycom.ResponseChecksum

/-!
# Easycom — ResponseReencoding

A response that was decoded, encoded again. The encoder writes angles
modulo 1000 (`decode_frame`), and of the decoder's rules only the
single-axis ones read larger angles (`wideAxis_iff`); every other decoded
response survives (`reencode_iff`).
-/

namespace Easycom

open Rust Stream

/-! ## What the encoder keeps -/

/-- The response a host obtains: of the angles, the last three digits. -/
def Response.received : Response → Response
  | .position az el => .position (az % 1000) (el % 1000)
  | .azimuthPosition az => .azimuthPosition (az % 1000)
  | .elevationPosition el => .elevationPosition (el % 1000)
  | r => r

theorem toNat_mod_thousand (n : UInt16) : (n % 1000).toNat = n.toNat % 1000 := by
  rw [UInt16.toNat_mod]
  rfl

theorem Response.payload_received (r : Response) : r.received.payload = r.payload := by
  have hfield : ∀ n : UInt16, digits3 (n % 1000).toNat = digits3 n.toNat := fun n =>
    digits3_eq_iff.mpr (by rw [toNat_mod_thousand, Nat.mod_mod])
  cases r <;> simp only [received, payload, hfield]

theorem mod_thousand_le (n : UInt16) : n % 1000 ≤ 999 := by
  have h999 : (999 : UInt16).toNat = 999 := rfl
  rw [UInt16.le_iff_toNat_le, toNat_mod_thousand]
  omega

theorem mod_thousand_eq_iff {n : UInt16} : n % 1000 = n ↔ n ≤ 999 := by
  have h999 : (999 : UInt16).toNat = 999 := rfl
  rw [← UInt16.toNat_inj, UInt16.le_iff_toNat_le, toNat_mod_thousand]
  omega

theorem Response.received_inRange (r : Response) : r.received.InRange := by
  cases r with
  | position az el => exact ⟨mod_thousand_le az, mod_thousand_le el⟩
  | azimuthPosition az => exact mod_thousand_le az
  | elevationPosition el => exact mod_thousand_le el
  | _ => trivial

theorem Response.received_eq_iff {r : Response} : r.received = r ↔ r.InRange := by
  cases r with
  | position az el =>
      rw [received, position.injEq, mod_thousand_eq_iff, mod_thousand_eq_iff, InRange]
  | azimuthPosition az => rw [received, azimuthPosition.injEq, mod_thousand_eq_iff, InRange]
  | elevationPosition el =>
      rw [received, elevationPosition.injEq, mod_thousand_eq_iff, InRange]
  | _ => exact ⟨fun _ => trivial, fun _ => rfl⟩

/-- **What any response is decoded to from its own frame.** -/
theorem decode_frame (r : Response) : decode r.frame = .ok (.ok r.received) := by
  rw [Response.frame, decode_plain_line r.payload_plain r.terminator_isTerminator,
    ← r.payload_received]
  exact decodePayload_complete (Response.payload_text r.received_inRange)

theorem sent_decoded_iff {r : Response} {buf : List UInt8} (hroom : 32 ≤ buf.length) :
    (∃ frame, r.sent buf = .ok frame ∧ decode frame = .ok (.ok r)) ↔ r.InRange := by
  rw [← Response.received_eq_iff]
  constructor
  · rintro ⟨frame, hsent, hdec⟩
    rw [Response.sent_eq hroom, Except.ok.injEq] at hsent
    rw [← hsent, decode_frame, Except.ok.injEq, Except.ok.injEq] at hdec
    exact hdec
  · intro h
    refine ⟨r.frame, Response.sent_eq hroom, ?_⟩
    rw [decode_frame, h]

/-! ## What the decoder reads -/

/-- The frame carries the payload, alone or with its checksum. -/
inductive Carries : List UInt8 → List UInt8 → Prop where
  | plain {f : List UInt8} (hun : Unmarked f) : Carries f f
  | checked {p t : List UInt8} {h l : UInt8} (hun : Unmarked (h :: l :: t))
      (hsum : hexByte h l = some (xorChecksum p)) : Carries (p ++ byte '*' :: h :: l :: t) p

theorem frameText_iff {f : List UInt8} {r : Response} :
    FrameText f r ↔ ∃ p, Carries f p ∧ ResponseText p r := by
  constructor
  · intro h
    cases h with
    | plain hun hr => exact ⟨f, .plain hun, hr⟩
    | checked hun hsum hr => exact ⟨_, .checked hun hsum, hr⟩
  · rintro ⟨p, hp, hr⟩
    cases hp with
    | plain hun => exact .plain hun hr
    | checked hun hsum => exact .checked hun hsum hr

/-- One axis alone, with an angle of more than three digits. -/
inductive WideAxis : List UInt8 → Prop where
  | mk {label s : List UInt8} {v : Nat} (hlabel : label = bytes "AZ" ∨ label = bytes "EL")
      (hv : Utf8.Valid s) (h : AxisText s v) (hwide : 999 < v) (hfit : v ≤ 65535)
      (hone : ∀ a e, ¬ PositionText (label ++ s) a e) : WideAxis (label ++ s)

/-- Three bytes spell no more than 999. -/
theorem LabelledText.le {label p : List UInt8} {v : Nat} (h : LabelledText label p v) :
    v ≤ 999 := by
  cases h with
  | mk hlen hnum =>
      have hlt := hnum.lt
      rw [hlen] at hlt
      omega

/-- **Only the single-axis rules read what does not fit the wire.** -/
theorem wideAxis_iff {p : List UInt8} :
    WideAxis p ↔ ∃ r, ResponseText p r ∧ ¬ r.InRange := by
  have h999 : (999 : UInt16).toNat = 999 := rfl
  constructor
  · intro h
    cases h with
    | @mk label s v hlabel hv h hwide hfit hone =>
        have hval := toNat_ofNat_of_le (b := 65535) hfit
        have hout : ¬ UInt16.ofNat v ≤ 999 := by
          rw [UInt16.le_iff_toNat_le]
          omega
        rw [← hval] at h
        rcases hlabel with rfl | rfl
        · exact ⟨_, .azimuth hv h hone, hout⟩
        · exact ⟨_, .elevation hv h hone, hout⟩
  · rintro ⟨r, hr, hout⟩
    cases hr with
    | @position p az el h =>
        have haz := h.az.le
        have hel := h.el.le
        refine absurd ⟨?_, ?_⟩ hout <;> (rw [UInt16.le_iff_toNat_le]; omega)
    | @azimuth s az hv h hone =>
        have hlt := az.toNat_lt
        rw [Response.InRange, UInt16.le_iff_toNat_le] at hout
        exact .mk (.inl rfl) hv h (by omega) (by omega) hone
    | @elevation s el hv h hone =>
        have hlt := el.toNat_lt
        rw [Response.InRange, UInt16.le_iff_toNat_le] at hout
        exact .mk (.inr rfl) hv h (by omega) (by omega) hone
    | _ => exact absurd trivial hout

/-! ## Decoded and encoded again -/

/-- The empty frame is an acknowledgement. -/
theorem frameText_nil {r : Response} (h : FrameText [] r) : r = .ack := by
  have hack := decodeTrimmed_eq_ok.mpr h
  rw [show decodeTrimmed [] = .ok (.ok .ack) from rfl] at hack
  exact (Except.ok.inj (Except.ok.inj hack)).symm

/-- **When re-encoding changes nothing.** It changes nothing unless the
frame carries one axis with an angle above 999. -/
theorem reencode_iff (input : List UInt8) :
    (∀ r, decode input = .ok (.ok r) → ∀ buf : List UInt8, buf.length = 32 →
      ∃ frame, r.sent buf = .ok frame ∧ decode frame = .ok (.ok r)) ↔
    ¬ ∃ p, Carries (input.rdropWhile isTerminator) p ∧ WideAxis p := by
  have hdec : ∀ r, decode input = .ok (.ok r) ↔
      input ≠ [] ∧ FrameText (input.rdropWhile isTerminator) r := by
    intro r
    rw [decode_eq_read, Except.ok.injEq, readResponse_eq_ok]
  constructor
  · rintro hall ⟨p, hp, hwide⟩
    obtain ⟨r, hr, hout⟩ := wideAxis_iff.mp hwide
    have hframe := frameText_iff.mpr ⟨p, hp, hr⟩
    have hne : input ≠ [] := by
      rintro rfl
      rw [frameText_nil hframe] at hout
      exact hout trivial
    have hsent := hall r ((hdec r).mpr ⟨hne, hframe⟩) (List.replicate 32 0) List.length_replicate
    exact hout ((sent_decoded_iff (by simp)).mp hsent)
  · intro hno r hr buf hbuf
    refine (sent_decoded_iff (by omega)).mpr ?_
    by_contra hout
    obtain ⟨p, hp, hr⟩ := frameText_iff.mp ((hdec r).mp hr).2
    exact hno ⟨p, hp, wideAxis_iff.mpr ⟨r, hr, hout⟩⟩

/-- `AZ=1234` is decoded to 1234 degrees, and re-encoded to 234. -/
theorem reencoded_changed :
    decode (bytes "AZ=1234" ++ [byte '\r']) = .ok (.ok (.azimuthPosition 1234)) ∧
    ¬ ∀ r, decode (bytes "AZ=1234" ++ [byte '\r']) = .ok (.ok r) →
      ∀ buf : List UInt8, buf.length = 32 →
        ∃ frame, r.sent buf = .ok frame ∧ decode frame = .ok (.ok r) := by
  have hdec : decode (bytes "AZ=1234" ++ [byte '\r']) = .ok (.ok (.azimuthPosition 1234)) := by
    decide
  refine ⟨hdec, fun hall => ?_⟩
  obtain ⟨frame, hsent, hback⟩ := hall _ hdec (List.replicate 32 0) (by decide)
  have hframe : (Response.azimuthPosition 1234).sent (List.replicate 32 0)
      = .ok (bytes "AZ234.0" ++ [byte '\n']) := by decide
  have hlost : decode (bytes "AZ234.0" ++ [byte '\n']) = .ok (.ok (.azimuthPosition 234)) := by
    decide
  rw [hframe, Except.ok.injEq] at hsent
  rw [← hsent, hlost] at hback
  revert hback
  decide

end Easycom
