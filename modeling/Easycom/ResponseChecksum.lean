import Easycom.Frames

/-!
# Easycom — ResponseChecksum

The checksum of a response line. Behind a payload without a star it is
verified, and a frame that passes is decoded as the payload alone
(`checksum_transparent`). On lines with any stars the decoder is more
lenient than the format: it looks for the last star with two bytes behind
it, wherever that is, and ignores what follows the two bytes
(`star_final_iff`).
-/

namespace Easycom

open Rust Stream

variable {p : List UInt8} {h l t : UInt8}

/-! ## Payloads without a star -/

theorem decode_plain_line (hp : Plain p) (ht : isTerminator t = true) :
    decode (p ++ [t]) = decodePayload p := by
  rw [decode_line hp.is_open ht, decodeTrimmed_unmarked (unmarked_of_not_mem hp.star_not_mem)]

/-- A line of a payload, a star and two bytes. -/
theorem decode_checked_line (hp : Plain p) (hh : isPlain h = true) (hl : isPlain l = true)
    (ht : isTerminator t = true) :
    decode (p ++ [byte '*', h, l] ++ [t]) = decodeTrimmed (p ++ byte '*' :: [h, l]) := by
  have hopen : Open isTerminator (p ++ [byte '*', h, l]) :=
    hp.is_open.append (open_cons.mpr ⟨by decide, (plain_pair hh hl).is_open⟩)
  exact decode_line hopen ht

/-- The right digits change nothing of a response, -/
theorem decode_right_digits (hp : Plain p) (hsum : hexByte h l = some (xorChecksum p))
    (ht : isTerminator t = true) :
    decode (p ++ [byte '*', h, l] ++ [t]) = decode (p ++ [t]) := by
  obtain ⟨hh, hl⟩ := isPlain_hexByte hsum
  rw [decode_checked_line hp hh hl ht, decodeTrimmed_marked (unmarked_pair h l), hsum,
    decode_plain_line hp ht]
  exact if_pos rfl

/-- and nothing of a command. -/
theorem decodeCommand_digits (hp : Plain p) (hh : isPlain h = true) (hl : isPlain l = true) :
    decodeCommand (p ++ [byte '*', h, l]) = decodeCommand p := by
  rw [decodeCommand_kept (.cut (plain_pair hh hl).star_not_mem (by simp)),
    decodeCommand_kept (.bare hp.star_not_mem)]

/-- **The checksum is verified and otherwise transparent.** Behind a payload
without stars, two bytes that are no hexadecimal digits are an error of
their own, two digits of another value are a checksum error, and the right
digits, of either case, change nothing; neither do they for a command. The
digits an encoder writes are the right ones. -/
theorem checksum_transparent (p : List UInt8) (h l t : UInt8) (hp : Plain p)
    (hh : isPlain h = true) (hl : isPlain l = true) (ht : isTerminator t = true) :
    (hexValue h = none ∨ hexValue l = none →
      decode (p ++ [byte '*', h, l] ++ [t]) = .ok (.error .invalidUtf8)) ∧
    (∀ v, hexByte h l = some v → v ≠ p.foldl (· ^^^ ·) 0 →
      decode (p ++ [byte '*', h, l] ++ [t]) = .ok (.error .badChecksum)) ∧
    (hexByte h l = some (p.foldl (· ^^^ ·) 0) →
      decode (p ++ [byte '*', h, l] ++ [t]) = decode (p ++ [t]) ∧
      decodeCommand (p ++ [byte '*', h, l]) = decodeCommand p) ∧
    (∀ (c : Command) (buf : List UInt8), c.Accepted → 23 ≤ buf.length →
      ∃ n out hi lo, encodeWithChecksum c buf = .ok (.ok n, out) ∧
        out.take n = c.payload ++ [byte '*', hi, lo] ++ [byte '\r'] ∧
        hexByte hi lo = some (c.payload.foldl (· ^^^ ·) 0) ∧
        decode (out.take n) = decode (c.payload ++ [byte '\r'])) := by
  refine ⟨fun hnone => ?_, fun v hv hne => ?_, fun hsum => ?_, fun c buf hc hroom => ?_⟩
  · rw [decode_checked_line hp hh hl ht, decodeTrimmed_marked (unmarked_pair h l),
      hexByte_eq_none.mpr hnone]
  · rw [decode_checked_line hp hh hl ht, decodeTrimmed_marked (unmarked_pair h l), hv]
    exact if_neg (Ne.symm hne)
  · exact ⟨decode_right_digits hp hsum ht, decodeCommand_digits hp hh hl⟩
  · have hframe : (filled buf (c.checkedPayload ++ [byte '\r'])).take (c.checkedPayload.length + 1)
        = c.checkedPayload ++ [byte '\r'] := take_filled_concat _ _ _
    have hsuffix := hexByte_suffix (xorChecksum c.payload)
    refine ⟨_, _, _, _, encodeWithChecksum_accepted hc hroom, hframe, hsuffix, ?_⟩
    rw [hframe]
    exact decode_right_digits c.payload_plain hsuffix (by decide)

/-- A position with a wrong checksum. -/
theorem checksum_transparent_position :
    decode (bytes "AZ=090 EL=045" ++ [byte '*', byte 'F', byte 'F'] ++ [byte '\r'])
      = .ok (.error .badChecksum) :=
  (checksum_transparent _ _ _ _ (by decide) (by decide) (by decide) (by decide)).2.1 0xFF
    (by decide) (by decide)

/-! ## Any stars -/

/-- A line with a star that is decoded although it does not end in its
checksum: bytes follow the two right digits, or all its stars stand too
close to the end to be seen. -/
inductive Loose : List UInt8 → Prop where
  | trailing {p t : List UInt8} {h l : UInt8} {r : Response} (hun : Unmarked (h :: l :: t))
      (hne : t ≠ []) (hsum : hexByte h l = some (xorChecksum p)) (hr : ResponseText p r) :
      Loose (p ++ byte '*' :: h :: l :: t)
  | short {f : List UInt8} {r : Response} (hun : Unmarked f) (hr : ResponseText f r) : Loose f

/-- **When a star is a final checksum.** A line with a star is decoded only
if it is a payload and its checksum, unless it is one of the `Loose` lines,
and every one of those is decoded. -/
theorem star_final_iff (f : List UInt8) (hf : Open isTerminator f) (hstar : byte '*' ∈ f) :
    (∀ r, decode (f ++ [byte '\r']) = .ok (.ok r) → Checksummed f) ↔ ¬ Loose f := by
  have hdec : ∀ r, decode (f ++ [byte '\r']) = .ok (.ok r) ↔ FrameText f r := by
    intro r
    rw [decode_line hf (by decide), decodeTrimmed_eq_ok]
  simp only [hdec]
  constructor
  · intro hall hloose
    cases hloose with
    | trailing hun hne hsum hr =>
        exact hne ((checksummed_marked hun).mp (hall _ (.checked hun hsum hr))).1
    | short hun hr => exact not_checksummed_unmarked hun (hall _ (.plain hun hr))
  · intro hloose r hr
    cases hr with
    | plain hun hr => exact absurd (.short hun hr) hloose
    | @checked p t h l _ hun hsum hr =>
        by_cases hne : t = []
        · exact (checksummed_marked hun).mpr ⟨hne, hsum⟩
        · exact absurd (.trailing hun hne hsum hr) hloose

/-- The criterion on a checksummed acknowledgement. -/
theorem star_final_iff_ack :
    (∀ r, decode (bytes "+*2B" ++ [byte '\r']) = .ok (.ok r) → Checksummed (bytes "+*2B")) ↔
      ¬ Loose (bytes "+*2B") :=
  star_final_iff _ (by decide) (by decide)

/-- An azimuth with a star in its fraction. -/
theorem star_in_fraction :
    Open isTerminator (bytes "AZ10.5*4") ∧ byte '*' ∈ bytes "AZ10.5*4" ∧
    ¬ ∀ r, decode (bytes "AZ10.5*4" ++ [byte '\r']) = .ok (.ok r) →
      Checksummed (bytes "AZ10.5*4") := by
  refine ⟨by decide, by decide, ?_⟩
  intro hall
  have hun : Unmarked (bytes "AZ10.5" ++ bytes "*4") :=
    unmarked_append (by decide) (unmarked_of_length (by decide))
  exact not_checksummed_unmarked hun (hall (.azimuthPosition 10) (by decide))

end Easycom
