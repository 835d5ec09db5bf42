import Easycom.ResponseChecksum

/-!
# Easycom — DecodeErrors

What each error of the response decoder says. The four errors and the
responses divide all inputs between them (`decode_verdict`): an unexpected
end is an empty input, and nothing else; an invalid UTF-8 is a checksum that
is not hexadecimal, and never the text itself; a checksum mismatch comes
before the payload is looked at; and an unknown command is any other input
whose settled payload spells nothing.
-/

namespace Easycom

open Rust Stream

/-- What a frame without its trailing terminators is decoded to. The star
that counts is the last one with two bytes behind it. -/
inductive FrameVerdict : List UInt8 → Except ParseError Response → Prop where
  | response {f : List UInt8} {r : Response} (h : FrameText f r) : FrameVerdict f (.ok r)
  | notHex {p t : List UInt8} {h l : UInt8} (hun : Unmarked (h :: l :: t))
      (hhex : hexByte h l = none) :
      FrameVerdict (p ++ byte '*' :: h :: l :: t) (.error .invalidUtf8)
  | otherSum {p t : List UInt8} {h l v : UInt8} (hun : Unmarked (h :: l :: t))
      (hhex : hexByte h l = some v) (hsum : v ≠ xorChecksum p) :
      FrameVerdict (p ++ byte '*' :: h :: l :: t) (.error .badChecksum)
  | unspelt {f : List UInt8} (hun : Unmarked f) (h : ∀ r, ¬ ResponseText f r) :
      FrameVerdict f (.error .unknownCommand)
  | unspeltBeforeSum {p t : List UInt8} {h l : UInt8} (hun : Unmarked (h :: l :: t))
      (hsum : hexByte h l = some (xorChecksum p)) (hr : ∀ r, ¬ ResponseText p r) :
      FrameVerdict (p ++ byte '*' :: h :: l :: t) (.error .unknownCommand)

/-- The same of an input. -/
inductive Verdict : List UInt8 → Except ParseError Response → Prop where
  | empty : Verdict [] (.error .unexpectedEof)
  | frame {input : List UInt8} {r : Except ParseError Response} (hne : input ≠ [])
      (h : FrameVerdict (input.rdropWhile isTerminator) r) : Verdict input r

/-- A settled payload spells a response, or is unknown. -/
theorem decodePayload_cases (p : List UInt8) :
    (∃ r, decodePayload p = .ok (.ok r) ∧ ResponseText p r) ∨
      decodePayload p = .ok (.error .unknownCommand) ∧ ∀ r, ¬ ResponseText p r := by
  by_cases h : ∃ r, ResponseText p r
  · obtain ⟨r, hr⟩ := h
    exact .inl ⟨r, decodePayload_eq_ok.mpr hr, hr⟩
  · have hno : ∀ r, ¬ ResponseText p r := fun r hr => h ⟨r, hr⟩
    exact .inr ⟨decodePayload_unknown hno, hno⟩

/-- Every frame gets a verdict, and the decoder gives it. -/
theorem decodeTrimmed_verdict (f : List UInt8) : Returns (decodeTrimmed f) (FrameVerdict f) := by
  rcases marked_or_unmarked f with hun | ⟨p, h, l, t, rfl, hun⟩
  · rw [decodeTrimmed_unmarked hun]
    rcases decodePayload_cases f with ⟨r, hdec, hr⟩ | ⟨hdec, hno⟩
    · exact ⟨_, hdec, .response (.plain hun hr)⟩
    · exact ⟨_, hdec, .unspelt hun hno⟩
  · rw [decodeTrimmed_marked hun]
    cases hhex : hexByte h l with
    | none => exact ⟨_, rfl, .notHex hun hhex⟩
    | some v =>
        by_cases hsum : xorChecksum p = v
        · subst hsum
          simp only [if_pos]
          rcases decodePayload_cases p with ⟨r, hdec, hr⟩ | ⟨hdec, hno⟩
          · exact ⟨_, hdec, .response (.checked hun hhex hr)⟩
          · exact ⟨_, hdec, .unspeltBeforeSum hun hhex hno⟩
        · exact ⟨_, if_neg hsum, .otherSum hun hhex (Ne.symm hsum)⟩

/-- No frame gets two. -/
theorem FrameVerdict.decodeTrimmed_eq {f : List UInt8} {r : Except ParseError Response}
    (h : FrameVerdict f r) : decodeTrimmed f = .ok r := by
  cases h with
  | response h => exact decodeTrimmed_eq_ok.mpr h
  | notHex hun hhex => rw [decodeTrimmed_marked hun, hhex]
  | otherSum hun hhex hsum =>
      rw [decodeTrimmed_marked hun, hhex]
      exact if_neg (Ne.symm hsum)
  | unspelt hun h => rw [decodeTrimmed_unmarked hun, decodePayload_unknown h]
  | unspeltBeforeSum hun hsum hr =>
      rw [decodeTrimmed_marked hun, hsum]
      exact (if_pos rfl).trans (decodePayload_unknown hr)

/-- **What `decode` says of any input**, responses and errors alike. -/
theorem decode_verdict (input : List UInt8) (r : Except ParseError Response) :
    decode input = .ok r ↔ Verdict input r := by
  by_cases hne : input = []
  · subst hne
    constructor
    · intro h
      cases h
      exact .empty
    · intro h
      cases h with
      | empty => rfl
      | frame hne _ => exact absurd rfl hne
  · rw [decode_eq hne]
    constructor
    · intro h
      obtain ⟨r', hr', hverdict⟩ := decodeTrimmed_verdict (input.rdropWhile isTerminator)
      rw [h] at hr'
      cases hr'
      exact .frame hne hverdict
    · intro h
      cases h with
      | empty => exact absurd rfl hne
      | frame _ h => exact h.decodeTrimmed_eq

end Easycom
