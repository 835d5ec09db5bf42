import Easycom.CommandText
import Easycom.ResponseText
import Easycom.Room

/-!
# Easycom — Frames

What the encoders write, the decoders read: every payload is a text of
its command or response (`Command.payload_text`, `Response.payload_text`)
and holds neither a terminator nor a star, so that a stream of frames has
the payloads for its lines. `readCommand` and `readResponse` are the
decoders with the proof of their totality taken out.
-/

namespace Easycom

open Rust Stream

/-! ## The decoders as functions -/

/-- What `decode_command` returns. -/
def readCommand (frame : List UInt8) : Option Command :=
  match decodeCommand frame with
  | .ok c => c
  | .error _ => none

/-- What `decode` returns. -/
def readResponse (frame : List UInt8) : Except ParseError Response :=
  match decode frame with
  | .ok r => r
  | .error _ => .error .unexpectedEof

theorem decodeCommand_eq (frame : List UInt8) :
    decodeCommand frame = .ok (readCommand frame) := by
  obtain ⟨r, hr, -⟩ := decodeCommand_spec frame
  rw [readCommand, hr]

theorem decode_eq_read (frame : List UInt8) :
    decode frame = .ok (readResponse frame) := by
  obtain ⟨r, hr, -⟩ := decode_spec frame
  rw [readResponse, hr]

/-- **The decoders never panic.** On any bytes, no index or slice is out of
range, no slice is off a character boundary and no arithmetic overflows:
both decoders return. -/
theorem decoders_never_panic (bs : List UInt8) :
    (∃ r, decode bs = .ok r) ∧ ∃ c, decodeCommand bs = .ok c :=
  ⟨⟨_, decode_eq_read bs⟩, ⟨_, decodeCommand_eq bs⟩⟩

theorem readCommand_eq_some {frame : List UInt8} {c : Command} :
    readCommand frame = some c ↔ ∃ p, Kept frame p ∧ CommandText p c :=
  (decodeCommand_spec frame).of_eq (decodeCommand_eq frame) c

theorem readResponse_eq_ok {frame : List UInt8} {r : Response} :
    readResponse frame = .ok r ↔
      frame ≠ [] ∧ FrameText (frame.rdropWhile isTerminator) r :=
  (decode_spec frame).of_eq (decode_eq_read frame) r

/-- **Only the empty frame ends unexpectedly.** -/
theorem readResponse_eq_unexpectedEof {frame : List UInt8} :
    readResponse frame = .error .unexpectedEof ↔ frame = [] := by
  constructor
  · intro h
    by_contra hne
    have hd := decode_eq_read frame
    rw [h, decode_eq hne] at hd
    exact decodeTrimmed_error hd rfl
  · intro h
    rw [h]
    rfl

/-! ## Plain bytes -/

/-- Neither a terminator nor a star. -/
def isPlain (b : UInt8) : Bool := !isTerminator b && b != byte '*'

def Plain (l : List UInt8) : Prop := ∀ b ∈ l, isPlain b = true

instance (l : List UInt8) : Decidable (Plain l) :=
  List.decidableBAll (fun b => isPlain b = true) l

theorem plain_append {l m : List UInt8} : Plain (l ++ m) ↔ Plain l ∧ Plain m := by
  simp only [Plain, List.mem_append, or_imp, forall_and]

theorem Plain.is_open {l : List UInt8} (h : Plain l) : Open isTerminator l := by
  intro b hb
  have := h b hb
  simp only [isPlain, Bool.and_eq_true, Bool.not_eq_true'] at this
  exact this.1

theorem Plain.star_not_mem {l : List UInt8} (h : Plain l) : byte '*' ∉ l := fun hb => by
  have := h _ hb
  revert this
  decide

theorem isPlain_digit {b : UInt8} (h : isDigit b = true) : isPlain b = true := by
  have hall : ∀ n < 256, isDigit (UInt8.ofNat n) = true → isPlain (UInt8.ofNat n) = true := by
    decide +kernel
  simpa using hall b.toNat b.toNat_lt (by simpa using h)

theorem isPlain_hexValue {b : UInt8} {v : Nat} (hv : hexValue b = some v) :
    isPlain b = true := by
  have hall : ∀ n < 256, (hexValue (UInt8.ofNat n)).isSome = true →
      isPlain (UInt8.ofNat n) = true := by decide +kernel
  simpa [hv] using hall b.toNat b.toNat_lt

/-- The digits of a checksum are plain. -/
theorem isPlain_hexByte {h l v : UInt8} (hv : hexByte h l = some v) :
    isPlain h = true ∧ isPlain l = true := by
  obtain ⟨vh, hvh, hrest⟩ := Option.bind_eq_some_iff.mp hv
  obtain ⟨vl, hvl, -⟩ := Option.bind_eq_some_iff.mp hrest
  exact ⟨isPlain_hexValue hvh, isPlain_hexValue hvl⟩

theorem plain_pair {h l : UInt8} (hh : isPlain h = true) (hl : isPlain l = true) : Plain [h, l] := by
  simp [Plain, hh, hl]

theorem plain_digits {ds : List UInt8} (h : Digits ds) : Plain ds :=
  fun b hb => isPlain_digit (h.all b hb)

theorem plain_decimalInt (n : Int) : Plain (decimalInt n) := by
  intro b hb
  rcases (decimalInt_numeral n).mem b hb with h | rfl | rfl
  · exact isPlain_digit h
  · decide
  · decide

theorem plain_signed3 (n : Int) : Plain (signed3 n) := by
  intro b hb
  rcases List.mem_cons.mp hb with rfl | hb
  · split <;> decide
  · exact plain_digits (digits3_digits _) b hb

/-! ## Command frames -/

/-- The offsets of a command fit the three digits of the wire. -/
def Command.OffsetsFit : Command → Prop
  | .offset az el => (-999 ≤ az.toInt ∧ az.toInt ≤ 999) ∧ (-999 ≤ el.toInt ∧ el.toInt ≤ 999)
  | _ => True

/-- The command a device obtains: the two queries of the status register
are one frame. -/
def Command.received : Command → Command
  | .queryStatus => .getStatusRegister
  | c => c

theorem Command.payload_plain (c : Command) : Plain c.payload := by
  have hdec : ∀ n, Plain (decimal n) := fun n => plain_digits (decimal_digits n)
  have hd3 : ∀ n, Plain (digits3 n) := fun n => plain_digits (digits3_digits n)
  cases c <;>
    simp only [payload, plain_append, hdec, hd3, plain_decimalInt, plain_signed3, and_true] <;>
    decide

theorem Command.payload_ne_nil (c : Command) : c.payload ≠ [] := by
  cases c <;> simp [payload, bytes]

/-- The marks of a position, an angle and a status occur in no command. -/
theorem Command.not_mem_payload {b : UInt8} (hb : b = byte '=' ∨ b = byte '.') (c : Command) :
    b ∉ c.payload := by
  have hdigit : isDigit b = false := by rcases hb with rfl | rfl <;> decide
  have hminus : b ≠ byte '-' := by rcases hb with rfl | rfl <;> decide
  have hdec : ∀ n, b ∉ decimal n := fun n => not_mem_decimal hdigit
  have hd3 : ∀ n, b ∉ digits3 n := fun n => not_mem_digits3 hdigit
  have hint : ∀ n, b ∉ decimalInt n := fun n => not_mem_decimalInt hdigit hminus
  have hsign : ∀ n, b ∉ signed3 n := by
    intro n h
    rcases List.mem_cons.mp h with h | h
    · revert hb
      rw [h]
      split <;> decide
    · exact hd3 _ h
  cases c <;>
    simp only [payload, List.mem_append, not_or, hdec, hd3, hint, hsign, not_false_eq_true,
      and_true] <;>
    rcases hb with rfl | rfl <;> decide

theorem field3_digits3 {n : Nat} (h : n < 1000) : Field3 (digits3 n) n :=
  ⟨rfl, (digits3_digits n).all, by rw [digitsValue_digits3, Nat.mod_eq_of_lt h]⟩

theorem signedField3_signed3 {n : Int} (h : -999 ≤ n ∧ n ≤ 999) :
    SignedField3 (signed3 n) n := by
  have hf := @field3_digits3 n.natAbs (by omega)
  rw [signed3]
  split
  · have hp := SignedField3.plus hf
    rwa [show ((n.natAbs : Nat) : Int) = n by omega] at hp
  · have hm := SignedField3.minus hf
    rwa [show -((n.natAbs : Nat) : Int) = n by omega] at hm

/-- **Every encoded command is spelt by its payload.** -/
theorem Command.payload_text {c : Command} (hc : c.Accepted) (ho : c.OffsetsFit) :
    CommandText c.payload c.received := by
  have h360 : (360 : UInt16).toNat = 360 := rfl
  have h180 : (180 : UInt16).toNat = 180 := rfl
  cases c with
  | azimuth az =>
      have := UInt16.le_iff_toNat_le.mp hc
      exact .azimuth3 (field3_digits3 (by omega)) hc
  | elevation el =>
      have := UInt16.le_iff_toNat_le.mp hc
      exact .elevation3 (field3_digits3 (by omega)) hc
  | azimuthElevation az el =>
      have := UInt16.le_iff_toNat_le.mp hc.1
      have := UInt16.le_iff_toNat_le.mp hc.2
      rw [payload, List.append_assoc _ (bytes " ")]
      exact .both3 (field3_digits3 (by omega)) (field3_digits3 (by omega)) hc.1 hc.2
  | offset az el => exact .offset (signedField3_signed3 ho.1) (signedField3_signed3 ho.2)
  | velocityLeft speed => exact .velocityLeft (decimal_numeral _)
  | velocityRight speed => exact .velocityRight (decimal_numeral _)
  | velocityUp speed => exact .velocityUp (decimal_numeral _)
  | velocityDown speed => exact .velocityDown (decimal_numeral _)
  | readConfig reg => exact .readConfig (decimal_numeral _)
  | writeConfig reg val =>
      rw [payload, List.append_assoc, List.append_assoc]
      exact .writeConfig (.mk (decimal_numeral _) (decimalInt_numeral _))
  | queryPosition | queryAzimuth | queryElevation | queryStatus | stop | keepAlive
    | getStatusRegister | getErrorRegister | reset | park => exact .keyword (by decide)

theorem readCommand_payload {c : Command} (hc : c.Accepted) (ho : c.OffsetsFit) :
    readCommand c.payload = some c.received :=
  readCommand_eq_some.mpr ⟨_, .bare c.payload_plain.star_not_mem, c.payload_text hc ho⟩

/-- The two digits of a checksum. -/
theorem checksumSuffix_plain (v : UInt8) :
    ∃ t, checksumSuffix v = byte '*' :: t ∧ t.length = 2 ∧ Plain t := by
  obtain ⟨hh, hl⟩ := isPlain_hexByte (hexByte_suffix v)
  exact ⟨_, rfl, rfl, plain_pair hh hl⟩

theorem Command.checkedPayload_open (c : Command) :
    Open isTerminator c.checkedPayload := by
  obtain ⟨t, ht, -, hplain⟩ := checksumSuffix_plain (xorChecksum c.payload)
  rw [checkedPayload, ht]
  exact c.payload_plain.is_open.append (open_cons.mpr ⟨by decide, hplain.is_open⟩)

/-- **The checksum changes nothing of the command.** -/
theorem readCommand_checkedPayload {c : Command} (hc : c.Accepted) (ho : c.OffsetsFit) :
    readCommand c.checkedPayload = some c.received := by
  obtain ⟨t, ht, hlen, hplain⟩ := checksumSuffix_plain (xorChecksum c.payload)
  rw [Command.checkedPayload, ht]
  exact readCommand_eq_some.mpr
    ⟨_, .cut hplain.star_not_mem (by omega), c.payload_text hc ho⟩

/-! ## Response frames -/

/-- The positions of a response fit the three digits of the wire. -/
def Response.InRange : Response → Prop
  | .position az el => az ≤ 999 ∧ el ≤ 999
  | .azimuthPosition az => az ≤ 999
  | .elevationPosition el => el ≤ 999
  | _ => True

theorem Response.payload_plain (r : Response) : Plain r.payload := by
  have hdec : ∀ n, Plain (decimal n) := fun n => plain_digits (decimal_digits n)
  have hd3 : ∀ n, Plain (digits3 n) := fun n => plain_digits (digits3_digits n)
  cases r with
  | status st => cases st <;> decide
  | _ =>
      simp only [payload, plain_append, hdec, hd3, plain_decimalInt, and_true]
      decide

theorem Response.payload_ne_nil (r : Response) : r.payload ≠ [] := by
  cases r <;> simp [payload, bytes]

/-- The bytes a device sends: the written part of its buffer. -/
def Response.sent (r : Response) (buf : List UInt8) : Exec (List UInt8) := do
  let (buf, len) ← encodeResponseInto r buf
  sliceTo buf len

theorem Response.sent_eq {r : Response} {buf : List UInt8} (hroom : 32 ≤ buf.length) :
    r.sent buf = .ok r.frame := by
  have hlen := r.payload_length_le
  have hfit : r.frame.length ≤ buf.length := by
    rw [frame, List.length_append, List.length_singleton]
    omega
  rw [sent, encodeResponseInto_eq r (by omega), ok_bind]
  exact sliceTo_filled hfit

/-- A pattern does not occur where its first byte does not. -/
theorem not_prefix_of_head {c : UInt8} {label pre s : List UInt8} {j : Nat}
    (hc : c ∉ pre) (hj : j < pre.length) : ¬ (c :: label) <+: (pre ++ s).drop j := by
  rw [List.drop_append_of_le_length (by omega), List.drop_eq_getElem_cons hj]
  rintro ⟨t, ht⟩
  have hhead : c = pre[j] := List.head_eq_of_cons_eq ht
  exact hc (hhead ▸ List.getElem_mem hj)

theorem digits3_valid (n : Nat) : Utf8.Valid (digits3 n) :=
  numeral_valid (.plain (digits3_digits n))

theorem position_text {az el : Nat} (haz : az < 1000) (hel : el < 1000) :
    LabelledText (bytes "AZ=") (bytes "AZ=" ++ digits3 az ++ bytes " EL=" ++ digits3 el) az ∧
    LabelledText (bytes "EL=") (bytes "AZ=" ++ digits3 az ++ bytes " EL=" ++ digits3 el) el := by
  constructor
  · have h := @LabelledText.mk (bytes "AZ=") [] (digits3 az) (bytes " EL=" ++ digits3 el) az
      rfl (digits3_numeral haz) (by simp)
    simpa using h
  · have hE : byte 'E' ∉ bytes "AZ=" ++ digits3 az ++ bytes " " := by
      simp only [List.mem_append, not_or]
      exact ⟨⟨by decide, not_mem_digits3 (by decide)⟩, by decide⟩
    have h := @LabelledText.mk (bytes "EL=") (bytes "AZ=" ++ digits3 az ++ bytes " ")
      (digits3 el) [] el rfl (digits3_numeral hel) fun j hj => not_prefix_of_head hE hj
    simpa [bytes] using h

/-- **Every encoded response is spelt by its payload.** -/
theorem Response.payload_text {r : Response} (hr : r.InRange) :
    ResponseText r.payload r := by
  have h999 : (999 : UInt16).toNat = 999 := rfl
  have hvalid : ∀ n, Utf8.Valid (digits3 n ++ bytes ".0") := fun n =>
    (Utf8.valid_append (digits3_valid n)).mpr (by decide)
  have hno : ∀ s n, byte '=' ∉ bytes s → ∀ a e,
      ¬ PositionText (bytes s ++ (digits3 n ++ bytes ".0")) a e := by
    intro s n hs a e h
    have := h.equals_mem
    simp only [List.mem_append] at this
    rcases this with h | h | h
    · exact hs h
    · exact not_mem_digits3 (by decide) h
    · revert h
      decide
  cases r with
  | ack => exact .ack
  | error => exact .error
  | status st => exact .status
  | statusRegister val => exact .statusRegister (decimal_numeral _)
  | errorRegister val => exact .errorRegister (decimal_numeral _)
  | configValue reg val =>
      rw [payload, List.append_assoc, List.append_assoc]
      exact .configValue (.mk (decimal_numeral _) (decimalInt_numeral _))
  | position az el =>
      have haz := UInt16.le_iff_toNat_le.mp hr.1
      have hel := UInt16.le_iff_toNat_le.mp hr.2
      obtain ⟨h1, h2⟩ := @position_text az.toNat el.toNat (by omega) (by omega)
      refine .position ⟨by simp [payload, bytes], ?_, h1, h2⟩
      refine (Utf8.valid_append ?_).mpr (digits3_valid _)
      refine (Utf8.valid_append ?_).mpr (by decide)
      exact (Utf8.valid_append (by decide)).mpr (digits3_valid _)
  | azimuthPosition az =>
      have haz := UInt16.le_iff_toNat_le.mp hr
      rw [payload, List.append_assoc]
      exact .azimuth (hvalid _) (.bare (.fraction (digits3_numeral (by omega)) _))
        (hno _ _ (by decide))
  | elevationPosition el =>
      have hel := UInt16.le_iff_toNat_le.mp hr
      rw [payload, List.append_assoc]
      exact .elevation (hvalid _) (.bare (.fraction (digits3_numeral (by omega)) _))
        (hno _ _ (by decide))

theorem readResponse_line {l : List UInt8} {r : Response} (hl : Open isTerminator l) :
    readResponse l = .ok r ↔ l ≠ [] ∧ FrameText l r := by
  rw [readResponse_eq_ok, rdropWhile_line hl]

/-- **A response line is decoded to its response.** -/
theorem readResponse_payload {r : Response} (hr : r.InRange) :
    readResponse r.payload = .ok r :=
  (readResponse_line r.payload_plain.is_open).mpr ⟨r.payload_ne_nil,
    .plain (unmarked_of_not_mem r.payload_plain.star_not_mem) (Response.payload_text hr)⟩

theorem Response.terminator_isTerminator (r : Response) :
    isTerminator r.terminator = true := by
  cases r <;> rfl

end Easycom
