import Easycom.Encode
import Easycom.Rust.Decimal

/-!
# Easycom — Wire

The frames of the protocol as data: the payload of a command and of a
response, the terminators, the checksum. No payload is longer than 19
bytes.
-/

namespace Easycom

open Rust

/-! ## Frames -/

/-- A sign and three digits, the field of an offset. -/
def signed3 (n : Int) : List UInt8 :=
  (if 0 ≤ n then byte '+' else byte '-') :: digits3 n.natAbs

@[simp] theorem signed3_length (n : Int) : (signed3 n).length = 4 := rfl

/-- The frame of a command without its CR. -/
def Command.payload : Command → List UInt8
  | .azimuth az => bytes "A" ++ digits3 az.toNat
  | .elevation el => bytes "E" ++ digits3 el.toNat
  | .azimuthElevation az el =>
      bytes "W" ++ digits3 az.toNat ++ bytes " " ++ digits3 el.toNat
  | .queryPosition => bytes "C"
  | .queryAzimuth => bytes "AZ"
  | .queryElevation => bytes "EL"
  | .queryStatus => bytes "GS"
  | .stop => bytes "S"
  | .keepAlive => bytes "?"
  | .offset az el => bytes "O" ++ signed3 az.toInt ++ signed3 el.toInt
  | .velocityLeft speed => bytes "VL" ++ decimal speed.toNat
  | .velocityRight speed => bytes "VR" ++ decimal speed.toNat
  | .velocityUp speed => bytes "VU" ++ decimal speed.toNat
  | .velocityDown speed => bytes "VD" ++ decimal speed.toNat
  | .getStatusRegister => bytes "GS"
  | .getErrorRegister => bytes "GE"
  | .readConfig reg => bytes "CR" ++ decimal reg.toNat
  | .writeConfig register value =>
      bytes "CW" ++ decimal register.toNat ++ bytes "," ++ decimalInt value.toInt
  | .reset => bytes "RESET"
  | .park => bytes "PARK"

/-- The angles of a command are in range. -/
def Command.Accepted : Command → Prop
  | .azimuth az => az ≤ 360
  | .elevation el => el ≤ 180
  | .azimuthElevation az el => az ≤ 360 ∧ el ≤ 180
  | _ => True

instance (c : Command) : Decidable c.Accepted := by
  cases c <;> simp only [Command.Accepted] <;> infer_instance

/-- The frame of a response without its terminator. -/
def Response.payload : Response → List UInt8
  | .ack => bytes "+"
  | .error => bytes "?"
  | .position az el =>
      bytes "AZ=" ++ digits3 az.toNat ++ bytes " EL=" ++ digits3 el.toNat
  | .azimuthPosition az => bytes "AZ" ++ digits3 az.toNat ++ bytes ".0"
  | .elevationPosition el => bytes "EL" ++ digits3 el.toNat ++ bytes ".0"
  | .status st => bytes "ST=" ++ bytes (statusToStr st)
  | .statusRegister val => bytes "GS" ++ decimal val.toNat
  | .errorRegister val => bytes "GE" ++ decimal val.toNat
  | .configValue register value =>
      bytes "CR" ++ decimal register.toNat ++ bytes "," ++ decimalInt value.toInt

/-- The terminator of a response: CR, or LF for the Easycomm II and III
frames. -/
def Response.terminator : Response → UInt8
  | .azimuthPosition _ | .elevationPosition _ | .statusRegister _
  | .errorRegister _ | .configValue _ _ => byte '\n'
  | _ => byte '\r'

/-- The frame of a response. -/
def Response.frame (r : Response) : List UInt8 := r.payload ++ [r.terminator]

/-- `*XX`. -/
def checksumSuffix (checksum : UInt8) : List UInt8 :=
  [byte '*', hexDigits.getD (checksum >>> 4).toNat 0,
    hexDigits.getD (checksum &&& 0x0F).toNat 0]

/-- The frame of a command with a checksum, without its CR. -/
def Command.checkedPayload (c : Command) : List UInt8 :=
  c.payload ++ checksumSuffix (xorChecksum c.payload)

/-! ## Lengths -/

theorem decimal_u16_length (n : UInt16) : (decimal n.toNat).length ≤ 5 :=
  decimal_length_le (by decide) (by have := n.toNat_lt; omega)

theorem decimal_u32_length (n : UInt32) : (decimal n.toNat).length ≤ 10 :=
  decimal_length_le (by decide) (by have := n.toNat_lt; omega)

theorem decimal_i32_length (n : Int32) : (decimalInt n.toInt).length ≤ 11 := by
  have hlo := n.le_toInt
  have hhi := n.toInt_lt
  have habs : (decimal n.toInt.natAbs).length ≤ 10 :=
    decimal_length_le (by decide) (by omega)
  rw [decimalInt]
  split
  · simp only [List.length_cons]
    omega
  · omega

/-- A payload is at most `CW65535,-2147483648` long. -/
theorem Command.payload_length_le (c : Command) : c.payload.length ≤ 19 := by
  cases c with
  | velocityLeft s | velocityRight s | velocityUp s | velocityDown s =>
      have := decimal_u32_length s
      simp [payload, bytes]
      omega
  | readConfig r =>
      have := decimal_u16_length r
      simp [payload, bytes]
      omega
  | writeConfig r v =>
      have := decimal_u16_length r
      have := decimal_i32_length v
      simp [payload, bytes]
      omega
  | _ => simp [payload, signed3, bytes]

/-- A status word is at most `homing_az_error` long. -/
theorem statusToStr_length_le (st : DeviceStatus) :
    (bytes (statusToStr st)).length ≤ 15 := by
  cases st <;> decide

/-- A response payload is at most `CR65535,-2147483648` long. -/
theorem Response.payload_length_le (r : Response) : r.payload.length ≤ 19 := by
  cases r with
  | status st =>
      have := statusToStr_length_le st
      have hpre : (bytes "ST=").length = 3 := by decide
      rw [payload, List.length_append, hpre]
      omega
  | statusRegister v | errorRegister v =>
      have := decimal_u16_length v
      simp [payload, bytes]
      omega
  | configValue r v =>
      have := decimal_u16_length r
      have := decimal_i32_length v
      simp [payload, bytes]
      omega
  | _ => simp [payload, bytes]

theorem Response.frame_length (r : Response) : r.frame.length = r.payload.length + 1 := by
  rw [frame, List.length_append, List.length_singleton]

theorem Command.checkedPayload_length (c : Command) :
    c.checkedPayload.length = c.payload.length + 3 := by
  simp [checkedPayload, checksumSuffix]

/-! ## The halves of a byte -/

theorem toNat_shiftRight_four (v : UInt8) : (v >>> 4).toNat = v.toNat / 16 := by
  simp [UInt8.toNat_shiftRight, Nat.shiftRight_eq_div_pow]

theorem toNat_and_fifteen (v : UInt8) : (v &&& 0x0F).toNat = v.toNat % 16 := by
  rw [UInt8.toNat_and]
  exact Nat.and_two_pow_sub_one_eq_mod v.toNat 4

end Easycom
