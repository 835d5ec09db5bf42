import Easycom.Command
import Easycom.Rust.Checked

/-!
# Easycom — Encode

The encoders of `framing.rs`. A writer takes the caller's buffer and
returns it with the frame written over its front, together with the
position (or length) the source returns; every indexed store is checked,
so an encoder that left its buffer would be a panic here.
-/

namespace Easycom

open Rust

/-! ## Checksum -/

/-- The XOR of all bytes. -/
def xorChecksum (data : List UInt8) : UInt8 :=
  data.foldl (fun acc b => acc ^^^ b) 0

/-- `HEX`. -/
def hexDigits : List UInt8 := bytes "0123456789ABCDEF"

/-- `*XX` at `pos`. -/
def writeChecksum (buf : List UInt8) (pos : Nat) (checksum : UInt8) :
    Exec (List UInt8 × Nat) := do
  let buf ← store buf pos (byte '*')
  let hi ← index hexDigits (checksum >>> 4).toNat
  let buf ← store buf (pos + 1) hi
  let lo ← index hexDigits (checksum &&& 0x0F).toNat
  let buf ← store buf (pos + 2) lo
  return (buf, pos + 3)

/-! ## Number writers -/

/-- Three zero-padded digits at `pos`. -/
def write3digits (buf : List UInt8) (pos : Nat) (n : UInt16) :
    Exec (List UInt8 × Nat) := do
  let d ← addU8 (byte '0') (n / 100 % 10).toUInt8
  let buf ← store buf pos d
  let d ← addU8 (byte '0') (n / 10 % 10).toUInt8
  let buf ← store buf (pos + 1) d
  let d ← addU8 (byte '0') (n % 10).toUInt8
  let buf ← store buf (pos + 2) d
  return (buf, pos + 3)

/-- A sign, then three zero-padded digits. -/
def writeSigned3digits (buf : List UInt8) (pos : Nat) (n : Int16) :
    Exec (List UInt8 × Nat) := do
  let buf ← store buf pos (if 0 ≤ n then byte '+' else byte '-')
  write3digits buf (pos + 1) (unsignedAbsI16 n)

/-- `<letter><NNN>\r` at the front of the buffer; returns its length. -/
def formatCmd3digit (letter : UInt8) (value : UInt16) (buf : List UInt8) :
    Exec (List UInt8 × Nat) := do
  let buf ← store buf 0 letter
  let (buf, _) ← write3digits buf 1 value
  let buf ← store buf 4 (byte '\r')
  return (buf, 5)

/-- The `while n > 0` loop of `write_u32`. `room` is `digits.len() - len`:
with no room left, the loop body's store is out of range. -/
def digitLoop : Nat → UInt32 → List UInt8 → Nat → Exec (List UInt8 × Nat)
  | 0, n, digits, len =>
      if 0 < n then .error .indexOutOfBounds else .ok (digits, len)
  | room + 1, n, digits, len =>
      if 0 < n then do
        let d ← addU8 (byte '0') (n % 10).toUInt8
        let digits ← store digits len d
        digitLoop room (n / 10) digits (len + 1)
      else .ok (digits, len)

/-- Unsigned decimal digits at `pos`. -/
def writeU32 (buf : List UInt8) (pos : Nat) (n : UInt32) :
    Exec (List UInt8 × Nat) := do
  if n = 0 then
    let buf ← store buf pos (byte '0')
    return (buf, pos + 1)
  let (digits, len) ← digitLoop 10 n (List.replicate 10 0) 0
  let buf ← (List.range len).foldlM (fun buf i => do
    let d ← index digits (len - 1 - i)
    store buf (pos + i) d) buf
  return (buf, pos + len)

/-- Signed decimal digits at `pos`. -/
def writeI32 (buf : List UInt8) (pos : Nat) (n : Int32) :
    Exec (List UInt8 × Nat) := do
  if n < 0 then
    let buf ← store buf pos (byte '-')
    writeU32 buf (pos + 1) (unsignedAbsI32 n)
  else
    writeU32 buf pos n.toUInt32

/-! ## Commands -/

/-- What an encoder of commands leaves: the length of the frame or the
message of the rejected parameter, and the caller's buffer. -/
abbrev Encoded := Except String Nat × List UInt8

/-- `<prefix><speed>\r`. -/
def writeVelocityCmd (buf : List UInt8) (p0 p1 : UInt8) (speed : UInt32) :
    Exec Encoded := do
  let buf ← store buf 0 p0
  let buf ← store buf 1 p1
  let (buf, pos) ← writeU32 buf 2 speed
  let buf ← store buf pos (byte '\r')
  return (.ok (pos + 1), buf)

/-- Encode a command into `buf`. -/
def encodeInto (cmd : Command) (buf : List UInt8) : Exec Encoded :=
  match cmd with
  | .azimuth az => do
      if 360 < az then
        return (.error "azimuth must be 0–360", buf)
      let (buf, payload) ← formatCmd3digit (byte 'A') az buf
      return (.ok payload, buf)
  | .elevation el => do
      if 180 < el then
        return (.error "elevation must be 0–180", buf)
      let (buf, payload) ← formatCmd3digit (byte 'E') el buf
      return (.ok payload, buf)
  | .azimuthElevation az el => do
      if 360 < az then
        return (.error "azimuth must be 0–360", buf)
      if 180 < el then
        return (.error "elevation must be 0–180", buf)
      let buf ← store buf 0 (byte 'W')
      let (buf, _) ← write3digits buf 1 az
      let buf ← store buf 4 (byte ' ')
      let (buf, _) ← write3digits buf 5 el
      let buf ← store buf 8 (byte '\r')
      return (.ok 9, buf)
  | .queryPosition => do
      let buf ← store buf 0 (byte 'C')
      let buf ← store buf 1 (byte '\r')
      return (.ok 2, buf)
  | .queryAzimuth => do
      let buf ← store buf 0 (byte 'A')
      let buf ← store buf 1 (byte 'Z')
      let buf ← store buf 2 (byte '\r')
      return (.ok 3, buf)
  | .queryElevation => do
      let buf ← store buf 0 (byte 'E')
      let buf ← store buf 1 (byte 'L')
      let buf ← store buf 2 (byte '\r')
      return (.ok 3, buf)
  | .queryStatus => do
      let buf ← store buf 0 (byte 'G')
      let buf ← store buf 1 (byte 'S')
      let buf ← store buf 2 (byte '\r')
      return (.ok 3, buf)
  | .stop => do
      let buf ← store buf 0 (byte 'S')
      let buf ← store buf 1 (byte '\r')
      return (.ok 2, buf)
  | .keepAlive => do
      let buf ← store buf 0 (byte '?')
      let buf ← store buf 1 (byte '\r')
      return (.ok 2, buf)
  | .offset az el => do
      let buf ← store buf 0 (byte 'O')
      let (buf, pos) ← writeSigned3digits buf 1 az
      let (buf, pos) ← writeSigned3digits buf pos el
      let buf ← store buf pos (byte '\r')
      return (.ok (pos + 1), buf)
  | .velocityLeft speed => writeVelocityCmd buf (byte 'V') (byte 'L') speed
  | .velocityRight speed => writeVelocityCmd buf (byte 'V') (byte 'R') speed
  | .velocityUp speed => writeVelocityCmd buf (byte 'V') (byte 'U') speed
  | .velocityDown speed => writeVelocityCmd buf (byte 'V') (byte 'D') speed
  | .getStatusRegister => do
      let buf ← copyFromSlice buf 0 2 (bytes "GS")
      let buf ← store buf 2 (byte '\r')
      return (.ok 3, buf)
  | .getErrorRegister => do
      let buf ← copyFromSlice buf 0 2 (bytes "GE")
      let buf ← store buf 2 (byte '\r')
      return (.ok 3, buf)
  | .readConfig reg => do
      let buf ← copyFromSlice buf 0 2 (bytes "CR")
      let (buf, pos) ← writeU32 buf 2 reg.toUInt32
      let buf ← store buf pos (byte '\r')
      return (.ok (pos + 1), buf)
  | .writeConfig register value => do
      let buf ← copyFromSlice buf 0 2 (bytes "CW")
      let (buf, pos) ← writeU32 buf 2 register.toUInt32
      let buf ← store buf pos (byte ',')
      let (buf, pos) ← writeI32 buf (pos + 1) value
      let buf ← store buf pos (byte '\r')
      return (.ok (pos + 1), buf)
  | .reset => do
      let buf ← copyFromSlice buf 0 5 (bytes "RESET")
      let buf ← store buf 5 (byte '\r')
      return (.ok 6, buf)
  | .park => do
      let buf ← copyFromSlice buf 0 4 (bytes "PARK")
      let buf ← store buf 4 (byte '\r')
      return (.ok 5, buf)

/-- Encode a command with an XOR checksum into `buf`. -/
def encodeWithChecksum (cmd : Command) (buf : List UInt8) : Exec Encoded := do
  let (r, buf) ← encodeInto cmd buf
  match r with
  | .error msg => return (.error msg, buf)
  | .ok len =>
      let payloadEnd := len - 1
      let payload ← sliceTo buf payloadEnd
      let checksum := xorChecksum payload
      let (buf, pos) ← writeChecksum buf payloadEnd checksum
      let buf ← store buf pos (byte '\r')
      return (.ok (pos + 1), buf)

/-- Encode a command and return the frame. -/
def encode (cmd : Command) : Exec (Except (Error Empty) (List UInt8)) := do
  let (r, buf) ← encodeInto cmd (List.replicate 32 0)
  match r with
  | .error msg => return .error (.invalidParam msg)
  | .ok len =>
      let frame ← sliceTo buf len
      return .ok frame

/-! ## Responses -/

/-- The wire word of a status. -/
def statusToStr : DeviceStatus → String
  | .idle => "idle"
  | .moving => "moving"
  | .homing => "homing"
  | .notHomed => "not_homed"
  | .homingAzError => "homing_az_error"
  | .homingElError => "homing_el_error"

/-- `<l0><l1><NNN>.0\n`, the single-axis position frame; returns its
length. -/
def writeAxisPosition (l0 l1 : UInt8) (value : UInt16) (buf : List UInt8) :
    Exec (List UInt8 × Nat) := do
  let buf ← store buf 0 l0
  let buf ← store buf 1 l1
  let (buf, _) ← write3digits buf 2 value
  let buf ← store buf 5 (byte '.')
  let buf ← store buf 6 (byte '0')
  let buf ← store buf 7 (byte '\n')
  return (buf, 8)

/-- `<l0><l1><val>\n`, the register frame; returns its length. -/
def writeRegister (l0 l1 : UInt8) (val : UInt16) (buf : List UInt8) :
    Exec (List UInt8 × Nat) := do
  let buf ← store buf 0 l0
  let buf ← store buf 1 l1
  let (buf, pos) ← writeU32 buf 2 val.toUInt32
  let buf ← store buf pos (byte '\n')
  return (buf, pos + 1)

/-- Encode a response into `buf`; returns the buffer and the length of the
frame. -/
def encodeResponseInto (resp : Response) (buf : List UInt8) :
    Exec (List UInt8 × Nat) :=
  match resp with
  | .ack => do
      let buf ← store buf 0 (byte '+')
      let buf ← store buf 1 (byte '\r')
      return (buf, 2)
  | .error => do
      let buf ← store buf 0 (byte '?')
      let buf ← store buf 1 (byte '\r')
      return (buf, 2)
  | .position az el => do
      let buf ← store buf 0 (byte 'A')
      let buf ← store buf 1 (byte 'Z')
      let buf ← store buf 2 (byte '=')
      let (buf, _) ← write3digits buf 3 az
      let buf ← store buf 6 (byte ' ')
      let buf ← store buf 7 (byte 'E')
      let buf ← store buf 8 (byte 'L')
      let buf ← store buf 9 (byte '=')
      let (buf, _) ← write3digits buf 10 el
      let buf ← store buf 13 (byte '\r')
      return (buf, 14)
  | .azimuthPosition az => writeAxisPosition (byte 'A') (byte 'Z') az buf
  | .elevationPosition el => writeAxisPosition (byte 'E') (byte 'L') el buf
  | .status status => do
      let buf ← copyFromSlice buf 0 3 (bytes "ST=")
      let value := bytes (statusToStr status)
      let buf ← copyFromSlice buf 3 (3 + value.length) value
      let buf ← store buf (3 + value.length) (byte '\r')
      return (buf, 4 + value.length)
  | .statusRegister val => writeRegister (byte 'G') (byte 'S') val buf
  | .errorRegister val => writeRegister (byte 'G') (byte 'E') val buf
  | .configValue register value => do
      let buf ← store buf 0 (byte 'C')
      let buf ← store buf 1 (byte 'R')
      let (buf, pos) ← writeU32 buf 2 register.toUInt32
      let buf ← store buf pos (byte ',')
      let (buf, pos) ← writeI32 buf (pos + 1) value
      let buf ← store buf pos (byte '\n')
      return (buf, pos + 1)

end Easycom
