import Easycom.Encode
import Easycom.Rust.Str

/-!
# Easycom — Decode

The decoders of `framing.rs`. A function is in `Exec` where its source
slices, indexes or does fixed-width arithmetic; the others cannot panic and
are plain. The inner `Option` and `Except` are the source's own.

A response is read by a cascade of `try_parse` functions, after its
checksum. Of a command, the checksum suffix is cut, the exact and
fixed-length GS-232 forms are tried first, then the variable-length
Easycomm II and III forms.
-/

namespace Easycom

open Rust

/-- A line terminator: CR or LF. -/
def isTerminator (b : UInt8) : Bool := b == byte '\r' || b == byte '\n'

/-! ## Responses -/

def parseHexNibble (b : UInt8) : Exec (Option UInt8) := do
  if byte '0' ≤ b ∧ b ≤ byte '9' then
    let v ← subU8 b (byte '0')
    return some v
  if byte 'a' ≤ b ∧ b ≤ byte 'f' then
    let v ← subU8 b (byte 'a')
    let v ← addU8 v 10
    return some v
  if byte 'A' ≤ b ∧ b ≤ byte 'F' then
    let v ← subU8 b (byte 'A')
    let v ← addU8 v 10
    return some v
  return none

/-- A decimal number, possibly with a fractional part, truncated. -/
def parseFloatU16 (s : Str) : Exec (Option UInt16) := do
  if s.isEmpty then return none
  let intPart ← match s.find (lit ".") with
    | some dot => s.sliceTo dot
    | none => pure s
  return intPart.parseU16

/-- Find `label` in `s` and parse the three bytes following it. -/
def parseLabeledValue (s label : Str) : Option UInt16 := do
  let idx ← s.find label
  let digits ← s.get (idx + label.len) (idx + label.len + 3)
  digits.parseU16

/-- `AZ=NNN EL=NNN`, scanning for the two labels. -/
def tryParsePosition (data : List UInt8) : Option Response := do
  if data.length < 13 then none
  let s ← fromUtf8 data
  let az ← parseLabeledValue s (lit "AZ=")
  let el ← parseLabeledValue s (lit "EL=")
  return .position az el

/-- `AZNNN.N` or `ELNNN.N`, with or without `=`. -/
def tryParseSingleAxis (data : List UInt8) : Exec (Option Response) := do
  let some s := fromUtf8 data | return none
  if let some rest := s.stripPrefix (lit "AZ") then
    let val := (rest.stripPrefix (lit "=")).getD rest
    let some deg ← parseFloatU16 val | return none
    return some (.azimuthPosition deg)
  if let some rest := s.stripPrefix (lit "EL") then
    let val := (rest.stripPrefix (lit "=")).getD rest
    let some deg ← parseFloatU16 val | return none
    return some (.elevationPosition deg)
  return none

/-- The status a wire word stands for. -/
def statusFromStr (s : Str) : Option DeviceStatus :=
  if s = lit "idle" then some .idle
  else if s = lit "moving" then some .moving
  else if s = lit "homing" then some .homing
  else if s = lit "not_homed" then some .notHomed
  else if s = lit "homing_az_error" then some .homingAzError
  else if s = lit "homing_el_error" then some .homingElError
  else none

/-- `ST=<status>`. -/
def tryParseStatus (data : List UInt8) : Option Response := do
  let s ← fromUtf8 data
  let value ← s.stripPrefix (lit "ST=")
  let status ← statusFromStr value
  return .status status

/-- `<reg>,<val>`: what follows `CR` in a response and `CW` in a command. -/
def parseRegisterValue (rest : Str) : Exec (Option (UInt16 × Int32)) := do
  let some comma := rest.find (lit ",") | return none
  let left ← rest.sliceTo comma
  let some reg := left.parseU16 | return none
  let right ← rest.sliceFrom (comma + 1)
  let some val := right.parseI32 | return none
  return some (reg, val)

/-- `GS<val>`, `GE<val>` or `CR<reg>,<val>`. -/
def tryParseRegister (data : List UInt8) : Exec (Option Response) := do
  let some s := fromUtf8 data | return none
  if let some val := s.stripPrefix (lit "GS") then
    return val.parseU16.map .statusRegister
  if let some val := s.stripPrefix (lit "GE") then
    return val.parseU16.map .errorRegister
  if let some rest := s.stripPrefix (lit "CR") then
    let some (reg, val) ← parseRegisterValue rest | return none
    return some (.configValue reg val)
  return none

/-- The checksum block of `decode`: the payload and, where the frame
carries one, the checksum expected of it. -/
def splitChecksum (trimmed : List UInt8) :
    Exec (Except ParseError (List UInt8 × Option UInt8)) := do
  let some star := rposition (fun w => w.1 == byte '*') (windows3 trimmed)
    | return .ok (trimmed, none)
  let csBytes ← slice trimmed (star + 1) (star + 3)
  if csBytes.length = 2 then
    let c0 ← index csBytes 0
    let some hi ← parseHexNibble c0 | return .error .invalidUtf8
    let c1 ← index csBytes 1
    let some lo ← parseHexNibble c1 | return .error .invalidUtf8
    let payload ← sliceTo trimmed star
    return .ok (payload, some ((hi <<< 4) ||| lo))
  return .ok (trimmed, none)

/-- The cascade of `decode` on a payload whose checksum is settled. -/
def decodePayload (payload : List UInt8) :
    Exec (Except ParseError Response) := do
  if payload = bytes "?" then return .ok .error
  if payload.isEmpty ∨ payload = bytes "+" then return .ok .ack
  if let some posResp := tryParsePosition payload then
    return .ok posResp
  if let some axisResp ← tryParseSingleAxis payload then
    return .ok axisResp
  if let some statusResp := tryParseStatus payload then
    return .ok statusResp
  if let some regResp ← tryParseRegister payload then
    return .ok regResp
  return .error .unknownCommand

/-- `decode` on a frame whose trailing CR and LF are cut. -/
def decodeTrimmed (trimmed : List UInt8) :
    Exec (Except ParseError Response) := do
  if trimmed.isEmpty then return .ok .ack
  match ← splitChecksum trimmed with
  | .error e => return .error e
  | .ok (payload, expectedChecksum) =>
      if let some expected := expectedChecksum then
        let actual := xorChecksum payload
        if actual ≠ expected then return .error .badChecksum
      decodePayload payload

/-- Decode a complete response frame. -/
def decode (input : List UInt8) : Exec (Except ParseError Response) := do
  if input.isEmpty then return .error .unexpectedEof
  let trimmed ← match rposition (fun b => !isTerminator b) input with
    | some i => sliceToIncl input i
    | none => pure []
  decodeTrimmed trimmed

/-! ## Commands -/

def asciiDigit (b : UInt8) : Exec (Option UInt8) := do
  if byte '0' ≤ b ∧ b ≤ byte '9' then
    let v ← subU8 b (byte '0')
    return some v
  return none

def parseU16_3digit (d0 d1 d2 : UInt8) : Exec (Option UInt16) := do
  let some a ← asciiDigit d0 | return none
  let some b ← asciiDigit d1 | return none
  let some c ← asciiDigit d2 | return none
  let hundreds ← mulU16 a.toUInt16 100
  let tens ← mulU16 b.toUInt16 10
  let sum ← addU16 hundreds tens
  let sum ← addU16 sum c.toUInt16
  return some sum

def parseSigned3digit (sign d0 d1 d2 : UInt8) : Exec (Option Int16) := do
  let some mag ← parseU16_3digit d0 d1 d2 | return none
  if sign = byte '+' then return some mag.toInt16
  if sign = byte '-' then
    let neg ← negI16 mag.toInt16
    return some neg
  return none

/-- Cut an optional `*XX` suffix. -/
def stripCmdChecksum (frame : List UInt8) : Exec (List UInt8) := do
  if 3 ≤ frame.length then
    if let some pos := rposition (fun b => b == byte '*') frame then
      if pos + 3 ≤ frame.length then
        return ← sliceTo frame pos
  return frame

/-- The exact-match frames, checked first. -/
def exactCommand (frame : List UInt8) : Option Command :=
  if frame = bytes "C" then some .queryPosition
  else if frame = bytes "S" then some .stop
  else if frame = bytes "?" then some .keepAlive
  else if frame = bytes "GS" then some .getStatusRegister
  else if frame = bytes "GE" then some .getErrorRegister
  else if frame = bytes "AZ" then some .queryAzimuth
  else if frame = bytes "EL" then some .queryElevation
  else none

/-- The fixed-length GS-232 patterns. A frame that has the shape but not
the digits or the range falls through. -/
def fixedCommand : List UInt8 → Exec (Option Command)
  | [l, d0, d1, d2] => do
      if l = byte 'A' then
        let v ← parseU16_3digit d0 d1 d2
        return (v.filter (· ≤ 360)).map .azimuth
      if l = byte 'E' then
        let v ← parseU16_3digit d0 d1 d2
        return (v.filter (· ≤ 180)).map .elevation
      return none
  | [l, a0, a1, a2, sep, e0, e1, e2] => do
      if l = byte 'W' ∧ sep = byte ' ' then
        let az ← parseU16_3digit a0 a1 a2
        let el ← parseU16_3digit e0 e1 e2
        match az.filter (· ≤ 360), el.filter (· ≤ 180) with
        | some az, some el => return some (.azimuthElevation az el)
        | _, _ => return none
      return none
  | [l, s1, a0, a1, a2, s2, e0, e1, e2] => do
      if l = byte 'O' then
        let az ← parseSigned3digit s1 a0 a1 a2
        let el ← parseSigned3digit s2 e0 e1 e2
        match az, el with
        | some az, some el => return some (.offset az el)
        | _, _ => return none
      return none
  | _ => return none

/-- `s.strip_prefix(label).and_then(parse_float_u16)`. -/
def labelledAngle (s label : Str) : Exec (Option UInt16) :=
  match s.stripPrefix label with
  | some val => parseFloatU16 val
  | none => return none

/-- The combined set `AZnnn.n ELnnn.n`. -/
def combinedSet (s : Str) : Exec (Option Command) := do
  let some spaceIdx := s.find (lit " ") | return none
  let left ← s.sliceTo spaceIdx
  let right ← s.sliceFrom (spaceIdx + 1)
  let az ← labelledAngle left (lit "AZ")
  let el ← labelledAngle right (lit "EL")
  match az, el with
  | some az, some el =>
      if az ≤ 360 ∧ el ≤ 180 then return some (.azimuthElevation az el)
      return none
  | _, _ => return none

/-- The single-axis sets `AZnnn.n` and `ELnnn.n`. -/
def singleAxisSet (s : Str) : Exec (Option Command) := do
  if let some val := s.stripPrefix (lit "AZ") then
    let some az ← parseFloatU16 val | return none
    if az ≤ 360 then return some (.azimuth az)
  if let some val := s.stripPrefix (lit "EL") then
    let some el ← parseFloatU16 val | return none
    if el ≤ 180 then return some (.elevation el)
  return none

/-- The axis sets, the combined one first. -/
def axisSet (s : Str) : Exec (Option Command) := do
  if let some cmd ← combinedSet s then return some cmd
  singleAxisSet s

/-- Easycomm II and III variable-length commands. -/
def tryParseEasycomm (frame : List UInt8) : Exec (Option Command) := do
  let some s := fromUtf8 frame | return none
  -- multi-character keywords
  if s = lit "RESET" then return some .reset
  if s = lit "PARK" then return some .park
  -- stop variants
  if s = lit "SA SE" ∨ s = lit "SA" ∨ s = lit "SE" then return some .stop
  -- velocity
  if let some val := s.stripPrefix (lit "VL") then
    return val.parseU32.map .velocityLeft
  if let some val := s.stripPrefix (lit "VR") then
    return val.parseU32.map .velocityRight
  if let some val := s.stripPrefix (lit "VU") then
    return val.parseU32.map .velocityUp
  if let some val := s.stripPrefix (lit "VD") then
    return val.parseU32.map .velocityDown
  -- configuration registers
  if let some rest := s.stripPrefix (lit "CW") then
    let some (reg, val) ← parseRegisterValue rest | return none
    return some (.writeConfig reg val)
  if let some rest := s.stripPrefix (lit "CR") then
    return rest.parseU16.map .readConfig
  -- status register with a value; bare GS is an exact match
  if let some val := s.stripPrefix (lit "GS") then
    if !val.isEmpty then return some .getStatusRegister
  axisSet s

/-- The cascade of `decode_command` on a frame whose suffix is cut. -/
def decodeStripped (frame : List UInt8) : Exec (Option Command) := do
  if frame.isEmpty then return none
  if let some cmd := exactCommand frame then return some cmd
  if let some cmd ← fixedCommand frame then return some cmd
  tryParseEasycomm frame

/-- Parse a raw frame (the bytes before the terminator) as a command. -/
def decodeCommand (frame : List UInt8) : Exec (Option Command) := do
  let frame ← stripCmdChecksum frame
  decodeStripped frame

end Easycom
