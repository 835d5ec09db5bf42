import Mathlib.Data.List.Basic

/-!
# Easycom — Command

The data of the protocol: the commands a host sends, the responses a
device returns, and the errors of parsing and of a session.
-/

namespace Easycom

/-- Commands that can be sent to an Easycom-compatible device. Angles are
whole degrees, speeds millidegrees per second. -/
inductive Command where
  | azimuth (az : UInt16)
  | elevation (el : UInt16)
  | azimuthElevation (az el : UInt16)
  | queryPosition
  | queryAzimuth
  | queryElevation
  | queryStatus
  | stop
  | offset (az el : Int16)
  | keepAlive
  | velocityLeft (speed : UInt32)
  | velocityRight (speed : UInt32)
  | velocityUp (speed : UInt32)
  | velocityDown (speed : UInt32)
  | getStatusRegister
  | getErrorRegister
  | readConfig (reg : UInt16)
  | writeConfig (register : UInt16) (value : Int32)
  | reset
  | park
  deriving DecidableEq, Repr

/-- Status codes reported by the device. -/
inductive DeviceStatus where
  | idle
  | moving
  | homing
  | notHomed
  | homingAzError
  | homingElError
  deriving DecidableEq, Repr

/-- Responses returned by an Easycom-compatible device. -/
inductive Response where
  | ack
  | position (az el : UInt16)
  | azimuthPosition (az : UInt16)
  | elevationPosition (el : UInt16)
  | status (status : DeviceStatus)
  | statusRegister (val : UInt16)
  | errorRegister (val : UInt16)
  | configValue (register : UInt16) (value : Int32)
  | error
  deriving DecidableEq, Repr

/-- Parse failures when decoding a response frame. -/
inductive ParseError where
  | unexpectedEof
  | invalidUtf8
  | unknownCommand
  | badChecksum
  deriving DecidableEq, Repr

/-- Errors of encoding, decoding or transporting a frame; `ε` is the
transport's own error type. -/
inductive Error (ε : Type) where
  | transport (e : ε)
  | parse (p : ParseError)
  | timeout
  | invalidParam (msg : String)
  deriving DecidableEq, Repr

end Easycom
