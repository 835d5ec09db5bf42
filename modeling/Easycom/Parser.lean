import Easycom.Decode

/-!
# Easycom — Parser

The two byte-by-byte parsers of `framing.rs`: `CommandParser` on the
device and `Parser` on the host. A `feed` returns the parser after the
byte and what the source returns for it.
-/

namespace Easycom

open Rust

/-- `self.buf[i] = byte` on a fixed-size array. -/
def storeArray {n : Nat} (buf : Vector UInt8 n) (i : Nat) (b : UInt8) :
    Exec (Vector UInt8 n) :=
  if h : i < n then .ok (buf.set i b h) else .error .indexOutOfBounds

/-- `MAX_CMD_FRAME`. -/
def maxCmdFrame : Nat := 32

/-- `MAX_FRAME`. -/
def maxFrame : Nat := 64

/-- The accumulator of incoming host commands. -/
structure CommandParser where
  buf : Vector UInt8 maxCmdFrame
  len : Nat
  deriving DecidableEq

def CommandParser.new : CommandParser := ⟨Vector.replicate _ 0, 0⟩

def CommandParser.feed (self : CommandParser) (b : UInt8) :
    Exec (Option Command × CommandParser) := do
  if isTerminator b then
    let frame ← sliceTo self.buf.toList self.len
    let cmd ← decodeCommand frame
    return (cmd, { self with len := 0 })
  else if self.len < maxCmdFrame then
    let buf ← storeArray self.buf self.len b
    return (none, { buf, len := self.len + 1 })
  else
    -- overlong: the collected bytes and this one are dropped
    return (none, { self with len := 0 })

/-- What `Parser::feed` returns for one byte. -/
abbrev ParserOutput := Option (Except ParseError Response)

/-- The accumulator of incoming device responses. -/
structure Parser where
  buf : Vector UInt8 maxFrame
  len : Nat
  deriving DecidableEq

def Parser.new : Parser := ⟨Vector.replicate _ 0, 0⟩

def Parser.feed (self : Parser) (b : UInt8) : Exec (ParserOutput × Parser) := do
  if isTerminator b then
    let frame ← sliceTo self.buf.toList self.len
    let result ← decode frame
    return (some result, { self with len := 0 })
  else if self.len < maxFrame then
    let buf ← storeArray self.buf self.len b
    return (none, { buf, len := self.len + 1 })
  else
    -- overflow: the collected bytes and this one are dropped
    return (some (.error .unexpectedEof), { self with len := 0 })

/-- `Parser::feed_slice`: the frames completed by a slice of bytes. -/
def Parser.feedSlice (self : Parser) :
    List UInt8 → Exec (List (Except ParseError Response) × Parser)
  | [] => .ok ([], self)
  | b :: bs => do
      let (out, self) ← self.feed b
      let (outs, self) ← Parser.feedSlice self bs
      return (out.toList ++ outs, self)

end Easycom
