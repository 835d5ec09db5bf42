import Easycom.Rust.Checked
import Easycom.Rust.Buffer
import Easycom.Checksum
import Easycom.CommandDecoding
import Easycom.CommandEncoding
import Easycom.CommandStream
import Easycom.ResponseStream
import Easycom.ResponseChecksum
import Easycom.PositionDecoding
import Easycom.ResponseReencoding
import Easycom.BitErrors
import Easycom.Session
import Easycom.Conversation
import Easycom.DeviceLink
import Easycom.SessionHistory
import Easycom.CommandEcho
import Easycom.ResponseFraming
import Easycom.AngleForms
import Easycom.SessionCalls
import Easycom.SessionRecord
import Easycom.Timeouts
import Easycom.Interleaving
import Easycom.LineEndings
import Easycom.LostTerminators
import Easycom.CrossedWires
import Easycom.DecodeErrors
import Easycom.Client
import Easycom.Console
import Easycom.Tools
import Easycom.Endless
import Easycom.LostBytes
import Easycom.MergedResponses
