import Undertone.Lib.Loop
import Undertone.Lib.Bounded
import Undertone.Lib.Recurrence
import Undertone.Lib.Locator
import Undertone.Lib.Ring
import Undertone.Lib.Run
import Undertone.Lib.Extended
import Undertone.ReedSolomon.Defs
import Undertone.ReedSolomon.Field
import Undertone.ReedSolomon.Tables
import Undertone.ReedSolomon.Encode
import Undertone.ReedSolomon.Berlekamp
import Undertone.ReedSolomon.Roots
import Undertone.ReedSolomon.Decode
import Undertone.ReedSolomon.Message
import Undertone.ReedSolomon.Code
import Undertone.ReedSolomon.Shortened
import Undertone.ReedSolomon.Checked
import Undertone.ReedSolomon.Transmit
import Undertone.Arith
import Undertone.Globals
import Undertone.Hex
import Undertone.Spectral
import Undertone.Transform
import Undertone.Decoder.MultiTone
import Undertone.Decoder.Block
import Undertone.Decoder.SingleTone
import Undertone.Decoder.Frames
import Undertone.Decoder.Defs
import Undertone.Decoder.Checked
import Undertone.Encoder
import Undertone.Audio
import Undertone.Capacity
import Undertone.Streaming
import Undertone.OxyCore
import Undertone.Correction
import Undertone.Events
import Undertone.Chunking
import Undertone.Clock
import Undertone.Tuning
import Undertone.Hopping
import Undertone.Spectrum
import Undertone.Bounds
import Undertone.Reverberation
import Undertone.Exchange
import Undertone.Ranking
import Undertone.Steady
import Undertone.Exact
import Undertone.Chord
import Undertone.Messages
import Undertone.Overrun
import Undertone.Search
import Undertone.Following
import Undertone.Leftover
import Undertone.Grammar
import Undertone.Server
import Undertone.Mixer.Defs
import Undertone.Mixer.Energy
import Undertone.Mixer.Levels
import Undertone.Mixer.Safety
import Undertone.Mixer.Peak
import Undertone.NumberBase
import Undertone.Signature
import Undertone.Blocks
import Undertone.Vote
import Undertone.History
import Undertone.Handles
import Undertone.Interface
import Undertone.SameMessage
import Undertone.Silence
import Undertone.Lib.Exceptions
import Undertone.Reception.Hearing
import Undertone.Reception.Idle
import Undertone.Reception.Message
import Undertone.Reception.Receiver
import Undertone.Reception.Broadcast
import Undertone.Reception.Beacon
import Undertone.Lib.Reader
import Undertone.WebSocket.Defs
import Undertone.WebSocket.Frames
import Undertone.WebSocket.Messages
import Undertone.WebSocket.Queue
import Undertone.WebSocket.Echo
import Undertone.WebSocket.Http
import Undertone.WebSocket.Handshake
import Undertone.WebSocket.Query
import Undertone.WebSocket.Address
import Undertone.WebSocket.Peers
import Undertone.WebSocket.Scopes
import Undertone.Amplitude
import Undertone.Lib.While
import Undertone.Marks
