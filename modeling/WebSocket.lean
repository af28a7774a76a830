import WebSocket.BufferPool
import WebSocket.Bytes
import WebSocket.Channel.Callback
import WebSocket.Channel.Close
import WebSocket.Channel.Connection
import WebSocket.Channel.Error
import WebSocket.Channel.Link
import WebSocket.Channel.Outgoing
import WebSocket.Channel.Session
import WebSocket.Client
import WebSocket.Digest.Sha1
import WebSocket.Encoding.Base64
import WebSocket.Event
import WebSocket.Extension.Basic
import WebSocket.Extension.Config
import WebSocket.Extension.Deflate
import WebSocket.Extension.Either
import WebSocket.Extension.Identity
import WebSocket.Extension.Marker
import WebSocket.Extension.Registry
import WebSocket.Flate.CodeTree
import WebSocket.Flate.Compressor
import WebSocket.Flate.Format
import WebSocket.Flate.Inflater
import WebSocket.Flate.Limit
import WebSocket.Flate.Stream
import WebSocket.Frame.Basic
import WebSocket.Frame.Decoder
import WebSocket.Frame.Encoder
import WebSocket.Frame.Error
import WebSocket.Frame.Layout
import WebSocket.Frame.Mask
import WebSocket.Frame.Opcode
import WebSocket.Handshake.Accept
import WebSocket.Handshake.Error
import WebSocket.Handshake.Request
import WebSocket.Handshake.Response
import WebSocket.Handshake.Upgrade
import WebSocket.Handshake.Validation
import WebSocket.Http.Error
import WebSocket.Http.Headers
import WebSocket.Http.ResponseHead
import WebSocket.Http.Token
import WebSocket.Http.Uri
import WebSocket.Pipeline
import WebSocket.Proofs.Channel.Alike
import WebSocket.Proofs.Channel.BitsInUse
import WebSocket.Proofs.Channel.CloseAnswers
import WebSocket.Proofs.Channel.ClosePayload
import WebSocket.Proofs.Channel.Closing
import WebSocket.Proofs.Channel.Course
import WebSocket.Proofs.Channel.Encounter
import WebSocket.Proofs.Channel.History
import WebSocket.Proofs.Channel.Log
import WebSocket.Proofs.Channel.Origins
import WebSocket.Proofs.Channel.PeerReads
import WebSocket.Proofs.Channel.Pongs
import WebSocket.Proofs.Channel.Prepare
import WebSocket.Proofs.Channel.ReadInterest
import WebSocket.Proofs.Channel.Refusal
import WebSocket.Proofs.Channel.SendOrder
import WebSocket.Proofs.Channel.Sending
import WebSocket.Proofs.Channel.Shutdown
import WebSocket.Proofs.Client.Alike
import WebSocket.Proofs.Client.Chunking
import WebSocket.Proofs.Client.CloseAnswers
import WebSocket.Proofs.Client.Closing
import WebSocket.Proofs.Client.Delivery
import WebSocket.Proofs.Client.Pongs
import WebSocket.Proofs.Client.ReadInterest
import WebSocket.Proofs.Client.Shutdown
import WebSocket.Proofs.Extension.BitsApart
import WebSocket.Proofs.Extension.DeflateRoundTrip
import WebSocket.Proofs.Extension.Directions
import WebSocket.Proofs.Extension.Fragments
import WebSocket.Proofs.Extension.KeepsOpcode
import WebSocket.Proofs.Extension.MaskBlind
import WebSocket.Proofs.Extension.MessageSize
import WebSocket.Proofs.Extension.Registrations
import WebSocket.Proofs.Extension.Rendering
import WebSocket.Proofs.Flate.BitStream
import WebSocket.Proofs.Flate.Blocks
import WebSocket.Proofs.Flate.CallLoop
import WebSocket.Proofs.Flate.CanonicalCode
import WebSocket.Proofs.Flate.Deflation
import WebSocket.Proofs.Flate.Inflation
import WebSocket.Proofs.Flate.Limit
import WebSocket.Proofs.Flate.Tokens
import WebSocket.Proofs.Frame.BitsInUse
import WebSocket.Proofs.Frame.Grammar
import WebSocket.Proofs.Frame.Pieces
import WebSocket.Proofs.Frame.ReservedBits
import WebSocket.Proofs.Frame.RoundTrip
import WebSocket.Proofs.Handshake.Checks
import WebSocket.Proofs.Handshake.HeadEnd
import WebSocket.Proofs.Handshake.HeadOctets
import WebSocket.Proofs.Handshake.HeadPieces
import WebSocket.Proofs.Handshake.HeadRefusal
import WebSocket.Proofs.Handshake.HeaderLines
import WebSocket.Proofs.Handshake.Host
import WebSocket.Proofs.Handshake.Negotiation
import WebSocket.Proofs.Handshake.Offer
import WebSocket.Proofs.Handshake.Outcome
import WebSocket.Proofs.Handshake.RequestHead
import WebSocket.Proofs.Handshake.RequestTask
import WebSocket.Proofs.Handshake.Scheme
import WebSocket.Proofs.Handshake.Target
import WebSocket.Proofs.Handshake.Validation
import WebSocket.Proofs.Http.Authority
import WebSocket.Proofs.Http.Headers
import WebSocket.Proofs.Http.ResponseHead
import WebSocket.Proofs.Http.Scheme
import WebSocket.Proofs.Http.Uri
import WebSocket.Proofs.Parts
import WebSocket.Proofs.Pipeline.Mirror
import WebSocket.Proofs.Text.Balanced
import WebSocket.Proofs.Text.Boundary
import WebSocket.Proofs.Text.LineEnds
import WebSocket.Proofs.Text.Quoted
import WebSocket.Proofs.Text.SingleScan
import WebSocket.Proofs.Text.Utf8
import WebSocket.Text.Blank
import WebSocket.Text.Escaped
import WebSocket.Text.Printable
import WebSocket.Text.Quoted
import WebSocket.Text.Utf8
import WebSocket.Proofs.Client.BitsInUse
import WebSocket.Proofs.Extension.Window
