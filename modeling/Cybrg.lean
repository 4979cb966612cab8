import Cybrg.Sessions.Isolation
import Cybrg.Sessions.Integrity
import Cybrg.Sessions.Reflection
import Cybrg.Sessions.ByteStream
import Cybrg.Sessions.PacketBound
import Cybrg.Sessions.SequenceNumbers
import Cybrg.Sessions.Keystream
import Cybrg.Handshake.KeyAgreement
import Cybrg.Handshake.Confirmation
import Cybrg.Handshake.Freshness
import Cybrg.Handshake.Completeness
import Cybrg.Common.CertManager
import Cybrg.Server.Authentication
import Cybrg.Server.Confinement
import Cybrg.Server.Downloads
import Cybrg.Server.Uploads
import Cybrg.Server.Packetisation
import Cybrg.Conversation.Listing
import Cybrg.Conversation.InStep
import Cybrg.Handshake.SealReads
import Cybrg.Handshake.KeyLengths
import Cybrg.Sessions.ReceiveBuffer
import Cybrg.Sessions.FailedReceive
import Cybrg.Server.UploadFailures
import Cybrg.Conversation.OneReply
import Cybrg.Conversation.PutGet
import Cybrg.Sessions.ShortSends
import Cybrg.Sessions.ByteOrders
import Cybrg.Conversation.HeaderTrips
import Cybrg.Conversation.CutFiles
import Cybrg.Conversation.BodyLoops
import Cybrg.Sessions.Authentic
import Cybrg.Sessions.NoOracle
import Cybrg.Conversation.AnyNetwork
import Cybrg.Client.Streaming
import Cybrg.Conversation.AttackedClient
import Cybrg.Server.Frame
import Cybrg.Conversation.OwnFiles
import Cybrg.Library.Mirror
import Cybrg.Conversation.Copies
import Cybrg.Conversation.Shelf
import Cybrg.Server.Calls
import Cybrg.Library.Views
import Cybrg.Server.Secrecy
import Cybrg.Server.SharedBuffer
import Cybrg.Conversation.CutShort
import Cybrg.Server.Start
import Cybrg.Conversation.Attacked
