import LightMqtt.Base.Wp
import LightMqtt.Base.Halting
import LightMqtt.Base.Mirror
import LightMqtt.Base.Simulation
import LightMqtt.Base.Varint
import LightMqtt.Base.Cells
import LightMqtt.Base.Machine
import LightMqtt.Base.MarkedQueue
import LightMqtt.Core
import LightMqtt.Store
import LightMqtt.IdSet
import LightMqtt.Objects
import LightMqtt.World
import LightMqtt.Session
import LightMqtt.Encode
import LightMqtt.Decode
import LightMqtt.Client
import LightMqtt.Effect
import LightMqtt.Owed
import LightMqtt.Sound
import LightMqtt.SessionEffects
import LightMqtt.EncodeEffects
import LightMqtt.DecodeEffects
import LightMqtt.Run
import LightMqtt.Delivery
import LightMqtt.Acknowledge
import LightMqtt.Requests
import LightMqtt.PacketIds
import LightMqtt.Sender
import LightMqtt.Answers
import LightMqtt.Outcomes
import LightMqtt.Transfer
import LightMqtt.RunOnce
import LightMqtt.Clock
import LightMqtt.KeepAlive
import LightMqtt.Limits
import LightMqtt.Packets
import LightMqtt.Sources
import LightMqtt.Stream
import LightMqtt.Turns
import LightMqtt.Message
import LightMqtt.Receive
import LightMqtt.RoundTrip
import LightMqtt.Builds
import LightMqtt.Eof
import LightMqtt.Release
import LightMqtt.WireIds
import LightMqtt.Frame
import LightMqtt.DecodeKeeps
import LightMqtt.DecodeFrame
import LightMqtt.Deeds
import LightMqtt.IdRoom
import LightMqtt.PacketOrder
import LightMqtt.Redelivery
import LightMqtt.Early
import LightMqtt.ApiStates
import LightMqtt.HeaderCodec
import LightMqtt.Base.Prefixed
import LightMqtt.Wire
import LightMqtt.Bodies
import LightMqtt.Grammar
import LightMqtt.Reader
import LightMqtt.PublishBody
import LightMqtt.Suback
import LightMqtt.Untold
import LightMqtt.Incoming
import LightMqtt.Allocations
import LightMqtt.Releases
import LightMqtt.Progress
import LightMqtt.Asserts
import LightMqtt.Trips
import LightMqtt.Chunks
import LightMqtt.Flush
import LightMqtt.StoreArray
import LightMqtt.IdSetArray
import LightMqtt.Timers
import LightMqtt.BufferCells
import LightMqtt.Walking
import LightMqtt.Standing
import LightMqtt.Termination
import LightMqtt.Outgoing
import LightMqtt.WholePackets
import LightMqtt.Cuts
import LightMqtt.Resuming
import LightMqtt.Exchanges
import LightMqtt.Resent
