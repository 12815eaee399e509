import Bitle.Lib.Bits
import Bitle.Lib.Bytes
import Bitle.Lib.Run
import Bitle.Lib.Slots
import Bitle.Lib.Table
import Bitle.Lib.Flash
import Bitle.Lib.Flood
import Bitle.Lib.Pull
import Bitle.Codec.Packet
import Bitle.Codec.Decode
import Bitle.Codec.Frame
import Bitle.Mesh.Network
import Bitle.Lib.Ring
import Bitle.Mesh.Fragment
import Bitle.Mesh.Inbound
import Bitle.Mesh.Link
import Bitle.Mesh.Relay
import Bitle.Noise.CipherState
import Bitle.Noise.Nonce
import Bitle.Noise.Session
import Bitle.Noise.Transport
import Bitle.Noise.Identity
import Bitle.Noise.Canonical
import Bitle.Noise.Worker
import Bitle.Noise.Binding
import Bitle.Noise.Heard
import Bitle.Noise.Links
import Bitle.Noise.Roles
import Bitle.Noise.Collision
import Bitle.Lib.HashChain
import Bitle.Noise.Symmetric
import Bitle.Noise.Handshake
import Bitle.Noise.Agreement
import Bitle.Noise.Transcript
import Bitle.Noise.Peers
import Bitle.Noise.Nickname
import Bitle.Lora.Trunk
import Bitle.Lib.Bucket
import Bitle.Lora.Governor
import Bitle.Lora.Throttle
import Bitle.Lora.Fragment
import Bitle.Lora.Reassembly
import Bitle.Lora.Arq
import Bitle.Mesh.Transit
import Bitle.Mesh.Flood
import Bitle.Noise.Introduction
import Bitle.Time.Clock
import Bitle.Time.Wrap
import Bitle.Sync.Store
import Bitle.Sync.Gcs
import Bitle.Sync.Filter
import Bitle.Sync.Limit
import Bitle.Sync.Order
import Bitle.Sync.Quota
import Bitle.Sync.Replay
import Bitle.Sync.Request
import Bitle.Ota.Task
import Bitle.Ota.Step
import Bitle.Ota.Serve
import Bitle.Ota.Transfer
import Bitle.Ota.Chunks
import Bitle.Ota.Apply
import Bitle.Ota.Update
import Bitle.Ota.Pulled
import Bitle.Ble.Conn
import Bitle.Ble.Links
import Bitle.Lib.Recent
import Bitle.Ble.Deny
import Bitle.Ble.Slots
import Bitle.Store.Mailbox
import Bitle.Store.Layout
import Bitle.Store.Ring
import Bitle.Store.Put
import Bitle.Store.Boot
import Bitle.Store.Map
import Bitle.Store.Calls
import Bitle.Store.Torn
import Bitle.Store.Placed
import Bitle.Store.Faults
import Bitle.Store.Chain
import Bitle.Store.Tail
import Bitle.Store.Refuse
import Bitle.Courier.Envelope
import Bitle.Courier.Courier
import Bitle.Courier.Window
import Bitle.Courier.Lock
import Bitle.Courier.Mail
import Bitle.Courier.Life
import Bitle.Courier.Handoff
import Bitle.Courier.Copies
import Bitle.Courier.Limits
import Bitle.Lib.Newest
import Bitle.Store.Dedup
import Bitle.Store.Order
import Bitle.Store.Oldest
import Bitle.Store.Latest
