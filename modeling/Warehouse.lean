import Warehouse.Machine.Run
import Warehouse.Machine.Keyed
import Warehouse.Machine.Transit
import Warehouse.Machine.SortedMap
import Warehouse.Machine.Ledger
import Warehouse.Machine.Cells
import Warehouse.Machine.Chain
import Warehouse.Machine.Memory
import Warehouse.Text.Bytes
import Warehouse.Text.Scanner
import Warehouse.Text.Utf8
import Warehouse.Text.Lines
import Warehouse.Numeric.Binary64
import Warehouse.Numeric.Decimal
import Warehouse.Numeric.Rounding
import Warehouse.Numeric.ReadBack
import Warehouse.CJson.Node
import Warehouse.CJson.Number
import Warehouse.CJson.Strings
import Warehouse.CJson.Literals
import Warehouse.CJson.Print
import Warehouse.CJson.Parse
import Warehouse.CJson.Grammar
import Warehouse.CJson.Fields
import Warehouse.CJson.Rendered
import Warehouse.CJson.Unicode
import Warehouse.CJson.Stable
import Warehouse.CJson.Heap
import Warehouse.CJson.HeapState
import Warehouse.CJson.Forest
import Warehouse.CJson.HeapEdits
import Warehouse.CJson.Trees
import Warehouse.CJson.HeapCopies
import Warehouse.CJson.HeapItems
import Warehouse.CJson.HeapRuns
import Warehouse.CJson.HeapValues
import Warehouse.CJson.HeapParse
import Warehouse.CJson.HeapParsed
import Warehouse.CJson.HeapTexts
import Warehouse.Inventory.Model
import Warehouse.Inventory.Quantities
import Warehouse.Inventory.Conservation
import Warehouse.Inventory.Stock
import Warehouse.Inventory.Cancel
import Warehouse.Inventory.Failures
import Warehouse.Inventory.Pointers
import Warehouse.Inventory.WriteBack
import Warehouse.Inventory.Removal
import Warehouse.Inventory.Range
import Warehouse.Auth.Model
import Warehouse.Auth.Emergency
import Warehouse.Auth.History
import Warehouse.Auth.Sessions
import Warehouse.Managers.Interleavings
import Warehouse.Message.Model
import Warehouse.Message.RoundTrip
import Warehouse.Message.Decoder
import Warehouse.Message.Assignment
import Warehouse.Message.Objects
import Warehouse.Message.Received
import Warehouse.Message.Header
import Warehouse.Network.Kernel
import Warehouse.Network.Model
import Warehouse.Network.Descriptors
import Warehouse.Network.Attribution
import Warehouse.Network.Registry
import Warehouse.Network.Datagrams
import Warehouse.Network.Stream
import Warehouse.Notification.Model
import Warehouse.Notification.Subscriptions
import Warehouse.Notification.Broadcast
import Warehouse.Notification.Notify
import Warehouse.Dispatcher.Model
import Warehouse.Dispatcher.Disposal
import Warehouse.Dispatcher.Requests
import Warehouse.Message.Acceptance
import Warehouse.Message.Relay
import Warehouse.Client.Model
import Warehouse.Client.Lifecycle
import Warehouse.Floor.Model
import Warehouse.Floor.Delivery
import Warehouse.Log.EventLogger
