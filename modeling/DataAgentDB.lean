import DataAgentDB.Occ.Deadlock
import DataAgentDB.Occ.Versions
import DataAgentDB.Server.Lifecycle
import DataAgentDB.Kv.Abort
import DataAgentDB.Kv.Loader
import DataAgentDB.Kv.OwnWrites
import DataAgentDB.Kv.Release
import DataAgentDB.Kv.Conflict
import DataAgentDB.Kv.DirtyRead
import DataAgentDB.Kv.InsertRace
import DataAgentDB.Kv.Mismatch
import DataAgentDB.Kv.Serial
import DataAgentDB.Server.Wire
import DataAgentDB.Storage.IndexMap
import DataAgentDB.Storage.ItemChains
import DataAgentDB.Storage.MemAlloc
import DataAgentDB.Storage.SlotRuns
import DataAgentDB.Client.InStep
import DataAgentDB.Agent.Isolation
import DataAgentDB.Storage.MergeKey
import DataAgentDB.Storage.Timestamps
import DataAgentDB.Agent.History
import DataAgentDB.Client.Verify
import DataAgentDB.Agent.Chat
import DataAgentDB.Storage.Fields
import DataAgentDB.Storage.RowsApart
import DataAgentDB.Storage.SchemaBuilt
import DataAgentDB.Kv.Overwrite
import DataAgentDB.Engine.Projection
import DataAgentDB.Client.Bench
import DataAgentDB.Engine.Counters
import DataAgentDB.Kv.TxnIds
import DataAgentDB.Storage.IndexLinear
import DataAgentDB.Kv.StringRows
import DataAgentDB.Server.Transport
