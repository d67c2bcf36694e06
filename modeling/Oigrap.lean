import Oigrap.Storage.BTreeMap
import Oigrap.Raft.TwoPhase
import Oigrap.Storage.Deadlock
import Oigrap.Storage.PoolRuns
import Oigrap.Raft.Safety
import Oigrap.Sql.Reorder
import Oigrap.Storage.WalRuns
import Oigrap.Raft.Transport
import Oigrap.Raft.StateMachine
import Oigrap.Server.Statements
import Oigrap.Server.ErrorRecovery
import Oigrap.Server.Paging
import Oigrap.Sql.ParserSpec
import Oigrap.Server.Substitution
import Oigrap.Sql.ThreeValued
import Oigrap.Sql.Spill
import Oigrap.Sql.Like
import Oigrap.Sql.OrderBy
import Oigrap.Sql.OuterJoin
import Oigrap.Sql.GroupBy
import Oigrap.Storage.PageRuns
import Oigrap.Storage.PoolFrames
import Oigrap.Storage.Jsonb
import Oigrap.Raft.Delivery
import Oigrap.Raft.AppendEntries
import Oigrap.Sql.KeyBytes
import Oigrap.Storage.Durability
import Oigrap.Storage.VacuumSpec
