import Nsblast.Replication.SessionIds
import Nsblast.Replication.Confirmation
import Nsblast.Slave.SerialChain
import Nsblast.Slave.ZoneFrame
import Nsblast.Engine.AxfrExact
import Nsblast.Rest.Concurrency
import Nsblast.Accounts.UserIndex
import Nsblast.Accounts.TenantNames
import Nsblast.Accounts.Revocation
import Nsblast.Rest.AllowedPermissions
import Nsblast.Store.Statuses
import Nsblast.Wire.RefusedRecords
import Nsblast.Rest.RepeatedBuilds
import Nsblast.Engine.AnsweredReplies
import Nsblast.Engine.LargeReply
import Nsblast.Replication.CatchUp
import Nsblast.Rest.ZonePages
import Nsblast.Replication.Resend
import Nsblast.Store.TrxIds
import Nsblast.Accounts.RoleUnion
import Nsblast.Rest.ApexPatch
import Nsblast.Wire.SoaFields
import Nsblast.Storage.HostNames
import Nsblast.Server.BackupTimer
