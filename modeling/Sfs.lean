import Sfs.Container.HeaderCrash
import Sfs.Container.Lending
import Sfs.Container.GrowCrash
import Sfs.Container.GrowTail
import Sfs.Container.Fragments
import Sfs.Container.SealToFit
import Sfs.Container.Retained
import Sfs.Version.Converge
import Sfs.Version.Padding
import Sfs.Version.NoLostUpdate
import Sfs.Version.Transaction
import Sfs.Version.Publish
import Sfs.Version.Checkpoint
import Sfs.Sync.Lineages
import Sfs.Sync.Namespace
import Sfs.Sync.ImportBytes
import Sfs.Sync.ImportBlock
import Sfs.Sync.Resolve
import Sfs.Sync.Export
import Sfs.Sync.Removed
import Sfs.Sync.Negotiate
import Sfs.Catalog.CopyOnWrite
import Sfs.Mount.Handles
import Sfs.Mount.Fsync
import Sfs.Mount.SetAttr
import Sfs.Server.Frontiers
import Sfs.Server.Pushes
import Sfs.Server.Tokens
import Sfs.WalRecovery
