import Ferryx.Theorems.Reports
import Ferryx.Theorems.LeaseAgreement
import Ferryx.Theorems.Accounts
import Ferryx.Theorems.FxshStream
import Ferryx.Theorems.SpawnOnce
import Ferryx.Theorems.MachineStream
import Ferryx.Theorems.KeyframeRequests
import Ferryx.Theorems.Datagrams
import Ferryx.Theorems.InputOnce
import Ferryx.Theorems.HandoverRelease
import Ferryx.Theorems.BindingEnds
import Ferryx.Theorems.HandoverRetry
import Ferryx.Theorems.CommitQuiescence
import Ferryx.Theorems.SplitOperations
import Ferryx.Theorems.Consent
import Ferryx.Theorems.AuthorProgress
import Ferryx.Theorems.LedgerInvariant
import Ferryx.Theorems.PaneInvariant
import Ferryx.Theorems.OperationsOnce
import Ferryx.Theorems.BindingTimers
import Ferryx.Theorems.ReplicaDigest
import Ferryx.Theorems.BracketedPaste
import Ferryx.Theorems.ParityRecovery
import Ferryx.Theorems.TcpFrames
import Ferryx.Theorems.OwnerEdits
import Ferryx.Theorems.RoleInvariant
import Ferryx.Theorems.UnreadableFences
