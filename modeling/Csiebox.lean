import Csiebox.Client.Coverage
import Csiebox.Client.Events
import Csiebox.Client.ServerGone
import Csiebox.Common.Digest
import Csiebox.EvenServer.Reply
import Csiebox.EvenServer.Rounds
import Csiebox.Hash.Intact
import Csiebox.Lib.Lexical
import Csiebox.Lib.Total
import Csiebox.Locks.Theorems
import Csiebox.Monitor.Agreement
import Csiebox.Monitor.Count
import Csiebox.PortRegister.Cleanup.Theorems
import Csiebox.PortRegister.Segmentation
import Csiebox.PortRegister.Theorems
import Csiebox.Replica.FirstSync
import Csiebox.Roles.Theorems
import Csiebox.Service.Bounds.Theorems
import Csiebox.Service.Confinement
import Csiebox.Service.Counter
import Csiebox.Service.FailedLogin
import Csiebox.Service.Gate
import Csiebox.Service.Survival.Theorems
import Csiebox.Session.AccountLogin
import Csiebox.Session.Links
import Csiebox.Session.Theorems
import Csiebox.Tables.Runs
import Csiebox.Tables.Uses
import Csiebox.ThreadPool.Theorems
import Csiebox.Transfer
import Csiebox.Transfer.Codec
import Csiebox.Traverse.Histories
import Csiebox.WriteServer.HeaderLine
import Csiebox.WriteServer.Theorems
