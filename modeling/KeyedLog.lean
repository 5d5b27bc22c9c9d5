import KeyedLog.Json.Write
import KeyedLog.Main
import KeyedLog.Proofs.Cipher.Tampering
import KeyedLog.Proofs.Config.Environment
import KeyedLog.Proofs.Config.Startup
import KeyedLog.Proofs.Dialing
import KeyedLog.Proofs.FinalFlush
import KeyedLog.Proofs.Latch
import KeyedLog.Proofs.Log.Dense
import KeyedLog.Proofs.Replay.Beginning
import KeyedLog.Proofs.Replay.LifeCycle
import KeyedLog.Proofs.Replay.Publishing
import KeyedLog.Proofs.Replay.Undecodable
import KeyedLog.Proofs.Service.Exchanges
import KeyedLog.Proofs.Store.Damaged
import KeyedLog.Proofs.Store.Layout
import KeyedLog.Proofs.Store.Numbering
import KeyedLog.Proofs.Text.Base64
import KeyedLog.Session
