import Autocom.Lib.Bits
import Autocom.Lib.Handles
import Autocom.Lib.Lts
import Autocom.Lib.Monitor
import Autocom.Lib.Pipe
import Autocom.Lib.Scan
import Autocom.Lib.Window
import Autocom.Lib.XorSum
import Autocom.PayFrames
import Autocom.HexText
import Autocom.HexPairs
import Autocom.Numbers
import Autocom.SysInfo
import Autocom.Enquire
import Autocom.ExpectWindow
import Autocom.ExpectCutting
import Autocom.ExpectScan
import Autocom.ExpectRegex
import Autocom.IoThreads
import Autocom.Umutex
import Autocom.Machine
import Autocom.ExpectRuns
import Autocom.BinWait
import Autocom.Trims
import Autocom.InputRead
import Autocom.NoOut
import Autocom.Transmit
import Autocom.Receive
import Autocom.Pairing
import Autocom.Lifecycle
import Autocom.Completion
import Autocom.Sent
import Autocom.Descriptors
import Autocom.Credentials
import Autocom.SendBuf
import Autocom.SendBufWire
import Autocom.SendBufVerdict
import Autocom.Overrun
import Autocom.Scripts
import Autocom.ModemLines
import Autocom.TickWrap
import Autocom.Lines
import Autocom.LineReads
import Autocom.LinuxIo
import Autocom.CallFrame
import Autocom.LinuxReceive
import Autocom.Lib.Code
import Autocom.PayStream
import Autocom.OsThread
import Autocom.Exit
import Autocom.Lib.Links
import Autocom.Lib.Scatter
import Autocom.Lib.Chains
import Autocom.SQTable
import Autocom.SQTableSlot
import Autocom.SQTableRehash
import Autocom.SQTableRuns
import Autocom.SQStringTable
import Autocom.SQStringRuns
import Autocom.TermSettings
import Autocom.TermLives
import Autocom.RefTable
import Autocom.ScriptRefs
import Autocom.Callbacks
import Autocom.WinPort
