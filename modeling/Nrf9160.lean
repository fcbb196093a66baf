import Nrf9160.Lib.Run
import Nrf9160.Lib.Prog
import Nrf9160.Modem.SleepingList
import Nrf9160.Modem.System
import Nrf9160.Modem.Queue
import Nrf9160.Modem.Caller
import Nrf9160.Modem.Reinit
import Nrf9160.Modem.Wakeup
import Nrf9160.Modem.ReturnCodes
import Nrf9160.Modem.Traversal
import Nrf9160.Sync.Mutex
import Nrf9160.Lib.Behaviour
import Nrf9160.Sync.Semaphore
import Nrf9160.Ipc.Delivery
import Nrf9160.Ipc.Disabled
import Nrf9160.Lte.Registration
import Nrf9160.Factor.Rho
import Nrf9160.Factor.Search
import Nrf9160.Factor.Outcome
import Nrf9160.Net.Ntp
import Nrf9160.Net.Http
import Nrf9160.Net.Release
import Nrf9160.Lib.CString
import Nrf9160.Lte.Signal
import Nrf9160.Sync.Limit
import Nrf9160.Lcd.Display
import Nrf9160.Sync.Pool
import Nrf9160.Sync.Timeout
import Nrf9160.Ipc.Callback
import Nrf9160.Net.NtpTime
import Nrf9160.Net.Speed
import Nrf9160.Net.Transport
import Nrf9160.Modem.Clock
import Nrf9160.Modem.EventWakes
import Nrf9160.Lcd.Init
import Nrf9160.Boot.Events
import Nrf9160.Ipc.Preempt
import Nrf9160.Sync.Handles
import Nrf9160.Board.Console
import Nrf9160.Lte.Context
import Nrf9160.Sync.Overlap
import Nrf9160.Gnss.Events
