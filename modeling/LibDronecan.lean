import LibDronecan.DataIface.ArduPilot
import LibDronecan.DataIface.ArduPilotMask
import LibDronecan.DataIface.Crc32
import LibDronecan.DataIface.Frame
import LibDronecan.DataIface.HwSemaphore
import LibDronecan.DataIface.LogBounds
import LibDronecan.DataIface.LogDamage
import LibDronecan.DataIface.LogErrors
import LibDronecan.DataIface.LogFile
import LibDronecan.DataIface.LogFlip
import LibDronecan.DataIface.LogRoundTrip
import LibDronecan.DataIface.LogSound
import LibDronecan.DataIface.LogTail
import LibDronecan.DataIface.Raw
import LibDronecan.DataIface.RawChecked
import LibDronecan.DataIface.RawCodec
import LibDronecan.DataIface.RawDecode
import LibDronecan.DataIface.RawDrain
import LibDronecan.DataIface.RawMemory
import LibDronecan.DataIface.RawQueue
import LibDronecan.DataIface.RawStall
import LibDronecan.DataIface.SemSections
import LibDronecan.DataIface.SemWaiters
import LibDronecan.DataIface.ShMemInit
import LibDronecan.DataIface.ShMemLink
import LibDronecan.DataIface.ShMemRx
import LibDronecan.DataIface.ShMemSections
import LibDronecan.DataIface.ShMemWake
import LibDronecan.Machinery.Chain
import LibDronecan.Machinery.Circular
import LibDronecan.Machinery.Crc
import LibDronecan.Machinery.CrcDistance
import LibDronecan.Machinery.Deadlock
import LibDronecan.Machinery.FiniteLoop
import LibDronecan.Machinery.Ledger
import LibDronecan.Machinery.Loop
import LibDronecan.Machinery.Mask
import LibDronecan.Machinery.Memory
import LibDronecan.Machinery.Observed
import LibDronecan.Machinery.Reader
import LibDronecan.Machinery.Regions
import LibDronecan.Machinery.Resync
import LibDronecan.Machinery.Run
import LibDronecan.Machinery.Sections
import LibDronecan.Pal.CallAll
import LibDronecan.Pal.CallWalk
import LibDronecan.Pal.CallbackGraph
import LibDronecan.Pal.Callbacks
import LibDronecan.Pal.Deadline
import LibDronecan.Pal.EventIds
import LibDronecan.Pal.EventRegistry
import LibDronecan.Pal.EventSets
import LibDronecan.Pal.FreshThread
import LibDronecan.Pal.FreshWorker
import LibDronecan.Pal.ListIteration
import LibDronecan.Pal.ListWalk
import LibDronecan.Pal.Micros
import LibDronecan.Pal.MicrosRace
import LibDronecan.Pal.ObjectLifetimes
import LibDronecan.Pal.ObjectList
import LibDronecan.Pal.SemaphoreTake
import LibDronecan.Pal.Thread
import LibDronecan.Pal.ThreadEvents
import LibDronecan.Pal.ThreadLedger
import LibDronecan.Pal.ThreadSections
import LibDronecan.Pal.ThreadWaits
import LibDronecan.Pal.TimedLock
import LibDronecan.Pal.WaitPaths
import LibDronecan.Pal.WorkerEnd
import LibDronecan.Pal.WorkerEvents
import LibDronecan.Pal.WorkerList
import LibDronecan.Pal.WorkerLocks
import LibDronecan.Pal.WorkerLoop
import LibDronecan.Pal.WorkerPass
import LibDronecan.Pal.WorkerRate
import LibDronecan.Pal.WorkerRegistry
import LibDronecan.Pal.WorkerStart
import LibDronecan.Pal.WorkerTimeout
import LibDronecan.Pal.WorkerWait
import LibDronecan.Router.Router
import LibDronecan.Router.RouterTable
