import PowerMonitor.Theorems.BoardBus
import PowerMonitor.Theorems.CacheInvariant
import PowerMonitor.Theorems.CacheRange
import PowerMonitor.Theorems.CacheReplacement
import PowerMonitor.Theorems.Calibration
import PowerMonitor.Theorems.CalibrationEcho
import PowerMonitor.Theorems.CommandWords
import PowerMonitor.Theorems.Connection
import PowerMonitor.Theorems.CurrentProtocol
import PowerMonitor.Theorems.DaemonCommands
import PowerMonitor.Theorems.DaemonSession
import PowerMonitor.Theorems.EndToEnd
import PowerMonitor.Theorems.FlashDriver
import PowerMonitor.Theorems.FlashWear
import PowerMonitor.Theorems.HeartbeatTicks
import PowerMonitor.Theorems.LineBuffer
import PowerMonitor.Theorems.LineConsumption
import PowerMonitor.Theorems.LineLoop
import PowerMonitor.Theorems.LineSplit
import PowerMonitor.Theorems.MultiByte
import PowerMonitor.Theorems.PageCache
import PowerMonitor.Theorems.PeriodicTriggers
import PowerMonitor.Theorems.PollTimes
import PowerMonitor.Theorems.PowerCycle
import PowerMonitor.Theorems.PowerLoss
import PowerMonitor.Theorems.ReceiveBuffer
import PowerMonitor.Theorems.ReceiveLoop
import PowerMonitor.Theorems.RejectedCommands
import PowerMonitor.Theorems.Restart
import PowerMonitor.Theorems.ServerRefinement
import PowerMonitor.Theorems.SharedSegment
import PowerMonitor.Theorems.SpiBus
import PowerMonitor.Theorems.StringStore
import PowerMonitor.Theorems.TransferLoops
import PowerMonitor.Theorems.UartPreemption
import PowerMonitor.Theorems.UartRings
import PowerMonitor.Theorems.VoltageLines
import PowerMonitor.Theorems.VoltageProtocol
import PowerMonitor.Theorems.VoltageScaling
