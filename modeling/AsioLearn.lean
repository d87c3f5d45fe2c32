import AsioLearn.Lib.Lts
import AsioLearn.Lib.Proactor
import AsioLearn.Lib.Shared
import AsioLearn.TcpClient.Model
import AsioLearn.Lib.Outbox
import AsioLearn.TcpClient.Frames
import AsioLearn.TcpClient.NoWrite
import AsioLearn.TcpClient.WriteQueue
import AsioLearn.TcpClient.Connection
import AsioLearn.TcpClient.Handover
import AsioLearn.TcpClient.Orphan
import AsioLearn.TcpClient.Sessions
import AsioLearn.TcpClient.SingleDriver
import AsioLearn.TcpClient.Status
import AsioLearn.TcpClient.Wire
import AsioLearn.TcpClient.Throwing
import AsioLearn.TcpClient.Backoff
import AsioLearn.TcpClient.Quiescent
import AsioLearn.TcpClient.Received
import AsioLearn.Lib.Line
import AsioLearn.SerialPort.Blocking
import AsioLearn.SerialPort.Control
import AsioLearn.SerialPort.Deadlock
import AsioLearn.SerialPort.Restart
import AsioLearn.SerialPort.Stream
import AsioLearn.SerialPort.Wire
import AsioLearn.SerialPort.Reading
import AsioLearn.SerialPort.Closing
import AsioLearn.SerialPort.Delayed
import AsioLearn.SerialPort.FailedStart
import AsioLearn.SerialPort.Draining
import AsioLearn.SerialPort.Lifetime
import AsioLearn.Daytime.TcpServer
import AsioLearn.Daytime.UdpServer
import AsioLearn.Daytime.UdpHandlers
import AsioLearn.Daytime.UdpReplies
import AsioLearn.Daytime.Server
import AsioLearn.Detail.TimerRuns
import AsioLearn.Detail.StrandOrder
import AsioLearn.Detail.DescriptorEvents
import AsioLearn.Detail.SchedulerEnd
import AsioLearn.Detail.SchedulerReturned
import AsioLearn.Detail.SchedulerWakes
import AsioLearn.Timer.PrinterEnds
