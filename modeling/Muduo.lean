import Muduo.BlockingQueue
import Muduo.Buffer.Calls
import Muduo.Buffer.Capacity
import Muduo.Connection.Stream
import Muduo.Connection.Interest
import Muduo.EventLoop.Order
import Muduo.EventLoop.Sleep
import Muduo.EventLoop.Empty
import Muduo.EventLoopThread
import Muduo.TimerQueue.Cancel
import Muduo.TimerQueue.Ledger
import Muduo.TimerQueue.Alarm
import Muduo.TimerQueue.Foreign
import Muduo.TimerQueue.Tick
import Muduo.Server.Functors
import Muduo.Server.Mirror
import Muduo.Server.Announce
import Muduo.Client.Addresses
import Muduo.Client.Established
import Muduo.Client.Channels
import Muduo.Sides
import Muduo.Poller.Separate
import Muduo.ThreadPool
import Muduo.EventLoop.Progress
import Muduo.Echo.Rest
import Muduo.TimerQueue.Firing
import Muduo.TimerQueue.Destructor
import Muduo.TimerQueue.Text
import Muduo.Connection.Wire
import Muduo.Server.Epoll
import Muduo.Server.Sends
import Muduo.Server.Balance
