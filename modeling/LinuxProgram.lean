import LinuxProgram.Base.Words
import LinuxProgram.Base.Memory
import LinuxProgram.Base.Loops
import LinuxProgram.Base.Systems
import LinuxProgram.Netlink.Macros
import LinuxProgram.Netlink.Frames
import LinuxProgram.Netlink.Builder
import LinuxProgram.Netlink.Parser
import LinuxProgram.Netlink.Sessions
import LinuxProgram.Netlink.AttributeTrees
import LinuxProgram.Netlink.GetInfo
import LinuxProgram.Netlink.ParseInfo
import LinuxProgram.NetInterface.NatRules
import LinuxProgram.Base.Text
import LinuxProgram.DomainSock.Addresses
import LinuxProgram.DomainSock.RequestReply
import LinuxProgram.Base.TailQueue
import LinuxProgram.Process.SingleInstance
import LinuxProgram.NetworkServer.Clients
import LinuxProgram.NetworkServer.EventLoop
import LinuxProgram.Curl.HttpGet
import LinuxProgram.Epoll.EdgeTriggered
import LinuxProgram.Netlink.Encoding
import LinuxProgram.NetworkCode.Requests
import LinuxProgram.Base.Reading
import LinuxProgram.GetAddr.MessageWalk
import LinuxProgram.Netlink.Attributes
import LinuxProgram.GetAddr.Filters
import LinuxProgram.GetAddr.DefaultRoute
import LinuxProgram.GetInterface.LinkTable
import LinuxProgram.GetAddr.AddressRoundtrip
import LinuxProgram.Netlink.GetInfoResult
import LinuxProgram.NetworkCode.Iptable
import LinuxProgram.Popen.NetdetPopen
import LinuxProgram.Base.Editing
import LinuxProgram.NetworkServer.Trim
import LinuxProgram.ReadDir.FileList
import LinuxProgram.ContainerSsl.UrlDecode
import LinuxProgram.GetAddr.AttributeTable
import LinuxProgram.NetworkCode.ControlChannel
import LinuxProgram.Base.Files
import LinuxProgram.FdLock.SharedFile
import LinuxProgram.Process.ForkOnFile
import LinuxProgram.Base.Iteration
import LinuxProgram.Base.KeywordTables
import LinuxProgram.Route.SetRoute
import LinuxProgram.Route.Display
import LinuxProgram.Tcp.Chat
import LinuxProgram.Base.LinkedOrder
import LinuxProgram.Base.Probing
import LinuxProgram.JsonC.Buffers
import LinuxProgram.JsonC.LinkHash
import LinuxProgram.JsonC.Values
import LinuxProgram.JsonC.Tokener
import LinuxProgram.JsonC.TightLoops
import LinuxProgram.JsonC.Levels
import LinuxProgram.JsonC.Derived
import LinuxProgram.JsonC.Accepted
import LinuxProgram.JsonC.RoundTrip
import LinuxProgram.JsonC.Registers
import LinuxProgram.JsonC.Calls
