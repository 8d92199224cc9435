import PaxosCpp.TcpConnection
import PaxosCpp.TcpConnectionFifo
import PaxosCpp.TcpConnectionError
import PaxosCpp.ProtocolFrame
import PaxosCpp.ProtocolReader
import PaxosCpp.ProtocolCommand
import PaxosCpp.ProtocolChannel
import PaxosCpp.Client
import PaxosCpp.ClientLifecycle
import PaxosCpp.ClientRetry
import PaxosCpp.ClientOrder
import PaxosCpp.ClientAttempts
