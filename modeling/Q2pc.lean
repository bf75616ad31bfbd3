import Q2pc.System.Datagrams
import Q2pc.System.Broadcast
import Q2pc.System.Report
import Q2pc.System.Distinct
import Q2pc.System.Deletion
import Q2pc.System.FaultFree
import Q2pc.Rudp.Acknowledgement
import Q2pc.Rudp.Abandoned
import Q2pc.Rudp.Counting
import Q2pc.Rudp.Statistics
import Q2pc.Transport.Stream
import Q2pc.Transport.Contract
import Q2pc.Transport.Released
import Q2pc.Transport.Leftover
import Q2pc.Server.Identity
import Q2pc.System.Handled
import Q2pc.Transport.Representation
import Q2pc.Transport.Bind
import Q2pc.Transport.Wire
import Q2pc.Server.Threads
import Q2pc.Server.Sending
import Q2pc.Server.Arithmetic
import Q2pc.Rudp.Safety
import Q2pc.Tcp.Safety
import Q2pc.Tcp.Draining
import Q2pc.Tcp.Liveness
import Q2pc.System.Rounds
import Q2pc.System.Blocking
