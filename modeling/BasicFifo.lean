import BasicFifo.Lib.FourState
import BasicFifo.Lib.Run
import BasicFifo.Lib.BoundedQueue
import BasicFifo.Lib.Transition
import BasicFifo.Lib.Interleaving
import BasicFifo.Lib.WriteLog
import BasicFifo.Trans
import BasicFifo.Rtl
import BasicFifo.Model
import BasicFifo.Scoreboard
import BasicFifo.Control
import BasicFifo.Status
import BasicFifo.Counter
import BasicFifo.Datapath
import BasicFifo.Clear
import BasicFifo.Contents
import BasicFifo.Announce
import BasicFifo.Boundary
import BasicFifo.Reach
import BasicFifo.Depth
import BasicFifo.Stimulus
import BasicFifo.Edges
import BasicFifo.Env
import BasicFifo.Pipeline
import BasicFifo.Schedule
import BasicFifo.Sequential
import BasicFifo.Quiet
import BasicFifo.Held
import BasicFifo.Verdict
import BasicFifo.Recovery
import BasicFifo.Compose
import BasicFifo.TbTop
