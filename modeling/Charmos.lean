import Charmos.Mem.Buddy.Run
import Charmos.Mem.Domain.Run
import Charmos.Mem.Vas.Complete
import Charmos.Mem.Vas.ProtocolRun
import Charmos.Sched.Wroost
import Charmos.Sync.QspinlockRun
import Charmos.Sync.MutexRun
import Charmos.Sync.TurnstileRun
import Charmos.Thread.WaitRun
import Charmos.Time.TimerRun
import Charmos.Sync.LockChkRun
import Charmos.Sched.BoostRun
import Charmos.Sched.ReaderSetsRun
import Charmos.Sync.PercpuRcRun
import Charmos.Thread.WorkqueueRun
import Charmos.Sched.DonationRun
import Charmos.Mem.VmaGap
import Charmos.Mem.TlbRun
import Charmos.Fs.TmpfsRun
import Charmos.Thread.DpcRun
import Charmos.Thread.ApcRun
import Charmos.Sched.ClimbTreeRun
import Charmos.Structures.Bloom
import Charmos.Structures.Radix
import Charmos.Mem.AddressRange
import Charmos.Mem.Domain.Distribute
import Charmos.Parse
import Charmos.Mem.Realloc
import Charmos.Crypto.Chacha20
