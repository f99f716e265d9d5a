import Timetable.Proofs.Alignment
import Timetable.Proofs.Alignment.Repetition
import Timetable.Proofs.Alignment.Rewriting
import Timetable.Proofs.Alignment.Settled
import Timetable.Proofs.Bounded
import Timetable.Proofs.Carried
import Timetable.Proofs.Channels
import Timetable.Proofs.CircularDependency
import Timetable.Proofs.DoubleReversal
import Timetable.Proofs.Duration.Merging
import Timetable.Proofs.GapFree
import Timetable.Proofs.History
import Timetable.Proofs.LockStep.Attribution
import Timetable.Proofs.LockStep.Dividing
import Timetable.Proofs.LockStep.Greedy
import Timetable.Proofs.LockStep.Sizing
import Timetable.Proofs.Precedence.Completion
import Timetable.Proofs.Precedence.Stability
import Timetable.Proofs.Reordering
import Timetable.Proofs.Rescheduling
import Timetable.Proofs.Rescheduling.Longest
import Timetable.Proofs.Reversal.Shifting
import Timetable.Proofs.Sequencing.Acceptance
import Timetable.Proofs.Totality
import Timetable.Request
import Timetable.Schedule.Listing
import Timetable.Sequencing
