import Sqware.Assembly.Builds
import Sqware.Assembly.Scopes
import Sqware.Block.Run
import Sqware.Flat.Atomic
import Sqware.Frame.Run
import Sqware.Identity.Installs
import Sqware.Identity.Paging
import Sqware.Nest.Active
import Sqware.Nest.Agree
import Sqware.Nest.Placement
import Sqware.Nest.Retire
import Sqware.Operator.Narrow
import Sqware.Operator.Once
import Sqware.Operator.Revoke
import Sqware.Pend.Authority
import Sqware.Pend.Cull
import Sqware.Pend.Exclusive
import Sqware.Rack.Steps
import Sqware.Room.Chain
import Sqware.Schedule.Build
import Sqware.Schedule.Pass
import Sqware.Source.Run
import Sqware.Spare.Run
import Sqware.Stream.Hostile
import Sqware.Stream.Lossless
