import Patchbay.Host
import Patchbay.Main
import Patchbay.Wave.Reader
import Patchbay.Proofs.Catalogue.Creating
import Patchbay.Proofs.Catalogue.DelayLine
import Patchbay.Proofs.Catalogue.Ramping
import Patchbay.Proofs.Catalogue.Seamless
import Patchbay.Proofs.Catalogue.Steady
import Patchbay.Proofs.CommandLine
import Patchbay.Proofs.Engine.Arrivals
import Patchbay.Proofs.Engine.Attuning
import Patchbay.Proofs.Engine.Buffers
import Patchbay.Proofs.Engine.Cascade
import Patchbay.Proofs.Engine.Conservation
import Patchbay.Proofs.Engine.Draining
import Patchbay.Proofs.Engine.Linking
import Patchbay.Proofs.Engine.Moves
import Patchbay.Proofs.Engine.Notices
import Patchbay.Proofs.Engine.Playback
import Patchbay.Proofs.Engine.Punctual
import Patchbay.Proofs.Engine.Receiving
import Patchbay.Proofs.Engine.Recompiling
import Patchbay.Proofs.Engine.References
import Patchbay.Proofs.Engine.Safety
import Patchbay.Proofs.Engine.Scheduling
import Patchbay.Proofs.Engine.Sessions
import Patchbay.Proofs.Engine.Splitting
import Patchbay.Proofs.Engine.Ticking
import Patchbay.Proofs.Engine.Topology
import Patchbay.Proofs.Engine.Transparency
import Patchbay.Proofs.Engine.Uprooting
import Patchbay.Proofs.Graph.Enrolling
import Patchbay.Proofs.Graph.Inheriting
import Patchbay.Proofs.Graph.Representation
import Patchbay.Proofs.Host
import Patchbay.Proofs.Names.Refining
import Patchbay.Proofs.Number.Order
import Patchbay.Proofs.Pool.Bookkeeping
import Patchbay.Proofs.Queue.Refining
import Patchbay.Proofs.Message
