import Nife.CoresInv
import Nife.MappingList
import Nife.CapabilityRuns
import Nife.Revocation
import Nife.CachedDisk
import Nife.SubtreeCaretaker
import Nife.NamesetCaretaker
import Nife.CaretakerServer
import Nife.TableRuns
import Nife.RendezvousRuns
import Nife.NotificationRuns
import Nife.Timers
import Nife.RegionReturns
import Nife.RegionLineage
import Nife.DmaDomain
import Nife.PageFrames
import Nife.ShadowRing
import Nife.ActivationRuns
import Nife.TimetableRuns
import Nife.GlobSweep
import Nife.QuotedWords
import Nife.PackedPosition
import Nife.BootSlots
import Nife.ElfFile
import Nife.Packages
import Nife.EditorScreen
import Nife.EditorHandoff
import Nife.UserModeHeap
import Nife.PageSpan
import Nife.RecurrenceMeaning
import Nife.CivilTime
import Nife.Compositor
import Nife.HttpResponse
import Nife.NetworkTime
import Nife.IntrusiveFifo
