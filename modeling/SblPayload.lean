import SblPayload.Proofs.JumpFrames
import SblPayload.Proofs.BuildStatus
import SblPayload.Proofs.CursorBack
import SblPayload.Proofs.FrameBuffer
import SblPayload.Proofs.GenhdrLeftovers
import SblPayload.Proofs.InfSections
import SblPayload.Proofs.PageAccounting
import SblPayload.Proofs.QstrQuoting
import SblPayload.Proofs.ServiceBinding
import SblPayload.Proofs.Ticks
import SblPayload.Proofs.Delays
import SblPayload.Proofs.MacroLayers
import SblPayload.Proofs.ToolArguments
import SblPayload.Proofs.PackageIncludes
import SblPayload.Proofs.SourceSelection
import SblPayload.Proofs.CompilerFlags
import SblPayload.Proofs.CopyEnds
import SblPayload.Proofs.CLibrary
import SblPayload.Proofs.GenhdrAgain
import SblPayload.Proofs.SessionCalls
import SblPayload.Proofs.ConsoleKeys
import SblPayload.Proofs.PayloadMirror
import SblPayload.Proofs.GenhdrSchedule
import SblPayload.Proofs.InfAcceptance
import SblPayload.Proofs.GenhdrOrder
import SblPayload.Proofs.SessionPages
import SblPayload.Proofs.InfRoundTrip
import SblPayload.Proofs.PayloadHistory
import SblPayload.Proofs.CleanBuild
