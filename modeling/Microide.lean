import Microide.Compare.MergeDisplay
import Microide.Compare.ExactOptimal
import Microide.Project.StagingExactness
import Microide.Editor.LineBlobEdits
import Microide.Editor.ByteCeiling
import Microide.Compare.RecycledRows
import Microide.Compare.MergeSymmetry
import Microide.Remote.TreeOps
import Microide.Remote.RequestDispatch
import Microide.Remote.RpcCompletion
import Microide.Remote.TwoLanes
import Microide.Remote.MirrorCrashes
import Microide.Remote.HostChanges
import Microide.Terminal.HostMirrorRuns
import Microide.Util.JsonWinners
import Microide.Editor.BreakpointRuns
import Microide.Util.WorkQueueRuns
import Microide.Editor.HighlightRuns
import Microide.Editor.CollapsedFolds
import Microide.Editor.EditBatchOrder
import Microide.Editor.LineComments
import Microide.Editor.ReplaceAll
import Microide.Editor.CaretNormalisation
import Microide.Remote.WorkspaceManifest
import Microide.Editor.LineScanners
import Microide.Project.FileIndexBatches
import Microide.Editor.WrappedRowUpdates
import Microide.Editor.VisibleLineWindows
import Microide.Terminal.AsciiRuns
import Microide.Editor.LineWidthRuns
import Microide.Editor.VisibleLineQueries
import Microide.Project.CoalescerRuns
import Microide.Project.GlobBraces
import Microide.Util.PathReplacement
import Microide.Editor.DiagnosticsConsistency
import Microide.Project.IgnoreMatcher
import Microide.Text.WordScans
import Microide.Workspace.LspPositionEncoding
import Microide.Editor.BracketScanner
import Microide.Project.IntegerRanges
import Microide.Editor.InlayHintColumns
import Microide.Workspace.SemanticTokens
import Microide.Util.FlatDedupSet
import Microide.Persistence.RecordFiles
