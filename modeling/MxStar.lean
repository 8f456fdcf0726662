import MxStar.Proofs.Assembly.TextRun
import MxStar.Proofs.Machine.EntryLiveness
import MxStar.Proofs.Flow.Meaning
import MxStar.Proofs.Machine.ObjectLayout
import MxStar.Proofs.Machine.AccessWidths
import MxStar.Proofs.Assembly.Preserved
import MxStar.Proofs.Assembly.Comments
import MxStar.Proofs.Assembly.StringLiterals
import MxStar.Proofs.Machine.AllocatedColors
import MxStar.Proofs.Machine.Overlap
import MxStar.Proofs.Flow.NestedArrays
import MxStar.Proofs.Flow.Pruning
import MxStar.Proofs.Flow.DroppedCode
import MxStar.Proofs.Assembly.Immediates
import MxStar.Proofs.Machine.MirroredGraph
