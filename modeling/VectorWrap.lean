import VectorWrap.Text.Basic
import VectorWrap.Text.Position
import VectorWrap.Text.Identifier
import VectorWrap.Text.Split
import VectorWrap.Batch.Generate
import VectorWrap.Batch.Load
import VectorWrap.Batch.Run
import VectorWrap.Command.Arguments
import VectorWrap.Command.Run
import VectorWrap.Files.Tree
import VectorWrap.Main
import VectorWrap.Proofs.Batch.Copies
import VectorWrap.Proofs.Batch.Flags
import VectorWrap.Proofs.Batch.Kinds
import VectorWrap.Proofs.Batch.Members
import VectorWrap.Proofs.Batch.Outputs
import VectorWrap.Proofs.Batch.Policies
import VectorWrap.Proofs.Batch.Positions
import VectorWrap.Proofs.Batch.Unreadable
import VectorWrap.Proofs.Declaration.Cuts
import VectorWrap.Proofs.Declaration.Forms
import VectorWrap.Proofs.Declaration.Operators
import VectorWrap.Proofs.Declaration.Printed
import VectorWrap.Proofs.Declaration.QuotedDefaults
import VectorWrap.Proofs.Declaration.Readable
import VectorWrap.Proofs.Declaration.Sections
import VectorWrap.Proofs.Declaration.Separators
import VectorWrap.Proofs.Implementation.Bodies
import VectorWrap.Proofs.Implementation.Comments
import VectorWrap.Proofs.Implementation.CountedOnce
import VectorWrap.Proofs.Implementation.Cuts
import VectorWrap.Proofs.Implementation.Dropped
import VectorWrap.Proofs.Implementation.InlineIf
import VectorWrap.Proofs.Implementation.LineBreaks
import VectorWrap.Proofs.Implementation.LineComment
import VectorWrap.Proofs.Implementation.Readable
import VectorWrap.Proofs.Implementation.Recovered
import VectorWrap.Proofs.Implementation.Reordered
import VectorWrap.Proofs.Implementation.ReturnLines
import VectorWrap.Proofs.Implementation.Stretches
import VectorWrap.Proofs.Matching.Overloads
import VectorWrap.Proofs.Matching.Unrelated
import VectorWrap.Proofs.Types.Coherence
import VectorWrap.Proofs.Wrapper.Answers
import VectorWrap.Proofs.Wrapper.Bound
import VectorWrap.Proofs.Wrapper.Casts
import VectorWrap.Proofs.Wrapper.Declarations
import VectorWrap.Proofs.Wrapper.Macros
import VectorWrap.Proofs.Wrapper.NullGuard
import VectorWrap.Proofs.Wrapper.NullPath
import VectorWrap.Proofs.Wrapper.Once
import VectorWrap.Proofs.Wrapper.Release
import VectorWrap.Proofs.Wrapper.Renames
import VectorWrap.Proofs.Wrapper.Structure
