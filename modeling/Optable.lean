import Optable.Main
import Optable.Token.Offsets
import Optable.Proofs.Lexeme
import Optable.Proofs.Partition
import Optable.Proofs.Quoting
import Optable.Proofs.DocBlock
import Optable.Proofs.Declaration
import Optable.Proofs.Index
import Optable.Proofs.Rows
import Optable.Proofs.Symbols
import Optable.Proofs.Definition
import Optable.Proofs.DefinitionFile
import Optable.Proofs.SharedIndex
import Optable.Proofs.Collisions
import Optable.Proofs.Header
import Optable.Proofs.Policy
import Optable.Proofs.Reordering
import Optable.Proofs.Opacity
import Optable.Proofs.LineEndings
import Optable.Proofs.TableLines
import Optable.Proofs.Node
import Optable.Proofs.Walk
import Optable.Proofs.Growth
import Optable.Proofs.Writing
import Optable.Proofs.Regeneration
import Optable.Proofs.Layout
import Optable.Proofs.LineBoundary
import Optable.Proofs.Locality
import Optable.Proofs.Linting
import Optable.Proofs.CommentBody
import Optable.Proofs.Fate
import Optable.Proofs.HeaderLine
import Optable.Proofs.Escaping
import Optable.Proofs.InternalName
import Optable.Proofs.Loading
import Optable.Proofs.Offsets
import Optable.Proofs.BuildDirectory
