import CurryGen.Artifact.Api
import CurryGen.Artifact.BasicTest
import CurryGen.Artifact.CollectionTest
import CurryGen.Artifact.Reference
import CurryGen.Artifact.TestClass
import CurryGen.ClassName
import CurryGen.Code.ClassFile
import CurryGen.Code.Layout
import CurryGen.CommandLine.Arguments
import CurryGen.CommandLine.Run
import CurryGen.Config.Basic
import CurryGen.Config.Settings
import CurryGen.Config.Yaml
import CurryGen.Doc.Comment
import CurryGen.Error
import CurryGen.Example.Rows
import CurryGen.File.Access
import CurryGen.File.Tree
import CurryGen.Main
import CurryGen.Number.Double
import CurryGen.Number.Integer
import CurryGen.Path
import CurryGen.Project.Artifacts
import CurryGen.Project.Generate
import CurryGen.Template.Basic
import CurryGen.Template.CallShape
import CurryGen.Template.Function
import CurryGen.Template.Memo
import CurryGen.Text.Blank
import CurryGen.Text.Pieces
import CurryGen.Text.Position
import CurryGen.Token.Basic
import CurryGen.Token.Bracket
import CurryGen.Token.Scan
import CurryGen.Token.Spacing
import CurryGen.Tree.Expr
import CurryGen.Tree.Literal
import CurryGen.Tree.Param
import CurryGen.Tree.Print
import CurryGen.Tree.Shape
import CurryGen.Tree.Source
import CurryGen.Tree.Statement
import CurryGen.Value.Basic
import CurryGen.Value.Evaluate
import CurryGen.Yaml.Node
import CurryGen.Yaml.Scalar
import CurryGen.Yaml.Spot
import CurryGen.Yaml.Tag
import CurryGen.Yaml.Token
import CurryGen.Yaml.Written
import CurryGen.Proofs.Delegation
import CurryGen.Proofs.Token.Munch
import CurryGen.Proofs.Token.Reading
import CurryGen.Proofs.Token.Spacing
import CurryGen.Proofs.Text.Reflow
import CurryGen.Proofs.Token.Reflow
import CurryGen.Proofs.Token.Slice
import CurryGen.Proofs.Token.Bracket
import CurryGen.Proofs.Tree.Source
import CurryGen.Proofs.Tree.Split
import CurryGen.Proofs.Tree.Lines
import CurryGen.Proofs.Token.Cover
import CurryGen.Proofs.Token.Word
import CurryGen.Proofs.Tree.Param
import CurryGen.Proofs.Artifact.Body
import CurryGen.Proofs.Token.Separator
import CurryGen.Proofs.Token.Written
import CurryGen.Proofs.Value.Scalar
import CurryGen.Proofs.Value.RoundTrip
import CurryGen.Proofs.Example.Rows
import CurryGen.Proofs.Tree.Declaration
import CurryGen.Proofs.Code.Comment
import CurryGen.Proofs.Tree.ClassForm
import CurryGen.Proofs.Tree.Member
import CurryGen.Proofs.Code.ClassFile
import CurryGen.Proofs.Token.Partition
import CurryGen.Proofs.Artifact.MethodName
import CurryGen.Proofs.Text.Pieces
import CurryGen.Proofs.Tree.Shape
import CurryGen.Proofs.Token.Woven
import CurryGen.Proofs.Tree.Print
import CurryGen.Proofs.Value.Strings
import CurryGen.Proofs.Example.Line
import CurryGen.Proofs.Artifact.Doc
import CurryGen.Proofs.Project.Generate
import CurryGen.Proofs.Artifact.Resolution
import CurryGen.Proofs.Tree.Block
import CurryGen.Proofs.Value.Array
import CurryGen.Proofs.Value.Variable
import CurryGen.Proofs.Doc.Comment
import CurryGen.Proofs.Artifact.LibraryDoc
import CurryGen.Proofs.Artifact.Spread
import CurryGen.Proofs.Artifact.TestParam
import CurryGen.Proofs.Artifact.TestCall
import CurryGen.Proofs.Example.Fold
import CurryGen.Proofs.Token.Weight
import CurryGen.Proofs.Tree.Renders
import CurryGen.Proofs.Tree.RenderedPieces
import CurryGen.Proofs.Tree.RenderedExpr
import CurryGen.Proofs.Tree.RenderedStatement
import CurryGen.Proofs.Tree.RenderedClosure
import CurryGen.Proofs.Tree.Qualify
import CurryGen.Proofs.Token.Rule
import CurryGen.Proofs.Tree.Nesting
import CurryGen.Proofs.Value.DoubleQuoted
import CurryGen.Proofs.Value.Numeral
import CurryGen.Proofs.Template.Cycle
import CurryGen.Proofs.Token.Pieces
import CurryGen.Proofs.Project.Describe
