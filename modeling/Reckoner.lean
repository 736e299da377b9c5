import Reckoner.Main
import Reckoner.Postfix.Depth
import Reckoner.Proofs.Numeral
import Reckoner.Proofs.Postfix.Block
import Reckoner.Proofs.Postfix.Stack
import Reckoner.Proofs.Token.Boundary
import Reckoner.Proofs.Token.Segmentation
import Reckoner.Proofs.Token.Sign
import Reckoner.Proofs.Token.Tokenize
import Reckoner.Proofs.Substitution
import Reckoner.Proofs.Expression.Basic
import Reckoner.Proofs.Expression.Order
import Reckoner.Proofs.Double.Packing
import Reckoner.Proofs.Expression.Value
import Reckoner.Proofs.Expression.Text
import Reckoner.Proofs.Expression.Evaluate
import Reckoner.Proofs.Postfix.Outside
import Reckoner.Proofs.Arguments
import Reckoner.Proofs.Postfix.Tree
import Reckoner.Proofs.Postfix.Depth
import Reckoner.Proofs.Refusal
import Reckoner.Proofs.Postfix.Items
import Reckoner.Proofs.Grammar.Basic
import Reckoner.Proofs.Double.Nearest
import Reckoner.Proofs.Decimal.Shortest
import Reckoner.Proofs.Text.Integer
import Reckoner.Proofs.Decimal.Text
import Reckoner.Proofs.Storage.Table
import Reckoner.Proofs.Storage.FileTree
import Reckoner.Proofs.Variables
import Reckoner.Proofs.Storage.Saving
import Reckoner.Proofs.Storage.State
import Reckoner.Proofs.Storage.Names
import Reckoner.Proofs.Session.Effect
import Reckoner.Proofs.Session.Execute
import Reckoner.Proofs.Session.Name
import Reckoner.Proofs.Session.Numbering
import Reckoner.Proofs.Session.Resume
import Reckoner.Proofs.Session.Shadowing
import Reckoner.Proofs.CommandLine.Run
import Reckoner.Proofs.Grammar.Count
import Reckoner.Proofs.Grammar.Evaluate
import Reckoner.Proofs.Session.Replay
import Reckoner.Proofs.Session.Prompt
import Reckoner.Proofs.CommandLine.Files
import Reckoner.Proofs.Session.Places
import Reckoner.Proofs.Postfix.Places
import Reckoner.Proofs.Names
import Reckoner.Proofs.Double.Arithmetic
import Reckoner.Proofs.Double.Places
import Reckoner.Proofs.Decimal.Grid
import Reckoner.Proofs.Decimal.Whole
import Reckoner.Proofs.Session.Display
import Reckoner.Proofs.Session.Whole
import Reckoner.Proofs.Token.Literal
import Reckoner.Proofs.Postfix.Rendering
import Reckoner.Proofs.Storage.Loading
import Reckoner.Proofs.Postfix.Group
import Reckoner.Proofs.Postfix.Shape
import Reckoner.Proofs.Double.Remainder
import Reckoner.Proofs.Double.Factorial
