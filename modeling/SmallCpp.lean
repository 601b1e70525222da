import SmallCpp.Main
import SmallCpp.Proofs.Heap.Atomic
import SmallCpp.Proofs.Heap.IntegerText
import SmallCpp.Proofs.Heap.Projection
import SmallCpp.Proofs.Heap.Table
import SmallCpp.Proofs.Literal.FoldEval
import SmallCpp.Proofs.Machine.Blame
import SmallCpp.Proofs.Machine.Division
import SmallCpp.Proofs.Machine.FieldReference
import SmallCpp.Proofs.Machine.LinkTable
import SmallCpp.Proofs.Machine.Unread
import SmallCpp.Proofs.Machine.Update
import SmallCpp.Proofs.Machine.ValueSemantics
import SmallCpp.Proofs.Machine.VectorSize
import SmallCpp.Proofs.Output
import SmallCpp.Proofs.Parse.Concat
import SmallCpp.Proofs.Parse.ExprText
import SmallCpp.Proofs.Parse.Grouping
import SmallCpp.Proofs.Parse.Place
import SmallCpp.Proofs.Parse.StringLiteral
import SmallCpp.Proofs.Report
import SmallCpp.Proofs.Token.Recoded
import SmallCpp.Proofs.Parse.PrintParts
