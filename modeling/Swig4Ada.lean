import Swig4Ada.Proofs.AddQualifier
import Swig4Ada.Proofs.Allocate
import Swig4Ada.Proofs.BlockEnds
import Swig4Ada.Proofs.CastList
import Swig4Ada.Proofs.ClientData
import Swig4Ada.Proofs.Constant
import Swig4Ada.Proofs.Context
import Swig4Ada.Proofs.DependsOn
import Swig4Ada.Proofs.DoxygenRanges
import Swig4Ada.Proofs.DoxygenTokens
import Swig4Ada.Proofs.Enumeration
import Swig4Ada.Proofs.ExpandParameters
import Swig4Ada.Proofs.ExprOperands
import Swig4Ada.Proofs.ExprValue
import Swig4Ada.Proofs.Features
import Swig4Ada.Proofs.FindArgs
import Swig4Ada.Proofs.Fragment
import Swig4Ada.Proofs.FunctionInBases
import Swig4Ada.Proofs.Groups
import Swig4Ada.Proofs.HashIter
import Swig4Ada.Proofs.Lines
import Swig4Ada.Proofs.Literal
import Swig4Ada.Proofs.Memory
import Swig4Ada.Proofs.Modules
import Swig4Ada.Proofs.NameInherit
import Swig4Ada.Proofs.PackData
import Swig4Ada.Proofs.Parameter
import Swig4Ada.Proofs.Query
import Swig4Ada.Proofs.RawText
import Swig4Ada.Proofs.RecordVerify
import Swig4Ada.Proofs.RequiredTypes
import Swig4Ada.Proofs.ResolverSizeof
import Swig4Ada.Proofs.ResolverValue
import Swig4Ada.Proofs.Retract
import Swig4Ada.Proofs.SaveRestore
import Swig4Ada.Proofs.Specialisation
import Swig4Ada.Proofs.Spellings
import Swig4Ada.Proofs.StringRuns
import Swig4Ada.Proofs.StripComments
import Swig4Ada.Proofs.Symbol
import Swig4Ada.Proofs.TemplateDefargs
import Swig4Ada.Proofs.Tree
import Swig4Ada.Proofs.TypeArrays
import Swig4Ada.Proofs.TypeDefault
import Swig4Ada.Proofs.WarnFilter
import Swig4Ada.Proofs.WholeNames
import Swig4Ada.Proofs.Wrapfunc
