import RasterShader.Main
import RasterShader.Stage.Record
import RasterShader.Proofs.Code.Calls
import RasterShader.Proofs.Stack.Separation
import RasterShader.Proofs.Codegen.Program
import RasterShader.Proofs.Constant.Division
import RasterShader.Proofs.Code.Branches
import RasterShader.Proofs.Typing.Reports
import RasterShader.Proofs.Typing.Naming
import RasterShader.Proofs.Flow.Tracing
import RasterShader.Proofs.Reading.Expression
import RasterShader.Proofs.Analysis.Exits
import RasterShader.Proofs.Flow.Targets
import RasterShader.Proofs.Reading.Termination
import RasterShader.Proofs.Typing.Definitions
import RasterShader.Proofs.Analysis.Trips
import RasterShader.Proofs.Codegen.Operations
import RasterShader.Proofs.Codegen.Equality
import RasterShader.Proofs.Codegen.Arguments
import RasterShader.Proofs.Codegen.Globals
import RasterShader.Proofs.Typing.Resolution
import RasterShader.Proofs.Codegen.Nesting
import RasterShader.Proofs.Codegen.Lvalues
import RasterShader.Proofs.Analysis.Usage
import RasterShader.Proofs.Code.Balance
import RasterShader.Proofs.Code.Selection
import RasterShader.Proofs.Typing.Effects
import RasterShader.Proofs.Codegen.Masks
import RasterShader.Proofs.Reading.Trials
import RasterShader.Proofs.Reading.Comments
import RasterShader.Proofs.Codegen.Unmasked
import RasterShader.Proofs.Constant.Rebuilding
import RasterShader.Proofs.Machine.Width
import RasterShader.Proofs.Reading.Respacing
import RasterShader.Proofs.Codegen.Allocation
import RasterShader.Proofs.Source.Delivery
import RasterShader.Proofs.Reading.Partition
import RasterShader.Proofs.Codegen.Composition
import RasterShader.Proofs.Codegen.Immutable
