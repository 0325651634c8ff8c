import StepBinding.Main
import StepBinding.Proofs.Compile.Defined
import StepBinding.Proofs.Compile.Meaning
import StepBinding.Proofs.Machine.InOrder
import StepBinding.Proofs.Compile.OpenMarkers
import StepBinding.Proofs.Construct.Markers
import StepBinding.Proofs.Compile.Warnings
import StepBinding.Proofs.Grammar.Sequences
import StepBinding.Proofs.Machine.Elements
import StepBinding.Proofs.Machine.Updates
import StepBinding.Proofs.Token.Excerpts
import StepBinding.Proofs.Token.Nesting
import StepBinding.Proofs.Grammar.Progress
import StepBinding.Proofs.Construct.Lifecycle
import StepBinding.Proofs.FreshNames.Histories
import StepBinding.Proofs.Settings.Stems
import StepBinding.Proofs.Command.Destinations
import StepBinding.Proofs.Machine.Returns
