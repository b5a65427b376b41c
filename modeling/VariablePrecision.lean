import VariablePrecision.Backend.Chain
import VariablePrecision.Backend.Instances
import VariablePrecision.Banner
import VariablePrecision.Proofs.Analysis.Absorption
import VariablePrecision.Proofs.Analysis.Cancellation
import VariablePrecision.Proofs.Analysis.Commutation
import VariablePrecision.Proofs.Analysis.Report
import VariablePrecision.Proofs.Analysis.Roundoff
import VariablePrecision.Proofs.Backend.Indentation
import VariablePrecision.Proofs.Backend.Start
import VariablePrecision.Proofs.Binary.Exactness
import VariablePrecision.Proofs.Binary.Idempotence
import VariablePrecision.Proofs.Binary.Monotone
import VariablePrecision.Proofs.Emulator.Agreement
import VariablePrecision.Proofs.Emulator.Refusal
import VariablePrecision.Proofs.Emulator.Safety
import VariablePrecision.Proofs.Emulator.Settings
import VariablePrecision.Proofs.Emulator.Sign
import VariablePrecision.Proofs.Emulator.SingleRounding
import VariablePrecision.Proofs.Emulator.Transparency
import VariablePrecision.Proofs.Profile.Content
import VariablePrecision.Proofs.Registry.Records
