import PrivateSums.Circuit.Document
import PrivateSums.Deployment.Document
import PrivateSums.Deployment.Fault
import PrivateSums.Deployment.Report
import PrivateSums.Deployment.Simulation
import PrivateSums.Schema.Document
import PrivateSums.Share.Additive
import PrivateSums.Wire.Document
import PrivateSums.Yaml.Reader
import PrivateSums.Files.Path
import PrivateSums.Files.Tree
import PrivateSums.Yaml.Writer
import PrivateSums.Settings.Load
import PrivateSums.Main
import PrivateSums.Proofs.Check.Privacy
import PrivateSums.Proofs.Check.Verdict
import PrivateSums.Proofs.Deployment.Recovery
import PrivateSums.Proofs.Deployment.Callers
import PrivateSums.Proofs.Deployment.Restoration
import PrivateSums.Proofs.Deployment.Level
import PrivateSums.Proofs.Deployment.Ownership
import PrivateSums.Proofs.Deployment.Refinement
import PrivateSums.Proofs.Check.Registers
import PrivateSums.Proofs.Check.Protocol
import PrivateSums.Proofs.Check.Intake
import PrivateSums.Proofs.Deployment.Binding
import PrivateSums.Proofs.Deployment.Discipline
import PrivateSums.Proofs.Circuit.Reading
import PrivateSums.Proofs.Circuit.Building
import PrivateSums.Proofs.Circuit.Gadget
import PrivateSums.Proofs.Schema.Encoding
import PrivateSums.Proofs.Schema.Measure
import PrivateSums.Proofs.Schema.Exactness
import PrivateSums.Proofs.Settings.Integers
import PrivateSums.Proofs.Settings.Room
import PrivateSums.Proofs.Deployment.Custody
import PrivateSums.Proofs.Deployment.Supply
import PrivateSums.Proofs.Circuit.Sharing
import PrivateSums.Proofs.Deployment.Effects
import PrivateSums.Proofs.Deployment.Aggregation
import PrivateSums.Proofs.Circuit.Bounds
import PrivateSums.Proofs.Circuit.Conjunction
import PrivateSums.Proofs.Check.Leakage
import PrivateSums.Proofs.Wire.Message
import PrivateSums.Proofs.Check.EvaluationPoint
import PrivateSums.Proofs.Circuit.Extension
import PrivateSums.Proofs.Polynomial.RootValues
import PrivateSums.Proofs.Polynomial.Convolution
import PrivateSums.Proofs.Polynomial.QuotientRemainder
import PrivateSums.Proofs.Polynomial.Canonical
import PrivateSums.Proofs.Interpolation.Linearity
import PrivateSums.Proofs.Field.Arithmetic
import PrivateSums.Proofs.Field.RootOrder
import PrivateSums.Proofs.Deployment.EvaluationPoints
