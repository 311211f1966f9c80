import ThresholdKeygen.Ceremony.Plain
import ThresholdKeygen.Ceremony.Weighted
import ThresholdKeygen.Config.File
import ThresholdKeygen.Config.Parameters
import ThresholdKeygen.Operand
import ThresholdKeygen.Secp256k1.Key
import ThresholdKeygen.Proofs.Scalar.Field
import ThresholdKeygen.Proofs.Point.Laws
import ThresholdKeygen.Proofs.Point.Logarithm
import ThresholdKeygen.Proofs.Bytes
import ThresholdKeygen.Proofs.Point.Residues
import ThresholdKeygen.Proofs.Coefficients
import ThresholdKeygen.Proofs.Interpolation
import ThresholdKeygen.Proofs.Mapping
import ThresholdKeygen.Proofs.Refusal
import ThresholdKeygen.Proofs.Sharing
import ThresholdKeygen.Proofs.PublicMap
import ThresholdKeygen.Proofs.BatchCheck
import ThresholdKeygen.Proofs.Participant.Reachable
import ThresholdKeygen.Proofs.Participant.ShareCheck
import ThresholdKeygen.Proofs.Participant.Consistent
import ThresholdKeygen.Proofs.Participant.Agreement
import ThresholdKeygen.Proofs.KnowledgeProof
import ThresholdKeygen.Proofs.Participant.Dealing
import ThresholdKeygen.Proofs.Ceremony.Round
import ThresholdKeygen.Proofs.Ceremony.Exchange
import ThresholdKeygen.Proofs.Ceremony.Plain
import ThresholdKeygen.Proofs.KeyPartition
import ThresholdKeygen.Proofs.WeightedParty
import ThresholdKeygen.Proofs.Ceremony.Weighted
import ThresholdKeygen.Proofs.BatchWeights
import ThresholdKeygen.Proofs.Participant.Persistence
import ThresholdKeygen.Proofs.WeightedParty.Change
import ThresholdKeygen.Proofs.WeightedParty.Persistence
import ThresholdKeygen.Proofs.Participant.VerifiedInbox
import ThresholdKeygen.Proofs.WeightedParty.VerifiedSlots
import ThresholdKeygen.Proofs.Participant.Progress
import ThresholdKeygen.Proofs.Participant.Aborted
import ThresholdKeygen.Proofs.WeightedParty.Aborted
import ThresholdKeygen.Proofs.Ceremony.Turns
import ThresholdKeygen.Proofs.Ceremony.CrossCheck
import ThresholdKeygen.Proofs.Ceremony.Evolution
import ThresholdKeygen.Proofs.Ceremony.Methods
import ThresholdKeygen.Proofs.Ceremony.Resumption
import ThresholdKeygen.Proofs.Participant.InPlace
import ThresholdKeygen.Proofs.Participant.Atomic
import ThresholdKeygen.Proofs.Participant.Imports
import ThresholdKeygen.Proofs.OwnDraws
import ThresholdKeygen.Proofs.Ceremony.Schedules
import ThresholdKeygen.Proofs.Ceremony.Phases
import ThresholdKeygen.Proofs.Ceremony.InStep
import ThresholdKeygen.Proofs.Participant.Blind
import ThresholdKeygen.Proofs.Ceremony.SingleSlots
import ThresholdKeygen.Proofs.Ceremony.Preparation
import ThresholdKeygen.Proofs.Ceremony.Simulation
import ThresholdKeygen.Proofs.Item
import ThresholdKeygen.Proofs.Transcript
import ThresholdKeygen.Proofs.Snapshot
import ThresholdKeygen.Proofs.WeightedParty.BlamedSlots
import ThresholdKeygen.Proofs.WeightedParty.SlotsAhead
import ThresholdKeygen.Proofs.KnowledgeProof.Acceptance
import ThresholdKeygen.Proofs.Transcript.Inputs
import ThresholdKeygen.Proofs.CommitmentTable.Registrations
import ThresholdKeygen.Proofs.BatchCheck.Bisection
import ThresholdKeygen.Proofs.Interpolation.Verdicts
import ThresholdKeygen.Proofs.Interpolation.Agreement
import ThresholdKeygen.Proofs.PublicMap.Evaluations
import ThresholdKeygen.Proofs.Deliveries
import ThresholdKeygen.Proofs.Ceremony.Ownership
import ThresholdKeygen.Proofs.Secrecy
import ThresholdKeygen.Proofs.WireFormat
import ThresholdKeygen.Proofs.Point.Aggregation
import ThresholdKeygen.Proofs.Secp256k1.Order
import ThresholdKeygen.Proofs.Interpolation.Inversion
import ThresholdKeygen.Proofs.Coefficients.Feldman
import ThresholdKeygen.Proofs.Config
import ThresholdKeygen.Proofs.Ceremony.Creation
