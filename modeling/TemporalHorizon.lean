import TemporalHorizon.Main
import TemporalHorizon.Proofs.Answers
import TemporalHorizon.Proofs.Termination
import TemporalHorizon.StableModel.Semantics
import TemporalHorizon.Trace
import TemporalHorizon.Proofs.Requirements
import TemporalHorizon.Proofs.Fulfilment
import TemporalHorizon.Proofs.Reaching
import TemporalHorizon.Proofs.Roles
import TemporalHorizon.Proofs.Operations
import TemporalHorizon.Proofs.Session
import TemporalHorizon.Proofs.Models
import TemporalHorizon.Proofs.Truth
import TemporalHorizon.Proofs.BodyMode
import TemporalHorizon.Proofs.Truncation
import TemporalHorizon.Proofs.Closing
import TemporalHorizon.Proofs.Intended
import TemporalHorizon.Proofs.Obligations
import TemporalHorizon.Proofs.HeadMode
import TemporalHorizon.Proofs.Refusals
import TemporalHorizon.Proofs.Permanence
import TemporalHorizon.Proofs.Waiting
import TemporalHorizon.Proofs.Enumeration
import TemporalHorizon.Proofs.Purposes
import TemporalHorizon.Proofs.LateRequiring
import TemporalHorizon.Proofs.Conservation
import TemporalHorizon.Proofs.Settling
import TemporalHorizon.Proofs.Assertions
import TemporalHorizon.Proofs.Carriers
import TemporalHorizon.Proofs.Changes
import TemporalHorizon.Proofs.Repetition
import TemporalHorizon.Proofs.Interruptions
import TemporalHorizon.Proofs.SideBySide
import TemporalHorizon.Proofs.AlwaysRepeats
import TemporalHorizon.Proofs.JointChoices
import TemporalHorizon.Proofs.Filings
import TemporalHorizon.Proofs.Hindsight
import TemporalHorizon.Proofs.Shifts
import TemporalHorizon.Proofs.Exclusion
import TemporalHorizon.Proofs.PathChecks
import TemporalHorizon.Proofs.WriteOnce
import TemporalHorizon.Proofs.Spelling
import TemporalHorizon.Proofs.Readability
import TemporalHorizon.Proofs.Owners
import TemporalHorizon.Proofs.Landings
import TemporalHorizon.Proofs.Locality
import TemporalHorizon.Proofs.StoredPaths
import TemporalHorizon.Proofs.Staying
import TemporalHorizon.Proofs.Packing
import TemporalHorizon.Proofs.Exactness
import TemporalHorizon.Proofs.ExactSessions
