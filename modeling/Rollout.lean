import Rollout.BatchId
import Rollout.Calendar
import Rollout.Controller.Run
import Rollout.Expectation
import Rollout.Logging
import Rollout.Rehearsal
import Rollout.Proofs.ForestShape
import Rollout.Proofs.Planting
import Rollout.Proofs.StageOrder
import Rollout.Proofs.TreeWork
import Rollout.Proofs.Unwinding
import Rollout.Proofs.Uprooting
import Rollout.Proofs.SoundController
import Rollout.Proofs.Descent
import Rollout.Proofs.Turns
import Rollout.Proofs.Passes
import Rollout.Proofs.Steps
import Rollout.Proofs.Batches
import Rollout.Proofs.Asking
import Rollout.Proofs.Requests
import Rollout.Proofs.EndingDescents
import Rollout.Proofs.BatchOutcome
import Rollout.Proofs.StandingNeeds
import Rollout.Proofs.DependencySafety
import Rollout.Proofs.Deeds
import Rollout.Proofs.Bracketing
import Rollout.Proofs.Quiescence
import Rollout.Proofs.Idling
import Rollout.Proofs.Restoring
import Rollout.Proofs.Bounce
import Rollout.Proofs.Situations
import Rollout.Proofs.Retrying
import Rollout.Proofs.KeptErrors
import Rollout.Proofs.Scoping
import Rollout.Proofs.Residue
import Rollout.Proofs.LastingErrors
import Rollout.Proofs.LocalWork
import Rollout.Proofs.Growth
import Rollout.Proofs.Confluence
import Rollout.Proofs.SideBySide
import Rollout.Proofs.Climbing
import Rollout.Proofs.Replacing
import Rollout.Proofs.Isolation
import Rollout.Proofs.InStep
import Rollout.Proofs.Retelling
import Rollout.Proofs.Tallies
import Rollout.Proofs.EventStream
import Rollout.Proofs.LastWord
import Rollout.Proofs.Stranding
import Rollout.Proofs.GreatestRetreat
import Rollout.Proofs.PullingBack
import Rollout.Proofs.Leeway
import Rollout.Proofs.PassBound
import Rollout.Proofs.PartialQueueing
import Rollout.Proofs.Admission
import Rollout.Proofs.Reporting
import Rollout.Proofs.Links
import Rollout.Proofs.Grove
import Rollout.Proofs.Indexing
import Rollout.Proofs.Tending
import Rollout.Proofs.ReadingBack
import Rollout.Proofs.Tables
import Rollout.Proofs.Walks
import Rollout.Proofs.Enlisting
