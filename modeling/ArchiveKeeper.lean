import ArchiveKeeper.Main
import ArchiveKeeper.ObjectStore.Memory
import ArchiveKeeper.ObjectStore.Paged
import ArchiveKeeper.Scheduler.Callers
import ArchiveKeeper.Text.Base64
import ArchiveKeeper.Proofs.Text.Cut
import ArchiveKeeper.Proofs.Text.Bytes
import ArchiveKeeper.Proofs.Text.Margin
import ArchiveKeeper.Proofs.Text.Order
import ArchiveKeeper.Proofs.Number.Rounding
import ArchiveKeeper.Proofs.Number.Decimal
import ArchiveKeeper.Proofs.Number.Value
import ArchiveKeeper.Proofs.Number.Literal
import ArchiveKeeper.Proofs.Json.Escapes
import ArchiveKeeper.Proofs.Json.Units
import ArchiveKeeper.Proofs.Json.Words
import ArchiveKeeper.Proofs.Json.Members
import ArchiveKeeper.Proofs.Json.Syntax
import ArchiveKeeper.Proofs.Json.Numbers
import ArchiveKeeper.Proofs.Json.Legibility
import ArchiveKeeper.Proofs.Json.Proper
import ArchiveKeeper.Proofs.Json.Rewriting
import ArchiveKeeper.Proofs.Check
import ArchiveKeeper.Proofs.Bundle
import ArchiveKeeper.Proofs.Bundle.Acceptance
import ArchiveKeeper.Proofs.Job.Path
import ArchiveKeeper.Proofs.Files.Path
import ArchiveKeeper.Proofs.Files.Tree
import ArchiveKeeper.Proofs.Files.Frame
import ArchiveKeeper.Proofs.Files.Parent
import ArchiveKeeper.Proofs.Files.Listing
import ArchiveKeeper.Proofs.Table
import ArchiveKeeper.Proofs.Cache
import ArchiveKeeper.Proofs.Overview
import ArchiveKeeper.Proofs.Source
import ArchiveKeeper.Proofs.Location
import ArchiveKeeper.Proofs.Location.Bucket
import ArchiveKeeper.Proofs.ObjectStore.Paging
import ArchiveKeeper.Proofs.Store.Contract
import ArchiveKeeper.Proofs.Store.Combined
import ArchiveKeeper.Proofs.Store.Database
import ArchiveKeeper.Proofs.Store.Layout
import ArchiveKeeper.Proofs.Store.Ready
import ArchiveKeeper.Proofs.Store.Directory
import ArchiveKeeper.Proofs.Store.Publication
import ArchiveKeeper.Proofs.Store.Placement
import ArchiveKeeper.Proofs.Store.Separation
import ArchiveKeeper.Proofs.Store.Service
import ArchiveKeeper.Proofs.Store.DatabaseService
import ArchiveKeeper.Proofs.Store.DirectoryInvariant
import ArchiveKeeper.Proofs.Store.DirectoryService
import ArchiveKeeper.Proofs.Store.Presence
import ArchiveKeeper.Proofs.Store.Interchange
import ArchiveKeeper.Proofs.Store.Uses
import ArchiveKeeper.Proofs.Store.Step
import ArchiveKeeper.Proofs.Store.DirectoryUses
import ArchiveKeeper.Proofs.Store.Reopening
import ArchiveKeeper.Proofs.Store.Listing
import ArchiveKeeper.Proofs.Store.JobIndependence
import ArchiveKeeper.Proofs.Store.Reached
import ArchiveKeeper.Proofs.Store.Keys
import ArchiveKeeper.Proofs.Store.Acceptance
import ArchiveKeeper.Proofs.Store.Deletion
import ArchiveKeeper.Proofs.Store.Lookup
import ArchiveKeeper.Proofs.Store.Blame
import ArchiveKeeper.Proofs.Store.FailedPublication
import ArchiveKeeper.Proofs.Store.Containment
import ArchiveKeeper.Proofs.Store.Refusal
import ArchiveKeeper.Proofs.Store.Trees
import ArchiveKeeper.Proofs.Overview.Merge
import ArchiveKeeper.Proofs.Overview.Rebuild
import ArchiveKeeper.Proofs.Job.LegacyForm
import ArchiveKeeper.Proofs.Job.Conversion
import ArchiveKeeper.Proofs.Job.Typing
import ArchiveKeeper.Proofs.CommandLine.Blame
import ArchiveKeeper.Proofs.Config.Form
import ArchiveKeeper.Proofs.Config.Valid
import ArchiveKeeper.Proofs.Config.Setting
import ArchiveKeeper.Proofs.Config.Overrides
import ArchiveKeeper.Proofs.Config.Substitution
import ArchiveKeeper.Proofs.Scheduler.Order
import ArchiveKeeper.Proofs.Scheduler.Promises
import ArchiveKeeper.Proofs.Fetch.Act
import ArchiveKeeper.Proofs.Fetch.Ingestion
import ArchiveKeeper.Proofs.Fetch.Visit
import ArchiveKeeper.Proofs.Fetch.Survey
import ArchiveKeeper.Proofs.Fetch.Clearance
import ArchiveKeeper.Proofs.Fetch.Course
import ArchiveKeeper.Proofs.Fetch.Steps
import ArchiveKeeper.Proofs.Fetch.Completion
import ArchiveKeeper.Proofs.Fetch.Run
import ArchiveKeeper.Proofs.Fetch.Effect
import ArchiveKeeper.Proofs.Fetch.Announcements
import ArchiveKeeper.Proofs.Fetch.Repetition
import ArchiveKeeper.Proofs.Fetch.StoreEffect
import ArchiveKeeper.Proofs.Fetch.Mirror
import ArchiveKeeper.Proofs.Fetch.ConfiguredStore
import ArchiveKeeper.Proofs.Fetch.Deeds
import ArchiveKeeper.Proofs.Fetch.HeldJobs
import ArchiveKeeper.Proofs.Fetch.Removal
import ArchiveKeeper.Proofs.Fetch.Publication
import ArchiveKeeper.Proofs.Fetch.Overview
import ArchiveKeeper.Proofs.Fetch.Recovery
import ArchiveKeeper.Proofs.Fetch.Containment
import ArchiveKeeper.Proofs.Fetch.Remnants
import ArchiveKeeper.Proofs.Fetch.JobState
import ArchiveKeeper.Proofs.Fetch.JobTransitions
import ArchiveKeeper.Proofs.Fetch.Independence
import ArchiveKeeper.Proofs.Fetch.Account
import ArchiveKeeper.Proofs.Fetch.IdleCycle
import ArchiveKeeper.Proofs.Fetch.Omission
import ArchiveKeeper.Proofs.Fetch.Presence
import ArchiveKeeper.Proofs.Fetch.Delivery
import ArchiveKeeper.Proofs.Fetch.Wiring
