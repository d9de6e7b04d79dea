import ViewSync.Keyed.Order
import ViewSync.Value.Text
import ViewSync.Template.Catalog
import ViewSync.Template.Draft
import ViewSync.View
import ViewSync.Proofs.Stream.Mirror
import ViewSync.Proofs.Run
import ViewSync.Proofs.Pass.Steps
import ViewSync.Proofs.Tree.Fits
import ViewSync.Proofs.Pass.Rendering
import ViewSync.Proofs.Roster.Records
import ViewSync.Proofs.Roster.Arena
import ViewSync.Proofs.Roster.Draining
import ViewSync.Proofs.Roster.Undo
import ViewSync.Proofs.Roster.Trace
import ViewSync.Proofs.Roster.Rollback
import ViewSync.Proofs.Roster.Resting
import ViewSync.Proofs.View.FailedRender
import ViewSync.Proofs.Patch.Application
import ViewSync.Proofs.Patch.Edits
import ViewSync.Proofs.Roster.Redrawing
import ViewSync.Proofs.Roster.Patches
import ViewSync.Proofs.View.Client
import ViewSync.Proofs.Assigns.Record
import ViewSync.Proofs.Assigns.Changes
import ViewSync.Proofs.Text.Escape
import ViewSync.Proofs.Value.Text
import ViewSync.Proofs.Template.Filling
import ViewSync.Proofs.Pass.Keeping
import ViewSync.Proofs.Roster.Faithful
import ViewSync.Proofs.Stream.Items
import ViewSync.Proofs.View.Tracking
import ViewSync.Proofs.Tree.WellFormed
import ViewSync.Proofs.Tree.Edits
import ViewSync.Proofs.Tree.Handles
import ViewSync.Proofs.Pass.Course
import ViewSync.Proofs.Roster.Growth
import ViewSync.Proofs.Roster.Drawings
import ViewSync.Proofs.Roster.Reach
import ViewSync.Proofs.Roster.Tidy
import ViewSync.Proofs.Roster.Orderly
import ViewSync.Proofs.Roster.Referred
import ViewSync.Proofs.Roster.Closing
import ViewSync.Proofs.Stream.Numbers
import ViewSync.Proofs.View.Ordered
import ViewSync.Proofs.View.Delivery
import ViewSync.Proofs.View.Dangling
import ViewSync.Proofs.View.Kept
import ViewSync.Proofs.Pass.Outside
import ViewSync.Proofs.Roster.Durable
import ViewSync.Proofs.Roster.Sighted
import ViewSync.Proofs.Roster.Provenance
import ViewSync.Proofs.Roster.Allotment
import ViewSync.Proofs.Roster.Capacity
import ViewSync.Proofs.View.Durable
import ViewSync.Proofs.View.Unowned
import ViewSync.Proofs.View.Undisturbed
import ViewSync.Proofs.View.Sighted
import ViewSync.Proofs.View.Leaving
import ViewSync.Proofs.View.Linked
import ViewSync.Proofs.View.Referenced
import ViewSync.Proofs.View.Allotment
import ViewSync.Proofs.View.Removal
import ViewSync.Proofs.Roster.Moves
import ViewSync.Proofs.Roster.Calls
import ViewSync.Proofs.Roster.Journal
import ViewSync.Proofs.Roster.Undoing
import ViewSync.Proofs.Tree.Still
import ViewSync.Proofs.Pass.Still
import ViewSync.Proofs.Roster.Calm
import ViewSync.Proofs.View.Idle
import ViewSync.Proofs.Template.Filled
import ViewSync.Proofs.Assigns.Merging
import ViewSync.Proofs.Roster.Answers
import ViewSync.Proofs.Pass.Filled
import ViewSync.Proofs.Template.Library
import ViewSync.Proofs.Roster.Renewal
import ViewSync.Proofs.Roster.Nesting
import ViewSync.Proofs.Roster.Single
import ViewSync.Proofs.Roster.Scratch
import ViewSync.Proofs.View.Coherent
import ViewSync.Proofs.View.Scratch
import ViewSync.Proofs.View.Incremental
import ViewSync.Proofs.Tree.Marks
import ViewSync.Proofs.Pass.Smooth
import ViewSync.Proofs.Patch.Lists
import ViewSync.Proofs.Roster.Smooth
import ViewSync.Proofs.Roster.Replies
import ViewSync.Proofs.Roster.Behind
import ViewSync.Proofs.Roster.Homes
import ViewSync.Proofs.View.Smooth
import ViewSync.Proofs.View.Waiting
import ViewSync.Proofs.View.Behind
import ViewSync.Proofs.View.Refusal
import ViewSync.Proofs.View.Homes
import ViewSync.Proofs.View.Lodging
import ViewSync.Proofs.View.Lists
import ViewSync.Proofs.Stream.UpdateOnly
import ViewSync.Proofs.Stream.Keys
import ViewSync.Proofs.Stream.Lifetime
import ViewSync.Proofs.Stream.Queue
import ViewSync.Proofs.Stream.Meaning
import ViewSync.Proofs.Stream.Refusal
import ViewSync.Proofs.Pass.Reuse
import ViewSync.Proofs.Pass.Among
import ViewSync.Proofs.Roster.Ranks
import ViewSync.Proofs.View.Wire
import ViewSync.Proofs.Patch.Sparse
import ViewSync.Proofs.Pass.InStep
import ViewSync.Proofs.Roster.Built
import ViewSync.Proofs.View.Built
import ViewSync.Proofs.Pass.Coverage
import ViewSync.Proofs.Roster.Turns
import ViewSync.Proofs.Patch.Handles
import ViewSync.Proofs.Roster.Stillborn
import ViewSync.Proofs.View.Stillborn
import ViewSync.Proofs.Roster.Queued
import ViewSync.Proofs.Roster.Tended
import ViewSync.Proofs.Roster.Leftover
import ViewSync.Proofs.Tree.Pieces
import ViewSync.Proofs.Pass.Scalars
import ViewSync.Proofs.View.Inherited
import ViewSync.Proofs.View.Escaped
import ViewSync.Proofs.Roster.Worklist
