import JobScripts.Apply.Drafts
import JobScripts.Apply.Fills
import JobScripts.Apply.Options
import JobScripts.Apply.Submissions.CountedOnce
import JobScripts.Batch.Ceiling
import JobScripts.Batch.Collection
import JobScripts.Batch.Groups
import JobScripts.Batch.Lines
import JobScripts.Batch.Objects
import JobScripts.Batch.Submit
import JobScripts.Billing.ModelCalls
import JobScripts.Billing.ProviderCosts.Results
import JobScripts.Board.Chunks
import JobScripts.Board.ColumnFilters.Filters
import JobScripts.Board.PayScreen.Rejections
import JobScripts.Board.Proposals
import JobScripts.Board.PublicJobLists
import JobScripts.Board.Revalidation
import JobScripts.Board.Screening
import JobScripts.Board.Status
import JobScripts.Board.Visibility
import JobScripts.Catalog.ListedNow
import JobScripts.Catalog.Listings
import JobScripts.Catalog.Observations
import JobScripts.Catalog.PageTexts
import JobScripts.Catalog.Pulls
import JobScripts.Catalog.Selection.CommitOrder
import JobScripts.Catalog.Upserts
import JobScripts.Fetching.Pace
import JobScripts.Ledger.Read
import JobScripts.Ledger.Rollup
import JobScripts.Ledger.Rows
import JobScripts.Ledger.Triggers
import JobScripts.Lib.Backtracking
import JobScripts.Lib.Base64
import JobScripts.Lib.Decimals
import JobScripts.Lib.Dumps
import JobScripts.Lib.Group
import JobScripts.Lib.IsoTime
import JobScripts.Lib.Keyset
import JobScripts.Lib.Like
import JobScripts.Lib.Loads
import JobScripts.Lib.Representatives
import JobScripts.Lib.SqlExpr
import JobScripts.Lib.Utf8
import JobScripts.Lib.Versions
import JobScripts.Mail.Converge
import JobScripts.Mail.Derived
import JobScripts.Mail.Disconnects
import JobScripts.Mail.Gmail
import JobScripts.Mail.Grants
import JobScripts.Mail.Match
import JobScripts.Mail.Mbox
import JobScripts.Mail.Pointers.Passes
import JobScripts.Mail.Ranges
import JobScripts.Mail.Refreshes
import JobScripts.Mail.Settled
import JobScripts.Mail.Store
import JobScripts.Mail.Sweep.Decided
import JobScripts.Models.Pricing
import JobScripts.Models.Routing
import JobScripts.Payloads.Encoding
import JobScripts.Queue.Admission
import JobScripts.Queue.Allowance
import JobScripts.Queue.Exits
import JobScripts.Queue.Parents.Ends
import JobScripts.Queue.Receipts
import JobScripts.Recipe.Publishing
import JobScripts.Recipe.Upload
import JobScripts.Resume.TextParts
import JobScripts.Resume.Uploads.SavedOnce
import JobScripts.Verification.Inputs
import JobScripts.Verification.NearCopies
import JobScripts.Verification.Questions
import JobScripts.Verification.Standing
