import ExactSpend.Bounded
import ExactSpend.Script
import ExactSpend.FeeRate
import ExactSpend.Coin
import ExactSpend.Settings
import ExactSpend.Pool
import ExactSpend.Selection
import ExactSpend.Goal
import ExactSpend.Search
import ExactSpend.Ladder
import ExactSpend.Event
import ExactSpend.Funding
import ExactSpend.Notice
import ExactSpend.Signal
import ExactSpend.Plan
import ExactSpend.Harvest
import ExactSpend.Decimal.Binary
import ExactSpend.Decimal.Reader
import ExactSpend.Decimal.Shortest
import ExactSpend.Decimal.Writer
import ExactSpend.Amount
import ExactSpend.Single
import ExactSpend.Table.Writer
import ExactSpend.Record
import ExactSpend.Statistics
import ExactSpend.Payer
import ExactSpend.Deadline
import ExactSpend.Wallet
import ExactSpend.Wallet.Choice
import ExactSpend.Wallet.Withdrawal
import ExactSpend.Text
import ExactSpend.Table.Reader
import ExactSpend.Scenario
import ExactSpend.SettingsTable
import ExactSpend.Path
import ExactSpend.Storage
import ExactSpend.Folder
import ExactSpend.Replay
import ExactSpend.Replay.Results
import ExactSpend.CommandLine.Options
import ExactSpend.CommandLine.Program
import ExactSpend.Main
import ExactSpend.Proofs.Search.Order
import ExactSpend.Proofs.Search.Positions
import ExactSpend.Proofs.Search.Invariant
import ExactSpend.Proofs.Search.Run
import ExactSpend.Proofs.Search.Sweep
import ExactSpend.Proofs.Search.FirstMatch
import ExactSpend.Proofs.Search.Record
import ExactSpend.Proofs.Search.Fallback
import ExactSpend.Proofs.Plan.Pools
import ExactSpend.Proofs.Plan.Sorting
import ExactSpend.Proofs.Plan.Tasks
import ExactSpend.Proofs.Plan.Yields
import ExactSpend.Proofs.Wallet.Coins
import ExactSpend.Proofs.Wallet.Choices
import ExactSpend.Proofs.Wallet.Payments
import ExactSpend.Proofs.Wallet.History
import ExactSpend.Proofs.Wallet.Rotation
import ExactSpend.Proofs.Wallet.Changeless
import ExactSpend.Proofs.Fees
import ExactSpend.Proofs.Wallet.Sufficiency
import ExactSpend.Proofs.Wallet.Charges
import ExactSpend.Proofs.Plan.Order
import ExactSpend.Proofs.Plan.Arrivals
import ExactSpend.Proofs.Plan.Validity
import ExactSpend.Proofs.Search.Reports
import ExactSpend.Proofs.Search.Termination
import ExactSpend.Proofs.Plan.Groups
import ExactSpend.Proofs.Plan.Schedule
import ExactSpend.Proofs.Plan.Candidates
import ExactSpend.Proofs.Search.Ceiling
import ExactSpend.Proofs.Search.TieBreak
import ExactSpend.Proofs.Search.Anytime
import ExactSpend.Proofs.Search.Words
import ExactSpend.Proofs.Plan.Cancellation
import ExactSpend.Proofs.Signals
import ExactSpend.Proofs.Table.RoundTrip
import ExactSpend.Proofs.Table.Prefixes
import ExactSpend.Proofs.Replay.Runs
import ExactSpend.Proofs.Replay.Files
import ExactSpend.Proofs.Replay.Payments
import ExactSpend.Proofs.Replay.Tables
import ExactSpend.Proofs.Replay.Faults
import ExactSpend.Proofs.Ladder
import ExactSpend.Proofs.Plan.Courses
import ExactSpend.Proofs.Plan.Skipped
import ExactSpend.Proofs.Wallet.Payability
