import LogFollower.Lifecycle
import LogFollower.Main
import LogFollower.Program.FirstLines
import LogFollower.Program.Resume
import LogFollower.Proofs.Splitter.Greedy
import LogFollower.Proofs.Splitter.Chunks
import LogFollower.Proofs.Splitter.Content
import LogFollower.Proofs.Splitter.Turns
import LogFollower.Proofs.Splitter.Fresh
import LogFollower.Proofs.Splitter.Lines
import LogFollower.Proofs.Ledger
import LogFollower.Scenario
import LogFollower.Proofs.Provenance
import LogFollower.Proofs.Positions
import LogFollower.Proofs.Resume
import LogFollower.Proofs.Files
import LogFollower.Proofs.Rotation.Course
import LogFollower.Proofs.Rotation
import LogFollower.Proofs.Growing
import LogFollower.Proofs.Tailer.Kept
import LogFollower.Proofs.Recovery.Cost
import LogFollower.Proofs.Script
import LogFollower.Proofs.Recovery.Poll
import LogFollower.Proofs.Recovery
import LogFollower.Proofs.Json.Grammar
import LogFollower.Proofs.Json.Scan
import LogFollower.Proofs.Json.Lexemes
import LogFollower.Proofs.Json.Nested
import LogFollower.Proofs.Seek.Members
import LogFollower.Proofs.Seek.Written
import LogFollower.Proofs.OneShot
import LogFollower.Proofs.Standing
import LogFollower.Proofs.Abreast
import LogFollower.Proofs.Truncation
import LogFollower.Proofs.Unreachable
import LogFollower.Proofs.Return
import LogFollower.Proofs.Ending
import LogFollower.Proofs.Tailer.Effort
import LogFollower.Proofs.Existing
import LogFollower.Proofs.Tailer.Beat
import LogFollower.Proofs.Stopping
import LogFollower.Proofs.Watching.Rest
import LogFollower.Proofs.Watching.Again
import LogFollower.Proofs.Watching.Schedule
import LogFollower.Proofs.Watching.Determined
import LogFollower.Proofs.Watching.Answers
import LogFollower.Proofs.Watching.Own
import LogFollower.Proofs.Watching
import LogFollower.Proofs.Stopping.Prompt
import LogFollower.Proofs.Reports
import LogFollower.Proofs.Reports.Apart
import LogFollower.Proofs.Provenance.Whole
import LogFollower.Proofs.Files.Written
import LogFollower.Proofs.Program.Live
import LogFollower.Proofs.Text.Encoded
import LogFollower.Proofs.Program.Resume
import LogFollower.Proofs.Arguments
import LogFollower.Proofs.Program.Follow
import LogFollower.Proofs.Splitter.Blocks
import LogFollower.Proofs.Text.Cut
import LogFollower.Proofs.Splitter.Characters
import LogFollower.Proofs.Forever
import LogFollower.Proofs.Progress
import LogFollower.Proofs.Watching.Wakeups
import LogFollower.Proofs.Parting.Course
import LogFollower.Proofs.Parting
import LogFollower.Proofs.Seek.Resolution
import LogFollower.Proofs.Shutdown
import LogFollower.Proofs.Watching.Directory
