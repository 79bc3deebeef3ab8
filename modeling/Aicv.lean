import Aicv.Pool.Cap
import Aicv.Pool.Handout
import Aicv.Pool.Recycling
import Aicv.Pool.Alone
import Aicv.Pipeline.Deadline
import Aicv.Cli.JobSpec
import Aicv.Api.Verify
import Aicv.Ttl.History
import Aicv.Env.Isolation
import Aicv.Env.Reaping
import Aicv.Env.Closing
import Aicv.Env.Deadlines
import Aicv.Pool.Occupancy
import Aicv.TaskSuite.Contamination
import Aicv.TaskSuite.Order
import Aicv.TaskSuite.Verify
import Aicv.TaskSuite.Files
import Aicv.Verifier.Rust
import Aicv.Verifier.Go
import Aicv.Dataset.Crates
import Aicv.Cli.Summary
import Aicv.Cli.Bench
import Aicv.Cli.GenBench
import Aicv.Cli.Project
import Aicv.Mining.Agreement
import Aicv.Mining.Threshold
import Aicv.Mining.GoDirect
import Aicv.Mining.Cargo
import Aicv.Pool.Progress
import Aicv.Pool.Saturation
import Aicv.Env.Progress
import Aicv.Env.Lifecycle
import Aicv.Reward.Compute
import Aicv.Mining.BakedGo
import Aicv.Mining.BakedCargo
import Aicv.Mining.Coverage
import Aicv.Mining.RustMiner
import Aicv.Mining.Handoff
import Aicv.Cli.Statistics
import Aicv.Python.JsonScan
import Aicv.Python.JsonText
import Aicv.TaskSuite.Files
