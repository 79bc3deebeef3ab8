import Aicv.Time.Duration

/-!
# Jobs

What `pipeline.Run` is given, and the commands of its two stages.
-/

namespace Aicv.Pipeline

/-- `pipeline.Lang`. -/
inductive Lang where
  | rust
  | go
deriving DecidableEq, Repr

/-- `pipeline.Stage`. -/
inductive Stage where
  | compile
  | execute
deriving DecidableEq, Repr

/-- `pipeline.Job`. -/
structure Job where
  lang : Lang
  /-- Relative paths and contents. -/
  files : List (String × String)
  ttl : Duration
deriving DecidableEq

/-- `compileCommand`. -/
def compileCommand : Lang → List String
  | .go => ["go", "build", "./..."]
  | .rust => ["cargo", "test", "--no-run", "--offline", "--message-format=json"]

/-- `executeCommand`. -/
def executeCommand : Lang → List String
  | .go => ["go", "test", "./..."]
  | .rust => ["cargo", "test", "--offline"]

/-- The command of a stage. -/
def command (lang : Lang) : Stage → List String
  | .compile => compileCommand lang
  | .execute => executeCommand lang

/-- The files `Run` stages for a stage. -/
def Job.staged (job : Job) : Stage → List (String × String)
  | .compile => job.files
  | .execute => []

/-- Names one call of `pipeline.Run`. -/
abbrev JobId := ℕ

end Aicv.Pipeline
