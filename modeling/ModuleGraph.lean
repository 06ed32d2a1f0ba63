import ModuleGraph.Scenario.Session
import ModuleGraph.FileSystem.Import
import ModuleGraph.Json.Writer
import ModuleGraph.Machine.Lemmas
import ModuleGraph.Main
import ModuleGraph.Proofs.Linking.Bindings
import ModuleGraph.Proofs.Runs.Spreading
import ModuleGraph.Proofs.Runs.WaitGraph
import ModuleGraph.Proofs.Linking.Chains
import ModuleGraph.Proofs.Linking.Contract
import ModuleGraph.Proofs.Evaluation.Awaiting
import ModuleGraph.Proofs.Evaluation.Closing
import ModuleGraph.Proofs.Evaluation.Failing
import ModuleGraph.Proofs.Evaluation.Telling
import ModuleGraph.Proofs.Evaluation.Visiting
import ModuleGraph.Proofs.Promises.Reactions
import ModuleGraph.Proofs.Promises.Wired
import ModuleGraph.Proofs.Runs.Bodies
import ModuleGraph.Proofs.Runs.Evaluate
import ModuleGraph.Proofs.Runs.Link
import ModuleGraph.Proofs.Runs.Failing
import ModuleGraph.Proofs.Runs.Outcomes
import ModuleGraph.Proofs.Runs.Sharing
import ModuleGraph.Proofs.CodePoints
import ModuleGraph.Proofs.Exports.Keys
import ModuleGraph.Proofs.Assertions.Jobs
import ModuleGraph.Proofs.Synchronous.Outcome
import ModuleGraph.Proofs.Imports.Outcome
import ModuleGraph.Proofs.Histories.Rejections
import ModuleGraph.Proofs.Histories.Adoption
import ModuleGraph.Proofs.Histories.Aggregates
import ModuleGraph.Proofs.Histories.Draining
import ModuleGraph.Proofs.Retries.Outcome
import ModuleGraph.Proofs.Live.Reads
import ModuleGraph.Proofs.Bindings.Tasks
import ModuleGraph.Proofs.Syntax.Await
import ModuleGraph.Proofs.Syntax.Entries
import ModuleGraph.Proofs.DryRuns.Outcome
import ModuleGraph.Proofs.Linking.Between
