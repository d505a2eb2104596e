import CloudTemplate.Command.FileSystem
import CloudTemplate.Main
import CloudTemplate.Proofs.Graph.TargetsFirst
import CloudTemplate.Proofs.Evaluation.Reduction
import CloudTemplate.Proofs.Evaluation.Agreement
import CloudTemplate.Proofs.Expander.NotedEdges
import CloudTemplate.Proofs.Expander.ExactEdges
import CloudTemplate.Proofs.Expander.Mentions
import CloudTemplate.Proofs.Substitution.Scanning
import CloudTemplate.Proofs.Substitution.Staging
import CloudTemplate.Proofs.Evaluation.Invocation
import CloudTemplate.Proofs.Evaluation.Tokens
import CloudTemplate.Proofs.Evaluation.StagedArguments
import CloudTemplate.Proofs.Evaluation.StagedCalls
import CloudTemplate.Proofs.Evaluation.StagedResolution
import CloudTemplate.Proofs.Expander.ProcessingOrder
import CloudTemplate.Proofs.Value.Enclosure
import CloudTemplate.Proofs.Expander.Renaming
import CloudTemplate.Proofs.Expander.RenamedReferences
import CloudTemplate.Proofs.Evaluation.LessKnownCalls
import CloudTemplate.Proofs.Evaluation.LessKnownArguments
import CloudTemplate.Proofs.Evaluation.LessKnownResolution
import CloudTemplate.Proofs.Evaluation.AvoidedNames
import CloudTemplate.Proofs.Expander.RenamedTemplate
import CloudTemplate.Proofs.Expander.EvaluatedParts
import CloudTemplate.Proofs.Expander.CompleteRenaming
import CloudTemplate.Graph.Index
import CloudTemplate.Proofs.Graph.Histories
import CloudTemplate.Proofs.Substitution.Rescanning
import CloudTemplate.Proofs.Evaluation.MissingValues
import CloudTemplate.Expander.Session
import CloudTemplate.Proofs.Expander.Sessions
import CloudTemplate.Proofs.Graph.MarkedCycles
import CloudTemplate.Proofs.Template.Sections
import CloudTemplate.Proofs.Expander.KeptResources
import CloudTemplate.Proofs.Value.DistinctNames
import CloudTemplate.Proofs.Expander.PlainTemplates
import CloudTemplate.Proofs.Value.Positions
import CloudTemplate.Proofs.Evaluation.FirstFailure
import CloudTemplate.Proofs.Expander.ErrorLocations
import CloudTemplate.Proofs.Graph.InducedEdges
import CloudTemplate.Proofs.Expander.ListedReferences
import CloudTemplate.Proofs.Expander.HarmlessRenaming
import CloudTemplate.Proofs.Expander.Spellings
import CloudTemplate.Proofs.Evaluation.NestedConditionals
import CloudTemplate.Proofs.Expander.DeferredCalls
import CloudTemplate.Proofs.Value.ReferenceListing
import CloudTemplate.Proofs.Graph.SimplePaths
import CloudTemplate.Proofs.Cloud.StoredValues
import CloudTemplate.Proofs.Substitution.Shadowing
import CloudTemplate.Proofs.Template.Documents
import CloudTemplate.Proofs.Cloud.CleanMessages
import CloudTemplate.Proofs.Value.AttributeArguments
import CloudTemplate.Proofs.Substitution.RenderedMaps
import CloudTemplate.Proofs.Command.GivenConditions
import CloudTemplate.Proofs.Command.StackIdentifier
