import ReactiveMarkup.Compile.Collection
import ReactiveMarkup.Proofs.Anchoring
import ReactiveMarkup.Proofs.Animations
import ReactiveMarkup.Proofs.BrokenRuns
import ReactiveMarkup.Proofs.ClassMaps
import ReactiveMarkup.Proofs.Cleaning
import ReactiveMarkup.Proofs.Compaction
import ReactiveMarkup.Proofs.DeadBlocks
import ReactiveMarkup.Proofs.DeepComparison
import ReactiveMarkup.Proofs.DestroyedTrees
import ReactiveMarkup.Proofs.Guards
import ReactiveMarkup.Proofs.LatestValue
import ReactiveMarkup.Proofs.Numbering
import ReactiveMarkup.Proofs.OnceQueue
import ReactiveMarkup.Proofs.Patching
import ReactiveMarkup.Proofs.Scopes
import ReactiveMarkup.Proofs.Scoping
import ReactiveMarkup.Proofs.Segments
import ReactiveMarkup.Proofs.Selection
import ReactiveMarkup.Proofs.SiblingRounds
import ReactiveMarkup.Proofs.StaticMarkup
import ReactiveMarkup.Proofs.Sums
import ReactiveMarkup.Proofs.TagScan
import ReactiveMarkup.Session.Host
