import ReactiveView.Decl.Walk
import ReactiveView.Proofs.ArgumentTargets
import ReactiveView.Proofs.ArrayLiterals
import ReactiveView.Proofs.BindingLinks
import ReactiveView.Proofs.BracketedBlocks
import ReactiveView.Proofs.BranchReuse
import ReactiveView.Proofs.DeclarationOrder
import ReactiveView.Proofs.DirectInterpretation
import ReactiveView.Proofs.FailedUpdates
import ReactiveView.Proofs.KeptSites
import ReactiveView.Proofs.LoweredTexts
import ReactiveView.Proofs.LoweringFaults
import ReactiveView.Proofs.MemberNames
import ReactiveView.Proofs.RenderOrder
import ReactiveView.Proofs.RepeatedDeclarations
import ReactiveView.Proofs.UpdatedFields
import ReactiveView.Proofs.WriteOrder
import ReactiveView.Reactive.Session
