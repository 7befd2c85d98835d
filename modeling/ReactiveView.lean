import ReactiveView.Engine.Report
import ReactiveView.Proofs.Acyclicity
import ReactiveView.Proofs.Attributes
import ReactiveView.Proofs.Bubbling
import ReactiveView.Proofs.ControlInput
import ReactiveView.Proofs.DeclaredKeys
import ReactiveView.Proofs.Definition
import ReactiveView.Proofs.Discovery
import ReactiveView.Proofs.DroppedView
import ReactiveView.Proofs.EventDispatch
import ReactiveView.Proofs.ExactDelivery
import ReactiveView.Proofs.Markup
import ReactiveView.Proofs.Notification
import ReactiveView.Proofs.Number.Display
import ReactiveView.Proofs.Observation
import ReactiveView.Proofs.Opening
import ReactiveView.Proofs.PassExpansion
import ReactiveView.Proofs.ReactiveClosure
import ReactiveView.Proofs.Registries
import ReactiveView.Proofs.RoundTrip
import ReactiveView.Proofs.Search
import ReactiveView.Proofs.SteadyState
import ReactiveView.Proofs.Template.Roles
import ReactiveView.Proofs.Template.Scanning
import ReactiveView.Proofs.Template.Splitting
import ReactiveView.Proofs.Termination
import ReactiveView.Proofs.TextCoherence
import ReactiveView.Proofs.WriteGate
import ReactiveView.Template.Source
