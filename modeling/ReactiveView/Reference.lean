/-!
# References

Everything a running program shares is named by a reference: an index together with the kind of
thing it names. Two references are equal exactly when they name the same thing, so identity is
equality of references.
-/

namespace ReactiveView

/-- The kinds of things that have an identity. -/
inductive Kind where
  | array
  | object
  | registry
  | subscriber
  | context
  | node
  | view
  deriving DecidableEq, Repr

/-- A name for one thing of the given kind. -/
structure Ref (kind : Kind) where
  index : Nat
  deriving DecidableEq, Repr

instance (kind : Kind) : Inhabited (Ref kind) := ⟨⟨0⟩⟩

end ReactiveView
