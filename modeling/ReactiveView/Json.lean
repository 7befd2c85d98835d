import ReactiveView.Number.Binary

/-!
# JSON documents

A number in a document is an integer or a binary64 number that is not one. The members of an object
form a finite map; in its `sorted` list each name occurs once, in increasing order, and a repeated
name has kept its last value.
-/

namespace ReactiveView

inductive Json where
  | null
  | bool (b : Bool)
  | integer (i : Int)
  | real (n : Number)
  | text (s : String)
  | array (items : List Json)
  | object (members : List (String × Json))

namespace Json

instance : Inhabited Json := ⟨.null⟩

variable {α : Type}

/-- Put a member into a sorted list, in place of one with the same name. -/
def insertMember (name : String) (value : α) : List (String × α) → List (String × α)
  | [] => [(name, value)]
  | (other, v) :: rest =>
    if name < other then (name, value) :: (other, v) :: rest
    else if name = other then (name, value) :: rest
    else (other, v) :: insertMember name value rest

/-- The members in increasing order of their names, the last of each name. -/
def sorted (members : List (String × α)) : List (String × α) :=
  members.foldl (fun acc member => insertMember member.1 member.2 acc) []

end Json

end ReactiveView
