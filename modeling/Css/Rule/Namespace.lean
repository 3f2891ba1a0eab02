import Css.Token.Escape

/-!
# Namespaces

A stylesheet binds prefixes to the addresses of namespaces. At most one binding has no prefix: that
of the default namespace. A prefix that is bound again keeps its place in the table.
-/

namespace Css

/-- The bindings of a stylesheet in the order of their first appearance. -/
structure Namespaces where
  bindings : List (Option String × String)
  deriving DecidableEq, Repr, Inhabited

namespace Namespaces

/-- Without bindings. -/
def empty : Namespaces := ⟨[]⟩

/-- The address that a prefix is bound to. -/
def get? (n : Namespaces) (key : Option String) : Option String := n.bindings.lookup key

/-- The prefix is bound. -/
def binds (n : Namespaces) (key : Option String) : Bool := (n.get? key).isSome

/-- The bindings of a list with one more. -/
def insertIn (key : Option String) (address : String) :
    List (Option String × String) → List (Option String × String)
  | [] => [(key, address)]
  | (k, a) :: rest =>
    if k = key then (key, address) :: rest else (k, a) :: insertIn key address rest

/-- The table with a prefix bound to an address. -/
def insert (n : Namespaces) (key : Option String) (address : String) : Namespaces :=
  ⟨insertIn key address n.bindings⟩

/-- The table with bindings added in order. -/
def insertAll (n : Namespaces) (bindings : List (Option String × String)) : Namespaces :=
  bindings.foldl (fun n (key, address) => n.insert key address) n

/-- The table that bindings make up when they are added in order. -/
def ofList (bindings : List (Option String × String)) : Namespaces := empty.insertAll bindings

/-- The bindings that another table does not have. -/
def newSince (n old : Namespaces) : List (Option String × String) :=
  n.bindings.filter fun (key, address) => old.get? key ≠ some address

/-- The statement that makes a binding. -/
def bindingCss : Option String × String → String
  | (none, address) => "@namespace url(" ++ stringText address ++ ");"
  | (some name, address) =>
    "@namespace " ++ identifierText name ++ " url(" ++ stringText address ++ ");"

/-- The statements that make up the table. -/
def css (n : Namespaces) : String := String.join (n.bindings.map bindingCss)

end Namespaces

end Css
