import SmallLisp.Value

/-!
# Expressions

What a form means once its names are resolved and its macro calls are expanded. Globals appear as
the vars that they were resolved to, so that an expression means the same wherever it is evaluated
later.
-/

namespace SmallLisp

/-- A resolved form. -/
inductive Expr where
  /-- A value that stands for itself. -/
  | const (value : Value)
  /-- The root value of a var. -/
  | root (v : Var)
  /-- The value of a local name. -/
  | localName (name : Symbol)
  /-- A definition of a var, by a value and by metadata if they are given. -/
  | define (v : Var) (value : Option Expr) (metadata : Option Value)
  /-- A choice between two expressions by the truth of a third. -/
  | branch (test yes : Expr) (no : Option Expr)
  /-- Expressions one after the other, for the value of the last. -/
  | sequence (exprs : List Expr)
  /-- A body in the scope of names bound one after the other. -/
  | bind (bindings : List (Symbol × Expr)) (body : Expr)
  /-- A function. -/
  | function (signature : Signature) (body : Expr)
  /-- A call. -/
  | call (callee : Expr) (args : List Expr)
  /-- A vector of the values of the items. -/
  | vector (items : List Expr)
  /-- A map of the values of the entries. -/
  | map (entries : List (Expr × Expr))
  /-- A var itself. -/
  | theVar (v : Var)
deriving Inhabited

/-- Local names and their values; of two bindings of a name the first counts. -/
abbrev Locals := List (Symbol × Value)

end SmallLisp
