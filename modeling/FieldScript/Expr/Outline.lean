/-
# Outlines of trees

An outline names each node and what it holds.  It is laid out on one line, or
indented with one item a line and a comma after each item.
-/

import FieldScript.Expr
import FieldScript.Single.Text
import FieldScript.Text.Quoted

namespace FieldScript

/-- A named node with its parts. -/
inductive Outline where
  | leaf (text : String)
  /-- A part with its label. -/
  | labelled (label : String) (part : Outline)
  /-- A node with parts in order. -/
  | tuple (name : String) (parts : List Outline)
  /-- A node with labelled parts. -/
  | record (name : String) (parts : List Outline)
  | list (items : List Outline)
deriving Inhabited

namespace Outline

mutual

/-- The outline on one line. -/
def inline : Outline → String
  | leaf text => text
  | labelled label part => label ++ ": " ++ inline part
  | tuple name parts => name ++ "(" ++ ", ".intercalate (inlineAll parts) ++ ")"
  | record name parts => name ++ " \x7b " ++ ", ".intercalate (inlineAll parts) ++ " \x7d"
  | list items => "[" ++ ", ".intercalate (inlineAll items) ++ "]"

def inlineAll : List Outline → List String
  | [] => []
  | o :: os => inline o :: inlineAll os

end

/-- The space in front of a line, four characters a level. -/
def indentation (level : Nat) : String := String.ofList (List.replicate (4 * level) ' ')

mutual

/-- The outline with one item a line; `level` is the level of its first line. -/
def indented (level : Nat) : Outline → String
  | leaf text => text
  | labelled label part => label ++ ": " ++ indented level part
  | tuple name parts => name ++ "(\n" ++ indentedAll level parts ++ indentation level ++ ")"
  | record name parts =>
    name ++ " \x7b\n" ++ indentedAll level parts ++ indentation level ++ "\x7d"
  | list [] => "[]"
  | list items => "[\n" ++ indentedAll level items ++ indentation level ++ "]"

/-- Items one level below, each on lines of its own. -/
def indentedAll (level : Nat) : List Outline → String
  | [] => ""
  | o :: os =>
    indentation (level + 1) ++ indented (level + 1) o ++ ",\n" ++ indentedAll level os

end

end Outline

namespace Expr

mutual

/-- The outline of a tree. -/
def outline : Expr → Outline
  | block statements => .tuple "Block" [.list (outlineAll statements)]
  | conditional condition body =>
    .record "Conditional"
      [.labelled "condition" (outline condition), .labelled "body" (outline body)]
  | literal x => .tuple "Literal" [.leaf x.tagged]
  | ident name => .tuple "Ident" [.leaf (Text.quoted name)]
  | assign name value =>
    .record "Assign" [.labelled "name" (.leaf (Text.quoted name)), .labelled "value" (outline value)]
  | arith op lhs rhs =>
    .record "Arithmetic"
      [.labelled "op" (.leaf op.name), .labelled "lhs" (outline lhs), .labelled "rhs" (outline rhs)]
  | call name args =>
    .record "Call"
      [.labelled "name" (.leaf (Text.quoted name)), .labelled "args" (.list (outlineAll args))]
  | cmp op lhs rhs =>
    .record "Comparison"
      [.labelled "op" (.leaf op.name), .labelled "lhs" (outline lhs), .labelled "rhs" (outline rhs)]
  | or lhs rhs => .tuple "Or" [outline lhs, outline rhs]
  | and lhs rhs => .tuple "And" [outline lhs, outline rhs]

/-- The outlines of a row of trees. -/
def outlineAll : List Expr → List Outline
  | [] => []
  | e :: es => outline e :: outlineAll es

end

end Expr
end FieldScript
