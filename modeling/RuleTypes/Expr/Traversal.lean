import RuleTypes.Expr.Basic

/-!
# Walking through expressions

`Expr.walk` lists the nodes of an expression with an explicit stack of pending ones, so it goes to
any depth. `Expr.preorder` says what it lists: a node, then the nodes of its parts from left to
right.

* `Expr.walk_eq_preorder`: the two agree.
* `Expr.references`: the rule names an expression refers to, in order of appearance.
-/

namespace RuleTypes.Expr

mutual

/-- The nodes of an expression: itself, then those of its parts. -/
def preorder : Expr → List Expr
  | unknown => [unknown]
  | literals vs i => [literals vs i]
  | charClass p => [charClass p]
  | anyChar => [anyChar]
  | reference r => [reference r]
  | choice es => choice es :: preorders es
  | sequence es => sequence es :: preorders es
  | repetition e a => repetition e a :: preorder e
  | optional e => optional e :: preorder e
  | capture e l p => capture e l p :: preorder e
  | text e => text e :: preorder e
  | lookahead e n c => lookahead e n c :: preorder e
  | semantic n c => [semantic n c]
  | action e c => action e c :: preorder e

/-- The nodes of several expressions, one after the other. -/
def preorders : List Expr → List Expr
  | [] => []
  | e :: es => preorder e ++ preorders es

end

theorem preorder_eq (e : Expr) : e.preorder = e :: preorders e.children := by
  cases e <;> simp [preorder, preorders, children]

theorem preorders_append (es fs : List Expr) :
    preorders (es ++ fs) = preorders es ++ preorders fs := by
  induction es with
  | nil => rfl
  | cons e es ih => simp [preorders, ih]

/-- The nodes of the expressions on a stack: the top goes out and its parts come in. -/
def walkFrom : List Expr → List Expr
  | [] => []
  | e :: stack => e :: walkFrom (e.children ++ stack)
termination_by stack => sizes stack
decreasing_by
  simp only [sizes, sizes_append, size_eq e]
  omega

/-- The nodes of an expression, each before its parts. -/
def walk (e : Expr) : List Expr := walkFrom [e]

theorem walkFrom_eq_preorders (stack : List Expr) : walkFrom stack = preorders stack := by
  fun_induction walkFrom stack with
  | case1 => rfl
  | case2 e stack ih => simp [ih, preorders, preorder_eq e, preorders_append]

theorem walk_eq_preorder (e : Expr) : e.walk = e.preorder := by
  simp [walk, walkFrom_eq_preorders, preorders]

/-- The rule that an expression refers to, if it is a reference. -/
def reference? : Expr → Option Text
  | reference r => some r
  | _ => none

/-- The names of the rules that an expression refers to, in order of appearance. -/
def references (e : Expr) : List Text := e.walk.filterMap reference?

/-- The rule that an expression is a bare reference to; a choice of one alternative counts as that
alternative. -/
def pureReference? : Expr → Option Text
  | reference r => some r
  | choice [e] => pureReference? e
  | _ => none

end RuleTypes.Expr
