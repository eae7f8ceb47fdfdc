namespace EdgeAudit.Script

inductive NodeKind
  | importStatement
  | requireClause
  | call
  | construction
  | member
  | identifier
  | importWord
  | string
  | number
  | other
  deriving DecidableEq, Repr

inductive Role
  | plain
  | callee
  | arguments
  | constructor
  | object
  | property
  | source
  deriving DecidableEq, Repr

/-- A syntax tree; a node spans the characters from `start` up to `stop`. Comments are no nodes, so none
stands among the arguments of a call. -/
inductive Tree
  | node (kind : NodeKind) (role : Role) (start stop : Nat) (children : List Tree)

namespace Tree

instance : Inhabited Tree :=
  ⟨.node .other .plain 0 0 []⟩

mutual

def decEq : (t u : Tree) → Decidable (t = u)
  | node k r s e cs, node k' r' s' e' cs' =>
    have := decEqAll cs cs'
    decidable_of_iff (k = k' ∧ r = r' ∧ s = s' ∧ e = e' ∧ cs = cs')
      (Iff.of_eq (node.injEq k r s e cs k' r' s' e' cs').symm)

def decEqAll : (ts us : List Tree) → Decidable (ts = us)
  | [], [] => .isTrue rfl
  | [], _ :: _ => .isFalse (List.cons_ne_nil _ _).symm
  | _ :: _, [] => .isFalse (List.cons_ne_nil _ _)
  | t :: ts, u :: us =>
    have := decEq t u
    have := decEqAll ts us
    decidable_of_iff (t = u ∧ ts = us) (Iff.of_eq (List.cons.injEq t ts u us).symm)

end

instance : DecidableEq Tree :=
  decEq

def kind : Tree → NodeKind
  | node k _ _ _ _ => k

def role : Tree → Role
  | node _ r _ _ _ => r

def start : Tree → Nat
  | node _ _ s _ _ => s

def stop : Tree → Nat
  | node _ _ _ e _ => e

def children : Tree → List Tree
  | node _ _ _ _ cs => cs

def playing (r : Role) : Tree → Tree
  | node k _ s e cs => node k r s e cs

def child? (t : Tree) (r : Role) : Option Tree :=
  t.children.find? fun c => c.role = r

mutual

def size : Tree → Nat
  | node _ _ _ _ cs => sizeAll cs + 1

def sizeAll : List Tree → Nat
  | [] => 0
  | t :: ts => size t + sizeAll ts

end

mutual

def preorder : Tree → List Tree
  | node k r s e cs => node k r s e cs :: preorderAll cs

def preorderAll : List Tree → List Tree
  | [] => []
  | t :: ts => preorder t ++ preorderAll ts

end

theorem sizeAll_append (xs ys : List Tree) : sizeAll (xs ++ ys) = sizeAll xs + sizeAll ys := by
  induction xs with
  | nil => simp [sizeAll]
  | cons x xs ih => simp [sizeAll, ih]; omega

/--
Visits nodes from a stack: the top one is taken off and its children are put on, the first child
uppermost.
-/
def walkStack : List Tree → List Tree
  | [] => []
  | node k r s e cs :: rest => node k r s e cs :: walkStack (cs ++ rest)
termination_by stack => sizeAll stack
decreasing_by simp [sizeAll, size, sizeAll_append]

def walk (t : Tree) : List Tree :=
  walkStack [t]

end Tree

end EdgeAudit.Script
