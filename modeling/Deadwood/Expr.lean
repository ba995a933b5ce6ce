import Deadwood.Text.Quoted
import Deadwood.Var

namespace Deadwood

/-!
Operands of register transfer statements. Only the variables an operand reads matter to the
analysis; the rest is kept so that operands can be compared and shown.
-/

/-- A foreign object stands for something outside the language. It can be compared and shown, and
no analysis accepts it. -/
def foreignText (name : String) : String := "<bogus " ++ name ++ ">"

/-- An object outside the language, and the question it could not answer. -/
inductive Unsupported where
  | definitions (name : String)
  | reads (name : String)
  | operand (name : String)
deriving DecidableEq, Repr

def Unsupported.message : Unsupported → String
  | definitions name => "gens(" ++ foreignText name ++ ")"
  | reads name => "free_vars(" ++ foreignText name ++ ")"
  | operand name => "free_vars_expr(" ++ foreignText name ++ ")"

inductive Expr where
  | var (name : String)
  | const (value width : Int)
  | mem (address : Expr) (width : Int)
  | unary (op : String) (operand : Expr)
  | binary (op : String) (left right : Expr)
  | foreign (name : String)
deriving DecidableEq, Repr

namespace Expr

def text : Expr → String
  | var name => name
  | const value width => toString value ++ "<" ++ toString width ++ ">"
  | mem address width => "mem" ++ toString width ++ "[" ++ address.text ++ "]"
  | unary op operand => op ++ operand.text
  | binary op left right => "(" ++ left.text ++ " " ++ op ++ " " ++ right.text ++ ")"
  | foreign name => foreignText name

def describe : Expr → String
  | var name => name
  | const value width => "Const(value=" ++ toString value ++ ", bitwidth=" ++ toString width ++ ")"
  | mem address width =>
      "Memory(address=" ++ address.describe ++ ", bitwidth=" ++ toString width ++ ")"
  | unary op operand => "Unary(op=" ++ Text.quoted op ++ ", operand=" ++ operand.describe ++ ")"
  | binary op left right =>
      "Binary(op=" ++ Text.quoted op ++ ", left=" ++ left.describe ++ ", right=" ++
        right.describe ++ ")"
  | foreign name => foreignText name

/-- The variables an expression reads, from left to right. -/
def reads : Expr → Except Unsupported (List String)
  | var name => .ok [name]
  | const _ _ => .ok []
  | mem address _ => address.reads
  | unary _ operand => operand.reads
  | binary _ left right => do return (← left.reads) ++ (← right.reads)
  | foreign name => .error (.operand name)

def IsNative : Expr → Prop
  | var _ | const _ _ => True
  | mem address _ => address.IsNative
  | unary _ operand => operand.IsNative
  | binary _ left right => left.IsNative ∧ right.IsNative
  | foreign _ => False

def decideNative : (e : Expr) → Decidable e.IsNative
  | var _ | const _ _ => isTrue trivial
  | mem address _ => decideNative address
  | unary _ operand => decideNative operand
  | binary _ left right => @instDecidableAnd _ _ (decideNative left) (decideNative right)
  | foreign _ => isFalse id

instance : DecidablePred IsNative := decideNative

theorem reads_isOk_iff {e : Expr} : (∃ names, e.reads = .ok names) ↔ e.IsNative := by
  induction e with
  | var | const => simp [reads, IsNative]
  | mem _ _ ih | unary _ _ ih => simpa [reads, IsNative] using ih
  | binary _ left right ihLeft ihRight =>
      rw [IsNative, ← ihLeft, ← ihRight]
      cases foundLeft : left.reads <;> cases foundRight : right.reads <;>
        simp [reads, foundLeft, foundRight, bind, Except.bind, pure, Except.pure]
  | foreign => simp [reads, IsNative]

end Expr

end Deadwood
