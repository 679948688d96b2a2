import FlatCode.Code.Type
import FlatCode.Symbols.Kind

/-! Why a tree can not be lowered, and the text of each cause. -/
namespace FlatCode
open Symbols (TypeKind symbolText optionText)

inductive Error where
  | emptyCleanupStack
  | unallocatedStorage (var : VariableId)
  | emptyTargetList
  | branchAlreadyResolved (branch : InstrId)
  | notABranch (instr : InstrId)
  | unresolvedBranch (branch : InstrId)
  | unplacedLabel (label : Label)
  | duplicateCaseKey (key : String)
  | duplicateDefault
  | unknownCaseKey (key : String)
  | missingDefault
  | gotoCaseOutsideSwitch
  | breakOutsideLoop
  | continueOutsideLoop
  | unknownLabel (name : String)
  | duplicateLabel (name : String)
  | unknownFunction (function : FunctionId)
  | unknownType (ty : TypeId)
  | unknownVariable (var : VariableId)
  | notAClass (ty : TypeId)
  | notAddressable (kind : String)
  | missingValue (kind : String)
  | missingDispatchTable (function : String)
  | notVirtual (function : String)
  | invalidOperator (operator : Operator) (operands : Nat) (ty : TypeId)
  | noConversion (source target : TypeKind)
  | noExceptionCode (source : Code.Ty)
  | aggregateReturn (ty : TypeId)
  | unbalancedScopes (scopes : Nat)
  /-- A type whose representation would have to contain itself. -/
  | endlessType (ty : TypeId)
  | inFunction (function : String) (cause : Error)
  deriving DecidableEq

mutual
def Code.Ty.describe : Code.Ty → String
  | .void => "Void"
  | .int w => s!"Integer(I{w.bits})"
  | .float w => s!"Float(F{w.bits})"
  | .ptr t => "Pointer(" ++ t.describe ++ ")"
  | .struct name fields =>
    "Struct(Struct \x7b name: " ++ optionText symbolText name ++ ", fields: [" ++
      Code.Ty.describeAll fields ++ "] \x7d)"
  | .named name => "Named(" ++ symbolText name ++ ")"
def Code.Ty.describeAll : List Code.Ty → String
  | [] => ""
  | [t] => t.describe
  | t :: ts => t.describe ++ ", " ++ Code.Ty.describeAll ts
end

def Error.message : Error → String
  | emptyCleanupStack => "popped a cleanup stack while none were active"
  | unallocatedStorage v => "no storage was allocated for variable " ++ v.text
  | emptyTargetList => "resolved a branch target list which was already empty"
  | branchAlreadyResolved i => "branch at " ++ i.text ++ " was resolved twice"
  | notABranch i => "instruction " ++ i.text ++ " is not a branch and can not be backpatched"
  | unresolvedBranch i => "branch at " ++ i.text ++ " still has no target after lowering"
  | unplacedLabel l => "label " ++ l.text ++ " was referenced but never placed"
  | duplicateCaseKey key => "duplicate case key `" ++ key ++ "` in switch statement"
  | duplicateDefault => "switch statement has more than one default clause"
  | unknownCaseKey key => "no case with key `" ++ key ++ "` in the enclosing switch statement"
  | missingDefault => "`goto default` in a switch statement without a default clause"
  | gotoCaseOutsideSwitch => "`goto case` or `goto default` outside of a switch statement"
  | breakOutsideLoop => "`break` outside of a loop or switch statement"
  | continueOutsideLoop => "`continue` outside of a loop"
  | unknownLabel name => "goto target `" ++ name ++ "` does not exist"
  | duplicateLabel name => "label `" ++ name ++ "` is defined more than once"
  | unknownFunction f => "unknown function symbol " ++ f.text
  | unknownType t => "unknown type " ++ t.text
  | unknownVariable v => "unknown variable symbol " ++ v.text
  | notAClass t => "type " ++ t.text ++ " is not a class type"
  | notAddressable kind =>
    "expression of kind `" ++ kind ++ "` does not denote a storage location"
  | missingValue kind => "expression of kind `" ++ kind ++ "` did not produce a value"
  | missingDispatchTable f =>
    "virtual call to `" ++ f ++ "` but no class in its hierarchy owns a dispatch table"
  | notVirtual f => "virtual call to `" ++ f ++ "` which has no dispatch slot or owning class"
  | invalidOperator op operands t =>
    "intrinsic `" ++ op.name ++ "` can not be applied to " ++ toString operands ++
      " operand(s) of type " ++ t.text
  | noConversion source target => "no conversion from " ++ source.text ++ " to " ++ target.text
  | noExceptionCode source => "no conversion from " ++ source.describe ++ " to exception code"
  | aggregateReturn t => "a value of type " ++ t.text ++ " can not be returned in a register"
  | unbalancedScopes n => toString n ++ " scope(s) were still open at the end of the function"
  | endlessType t => "type " ++ t.text ++ " contains itself"
  | inFunction name cause => "in function `" ++ name ++ "`: " ++ cause.message

end FlatCode
