import FlatCode.Lower.Function

/-! Small facts about the steps of lowering: the branches of a connective, and calls without a
result slot and a status. -/
namespace FlatCode.Lower
open Code Symbols Ast

theorem callFunction_plain {symbol : FunctionSymbol} (raises : symbol.canRaise = false)
    (slot : symbol.returnsByHiddenSlot = false) (object : Option Operand) (arguments : List Plan)
    (isVirtual : Bool) :
    callFunction symbol object arguments isVirtual = (do
      let operands ← arguments.mapM Plan.operand
      let target ← callee symbol isVirtual (receiver symbol object arguments operands)
      let dest ← resultRegister symbol
      emit (.call target (object.toList ++ operands) dest)
      pure (dest.map Operand.reg)) := by
  simp [callFunction, resultSlot, statusArgument, callDest, testCall, callResult, raises, slot]

namespace Branches
variable {x : Bool} {left right : Branches}

@[simp] theorem side_true (b : Branches) : b.side true = b.onTrue := rfl

@[simp] theorem side_false (b : Branches) : b.side false = b.onFalse := rfl

@[simp] theorem alone_constant : (left.alone x).constant = some !x := by cases x <;> rfl

@[simp] theorem side_alone : (left.alone x).side (!x) = left.side (!x) := by cases x <;> rfl

@[simp] theorem joined_constant : (left.joined x right).constant =
    if left.constant = some x then right.constant else none := by
  cases x <;> rfl

theorem left_subset_joined : left.side (!x) ⊆ (left.joined x right).side (!x) := by
  cases x <;> exact List.subset_append_left _ _

theorem right_subset_joined (y : Bool) : right.side y ⊆ (left.joined x right).side y := by
  cases x <;> cases y <;> simp [joined, side]

end Branches

end FlatCode.Lower
