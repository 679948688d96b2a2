import FlatCode.Width

/-! Types of flat code. A class behind a pointer is known by its name only, so every
type is finite. -/
namespace FlatCode.Code

inductive Ty where
  | void
  | int (width : IntWidth)
  | float (width : FloatWidth)
  | ptr (pointee : Ty)
  | struct (name : Option String) (fields : List Ty)
  | named (name : String)
  deriving Inhabited

namespace Ty

mutual
def beq : Ty → Ty → Bool
  | .void, .void => true
  | .int v, .int w => v = w
  | .float v, .float w => v = w
  | .ptr s, .ptr t => beq s t
  | .struct m ss, .struct n ts => m = n && beqAll ss ts
  | .named m, .named n => m = n
  | _, _ => false
def beqAll : List Ty → List Ty → Bool
  | [], [] => true
  | s :: ss, t :: ts => beq s t && beqAll ss ts
  | _, _ => false
end

mutual
theorem eq_of_beq : ∀ {s t : Ty}, beq s t = true → s = t
  | .void, .void, _ => rfl
  | .int _, .int _, h => by simpa [beq] using h
  | .float _, .float _, h => by simpa [beq] using h
  | .ptr _, .ptr _, h => congrArg Ty.ptr (eq_of_beq h)
  | .struct _ _, .struct _ _, h => by
    simp only [beq, Bool.and_eq_true, decide_eq_true_eq] at h
    rw [h.1, eq_of_beqAll h.2]
  | .named _, .named _, h => by simpa [beq] using h
theorem eq_of_beqAll : ∀ {ss ts : List Ty}, beqAll ss ts = true → ss = ts
  | [], [], _ => rfl
  | _ :: _, _ :: _, h => by
    simp only [beqAll, Bool.and_eq_true] at h
    rw [eq_of_beq h.1, eq_of_beqAll h.2]
end

mutual
theorem beq_self : ∀ t : Ty, beq t t = true
  | .void => rfl
  | .int _ => by simp [beq]
  | .float _ => by simp [beq]
  | .ptr t => by simp [beq, beq_self t]
  | .struct _ ts => by simp [beq, beqAll_self ts]
  | .named _ => by simp [beq]
theorem beqAll_self : ∀ ts : List Ty, beqAll ts ts = true
  | [] => rfl
  | t :: ts => by simp [beqAll, beq_self t, beqAll_self ts]
end

instance : DecidableEq Ty := fun s t =>
  if h : beq s t = true then isTrue (eq_of_beq h)
  else isFalse fun e => h (e ▸ beq_self s)

def bool : Ty := .int .w8

/-- An opaque pointer, also the address of code. -/
def bytePtr : Ty := .ptr (.int .w8)

/-- A pointer to a table of code addresses. -/
def dispatchTable : Ty := .ptr bytePtr

def status : Ty := .int .w32

def isVoid : Ty → Bool
  | .void => true
  | _ => false

def isAggregate : Ty → Bool
  | .struct _ _ | .named _ => true
  | _ => false

end Ty
end FlatCode.Code
