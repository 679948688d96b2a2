import FlatCode.Code.Instr
import FlatCode.Number.Decimal
import FlatCode.Text.Paint

/-! Listings of flat code, plain or in colors. -/
namespace FlatCode.Code
open Text (Paint)

def UnaryOp.name : UnaryOp → String
  | negate => "negate"
  | complement => "complement"
  | not => "not"

def BinaryOp.name : BinaryOp → String
  | add => "add"
  | sub => "sub"
  | mul => "mul"
  | div => "div"
  | rem => "rem"
  | and => "and"
  | or => "or"
  | xor => "xor"
  | shl => "shl"
  | shr => "shr"

def Predicate.name : Predicate → String
  | eq => "eq"
  | ne => "ne"
  | lt => "lt"
  | le => "le"
  | gt => "gt"
  | ge => "ge"

def Numeric.name : Numeric → String
  | signed => "s"
  | unsigned => "u"
  | float => "f"

def Cast.name : Cast → String
  | truncate => "truncate"
  | signExtend => "sign_extend"
  | zeroExtend => "zero_extend"
  | floatTruncate => "float_truncate"
  | floatExtend => "float_extend"
  | signedToFloat => "signed_to_float"
  | unsignedToFloat => "unsigned_to_float"
  | floatToSigned => "float_to_signed"
  | floatToUnsigned => "float_to_unsigned"
  | pointerToInteger => "pointer_to_integer"
  | integerToPointer => "integer_to_pointer"
  | bitcast => "bitcast"

mutual
def Ty.text : Ty → String
  | .void => "void"
  | .int w => w.signedName
  | .float w => w.name
  | .ptr t => "*" ++ t.text
  | .struct (some name) _ => "%" ++ name
  | .struct none fields => "\x7b " ++ Ty.listText fields ++ " \x7d"
  | .named name => "%" ++ name
def Ty.listText : List Ty → String
  | [] => ""
  | [t] => t.text
  | t :: ts => t.text ++ ", " ++ Ty.listText ts
end

def labelText (l : Label) : String := s!".label_{l.index}"

def Imm.text : Imm → String
  | .int value _ => toString value
  | .float value _ => value.text
  | .bool value => toString value
  | .null => "null"
  | .fn name => "@" ++ name

def registerText (p : Paint) (r : Register) : String := p.apply .yellow s!"%{r.index}"

def Operand.text (p : Paint) : Operand → String
  | .imm value => p.apply .magenta value.text
  | .reg r => registerText p r

def targetText (p : Paint) : Option Label → String
  | some l => p.apply .blue (labelText l)
  | none => p.apply .red "<unresolved>"

def Callee.text (p : Paint) : Callee → String
  | .direct name => p.apply .blue name
  | .indirect r => registerText p r

def opcode (p : Paint) (name : String) : String := p.apply .cyan name

/-- `dest = opcode operands` -/
def assigned (p : Paint) (dest : Register) (name : String) (operands : List String) :
    String :=
  registerText p dest ++ " " ++ p.apply .white "=" ++ " " ++ opcode p name ++ " " ++
    ", ".intercalate operands

def arrow (p : Paint) (dest source : Operand) : String :=
  dest.text p ++ " " ++ p.apply .white "<-" ++ " " ++ source.text p

def caseText (p : Paint) (c : Imm × Label) : String :=
  p.apply .magenta c.1.text ++ " -> " ++ p.apply .blue (labelText c.2)

def Instr.text (p : Paint) : Instr → String
  | .label l => labelText l ++ ":"
  | .alloc dest ty name =>
    assigned p dest "alloc" [ty.text] ++
      match name with
      | some name => " " ++ p.apply .brightBlack ("; " ++ name)
      | none => ""
  | .load dest source => assigned p dest "load" [source.text p]
  | .store dest source => opcode p "store" ++ " " ++ arrow p dest source
  | .copy dest source size =>
    opcode p "copy" ++ " " ++ arrow p dest source ++ ", " ++ p.apply .magenta (toString size)
  | .move dest source =>
    registerText p dest ++ " " ++ p.apply .white "=" ++ " " ++ source.text p
  | .unary op dest operand => assigned p dest op.name [operand.text p]
  | .binary op kind dest lhs rhs =>
    assigned p dest (op.name ++ "." ++ kind.name) [lhs.text p, rhs.text p]
  | .compare predicate kind dest lhs rhs =>
    assigned p dest ("cmp." ++ predicate.name ++ "." ++ kind.name) [lhs.text p, rhs.text p]
  | .cast kind dest operand => assigned p dest kind.name [operand.text p]
  | .fieldPtr dest source index =>
    assigned p dest "get_field_ptr" [source.text p, p.apply .magenta (toString index)]
  | .elementPtr dest source index =>
    assigned p dest "get_element_ptr" [source.text p, index.text p]
  | .call callee arguments dest =>
    (match dest with
      | some dest => registerText p dest ++ " " ++ p.apply .white "=" ++ " "
      | none => "") ++
    opcode p "call" ++ " " ++ callee.text p ++ "(" ++
      ", ".intercalate (arguments.map (Operand.text p)) ++ ")"
  | .branch condition positive negative =>
    opcode p "br" ++ " " ++ condition.text p ++ " " ++ targetText p positive ++ " " ++
      targetText p negative
  | .jump target => opcode p "jmp" ++ " " ++ targetText p target
  | .switch value cases default =>
    opcode p "switch" ++ " " ++ value.text p ++ " [" ++
      ", ".intercalate (cases.map (caseText p)) ++ "] " ++ opcode p "default" ++ " " ++
      p.apply .blue (labelText default)
  | .ret none => opcode p "ret"
  | .ret (some value) => opcode p "ret" ++ " " ++ value.text p
  | .comment text => p.apply .brightBlack ("; " ++ text)

/-- Labels stand at the margin, everything else is indented. -/
def Instr.line (p : Paint) : Instr → String
  | .label l => p.apply .brightRed (labelText l ++ ":")
  | i => "    " ++ i.text p

def Function.argumentText (p : Paint) (f : Function) (r : Register) : String :=
  registerText p r ++ ": " ++ (f.registers.getD r.index .void).text

def Function.heading (p : Paint) (f : Function) : String :=
  p.apply .magenta "fn" ++ " " ++ p.apply .blue f.name ++ p.apply .white "(" ++
    p.apply .white (", ".intercalate (f.arguments.map (f.argumentText p))) ++
    p.apply .white ") \x7b"

def Function.listing (p : Paint) (f : Function) : String :=
  String.join (([f.heading p] ++ f.instrs.toList.map (Instr.line p) ++ [p.apply .white "\x7d"]).map
    (· ++ "\n"))

end FlatCode.Code
