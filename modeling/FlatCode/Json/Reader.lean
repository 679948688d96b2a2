import FlatCode.Json.Value

/-! Strict JSON text. Characters are gathered into tokens, and tokens into a value by a
machine with a stack of open arrays and objects. Both passes are folds, so nesting is
limited by nothing but the text. -/
namespace FlatCode.Json

inductive Token where
  | leftBrace | rightBrace | leftBracket | rightBracket | comma | colon
  | null
  | bool (value : Bool)
  | number (numeral : Numeral)
  | string (spelling : String)
  deriving DecidableEq

namespace Token

/-- Characters gathered so far for the token at hand, the last one first. -/
inductive Unfinished where
  | none
  | bare (reversed : List Char)
  | string (reversed : List Char) (escaped : Bool)

structure Scanner where
  current : Unfinished
  /-- Finished tokens, the last one first. -/
  reversed : List Token

def isBlank (c : Char) : Bool := c = ' ' || c = '\t' || c = '\n' || c = '\r'

/-- The characters of numerals and of the three words. -/
def isBare (c : Char) : Bool := c.isAlphanum || c = '-' || c = '+' || c = '.'

def punctuation? : Char → Option Token
  | '{' => some leftBrace
  | '}' => some rightBrace
  | '[' => some leftBracket
  | ']' => some rightBracket
  | ',' => some comma
  | ':' => some colon
  | _ => Option.none

def ofBare? (cs : List Char) : Option Token :=
  if cs = "null".toList then some null
  else if cs = "true".toList then some (bool true)
  else if cs = "false".toList then some (bool false)
  else (Numeral.ofChars? cs).map number

def ofSpelling? (cs : List Char) : Option Token :=
  if hasStringShape cs then some (string (String.ofList cs)) else Option.none

/-- Takes up a character that stands outside all tokens. -/
def begin? (reversed : List Token) (c : Char) : Option Scanner :=
  if isBlank c then some ⟨.none, reversed⟩
  else if c = '"' then some ⟨.string [] false, reversed⟩
  else if isBare c then some ⟨.bare [c], reversed⟩
  else (punctuation? c).map fun t => ⟨.none, t :: reversed⟩

def scan? (s : Scanner) (c : Char) : Option Scanner :=
  match s.current with
  | .none => begin? s.reversed c
  | .bare cs =>
    if isBare c then some ⟨.bare (c :: cs), s.reversed⟩
    else (ofBare? cs.reverse).bind fun t => begin? (t :: s.reversed) c
  | .string cs true => some ⟨.string (c :: cs) false, s.reversed⟩
  | .string cs false =>
    if c = '"' then (ofSpelling? cs.reverse).map fun t => ⟨.none, t :: s.reversed⟩
    else some ⟨.string (c :: cs) (c = '\\'), s.reversed⟩

def finish? (s : Scanner) : Option (List Token) :=
  match s.current with
  | .none => some s.reversed.reverse
  | .bare cs => (ofBare? cs.reverse).map fun t => (t :: s.reversed).reverse
  | .string _ _ => Option.none

def ofText? (s : String) : Option (List Token) :=
  (s.toList.foldlM scan? ⟨.none, []⟩).bind finish?

end Token

/-- An array or object that is still open, its last entry first. -/
inductive Frame where
  | array (reversed : List Json)
  | object (reversed : List (String × Json)) (key : String)

inductive Expecting where
  | value
  | valueOrEnd
  | key
  | keyOrEnd
  | colon
  | separator
  | nothing (value : Json)

structure Reader where
  stack : List Frame
  expecting : Expecting

namespace Reader

def complete (v : Json) : List Frame → Reader
  | [] => ⟨[], .nothing v⟩
  | .array vs :: stack => ⟨.array (v :: vs) :: stack, .separator⟩
  | .object ms key :: stack => ⟨.object ((key, v) :: ms) key :: stack, .separator⟩

def beginValue? (stack : List Frame) : Token → Option Reader
  | .leftBrace => some ⟨.object [] "" :: stack, .keyOrEnd⟩
  | .leftBracket => some ⟨.array [] :: stack, .valueOrEnd⟩
  | .null => some (complete .null stack)
  | .bool b => some (complete (.bool b) stack)
  | .number n => some (complete (.number n) stack)
  | .string s => some (complete (.string s) stack)
  | _ => none

def endArray? : List Frame → Option Reader
  | .array vs :: stack => some (complete (.array vs.reverse) stack)
  | _ => none

def endObject? : List Frame → Option Reader
  | .object ms _ :: stack => some (complete (.object ms.reverse) stack)
  | _ => none

def beginKey? (s : String) : List Frame → Option Reader
  | .object ms _ :: stack => some ⟨.object ms s :: stack, .colon⟩
  | _ => none

def afterComma? : List Frame → Option Reader
  | .array vs :: stack => some ⟨.array vs :: stack, .value⟩
  | .object ms key :: stack => some ⟨.object ms key :: stack, .key⟩
  | [] => none

def step? (r : Reader) (t : Token) : Option Reader :=
  match r.expecting, t with
  | .value, t => beginValue? r.stack t
  | .valueOrEnd, .rightBracket => endArray? r.stack
  | .valueOrEnd, t => beginValue? r.stack t
  | .keyOrEnd, .rightBrace => endObject? r.stack
  | .keyOrEnd, .string s => beginKey? s r.stack
  | .key, .string s => beginKey? s r.stack
  | .colon, .colon => some ⟨r.stack, .value⟩
  | .separator, .comma => afterComma? r.stack
  | .separator, .rightBracket => endArray? r.stack
  | .separator, .rightBrace => endObject? r.stack
  | _, _ => none

def finish? (r : Reader) : Option Json :=
  match r.expecting with
  | .nothing v => some v
  | _ => none

end Reader

def ofTokens? (ts : List Token) : Option Json :=
  (ts.foldlM Reader.step? ⟨[], .value⟩).bind Reader.finish?

def parse? (s : String) : Option Json := (Token.ofText? s).bind ofTokens?

end FlatCode.Json
