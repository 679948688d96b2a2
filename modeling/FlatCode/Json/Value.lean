import FlatCode.Json.Numeral

/-! JSON values that keep their spelling: strings hold their text as written between
the quotes, numbers their numeral, objects their members in order and with repetitions.
What a string means is asked for where it is used, so that a value nobody looks at only
has to have the right shape. -/
namespace FlatCode

inductive Json where
  | null
  | bool (value : Bool)
  | number (numeral : Json.Numeral)
  | string (spelling : String)
  | array (elements : List Json)
  | object (members : List (String × Json))
  deriving Inhabited

namespace Json

def hexValue? (c : Char) : Option Nat :=
  if '0' ≤ c ∧ c ≤ '9' then some (c.toNat - 48)
  else if 'a' ≤ c ∧ c ≤ 'f' then some (c.toNat - 87)
  else if 'A' ≤ c ∧ c ≤ 'F' then some (c.toNat - 55)
  else none

/-- The code unit written by four hexadecimal digits. -/
def codeUnit? (a b c d : Char) : Option Nat := do
  let a ← hexValue? a
  let b ← hexValue? b
  let c ← hexValue? c
  let d ← hexValue? d
  some (((a * 16 + b) * 16 + c) * 16 + d)

def shortEscape? : Char → Option Char
  | '"' => some '"'
  | '\\' => some '\\'
  | '/' => some '/'
  | 'b' => some '\x08'
  | 'f' => some '\x0c'
  | 'n' => some '\n'
  | 'r' => some '\r'
  | 't' => some '\t'
  | _ => none

def isHighSurrogate (unit : Nat) : Bool := 0xd800 ≤ unit && unit ≤ 0xdbff

def isLowSurrogate (unit : Nat) : Bool := 0xdc00 ≤ unit && unit ≤ 0xdfff

/-- The shape of a string between its quotes: every escape is a known one, and `\u` has
four digits. -/
def hasStringShape : List Char → Bool
  | [] => true
  | '\\' :: 'u' :: a :: b :: c :: d :: cs => (codeUnit? a b c d).isSome && hasStringShape cs
  | '\\' :: c :: cs => (shortEscape? c).isSome && hasStringShape cs
  | c :: cs => c ≠ '\\' && 0x20 ≤ c.toNat && hasStringShape cs

/-- The characters a string spells, behind those of `reversed`. Surrogates stand for a
character only in pairs. -/
def unescape (reversed : List Char) : List Char → Option (List Char)
  | [] => some reversed.reverse
  | '\\' :: 'u' :: a :: b :: c :: d :: cs =>
    match codeUnit? a b c d with
    | none => none
    | some first =>
      if isHighSurrogate first then
        match cs with
        | '\\' :: 'u' :: e :: f :: g :: h :: cs =>
          match codeUnit? e f g h with
          | none => none
          | some second =>
            if isLowSurrogate second then
              unescape (Char.ofNat (0x10000 + (first - 0xd800) * 0x400 + (second - 0xdc00))
                :: reversed) cs
            else none
        | _ => none
      else if isLowSurrogate first then none
      else unescape (Char.ofNat first :: reversed) cs
  | '\\' :: c :: cs =>
    match shortEscape? c with
    | none => none
    | some c => unescape (c :: reversed) cs
  | c :: cs => unescape (c :: reversed) cs

def decodeText? (spelling : String) : Option String :=
  (unescape [] spelling.toList).map String.ofList

def escape (c : Char) : List Char :=
  if c = '"' then ['\\', '"']
  else if c = '\\' then ['\\', '\\']
  else if c.toNat < 0x20 then
    '\\' :: 'u' :: '0' :: '0' :: Nat.digitChar (c.toNat / 16) :: [Nat.digitChar (c.toNat % 16)]
  else [c]

def ofText (s : String) : Json := .string (String.ofList (s.toList.flatMap escape))

def text? : Json → Option String
  | .string s => decodeText? s
  | _ => none

def ofNat (n : Nat) : Json := .number (.ofNat n)

def ofInt (n : Int) : Json := .number (.ofInt n)

/-- An object whose names need no escapes. -/
def record (members : List (String × Json)) : Json := .object members

def optional (write : α → Json) : Option α → Json
  | none => .null
  | some a => write a

end Json
end FlatCode
