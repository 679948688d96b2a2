import FlatCode.Json.Value

/-! JSON text without blanks. -/
namespace FlatCode.Json

def quoteSpelling (s : String) : String := "\"" ++ s ++ "\""

mutual
def render : Json → String
  | .null => "null"
  | .bool true => "true"
  | .bool false => "false"
  | .number n => String.ofList n.chars
  | .string s => quoteSpelling s
  | .array vs => "[" ++ renderElements vs ++ "]"
  | .object ms => "\x7b" ++ renderMembers ms ++ "\x7d"
def renderElements : List Json → String
  | [] => ""
  | [v] => render v
  | v :: vs => render v ++ "," ++ renderElements vs
def renderMembers : List (String × Json) → String
  | [] => ""
  | [(k, v)] => quoteSpelling k ++ ":" ++ render v
  | (k, v) :: ms => quoteSpelling k ++ ":" ++ render v ++ "," ++ renderMembers ms
end

end FlatCode.Json
