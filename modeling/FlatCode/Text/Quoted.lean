import FlatCode.Text.ExtendingMark
import FlatCode.Text.Ignorable
import FlatCode.Text.Unprintable

/-! Quoted characters and strings. A character that has no visible form, or that
would attach to its neighbour, is written by its code point. -/
namespace FlatCode.Text

/-- Whether the code point is in the second of two runs, or again so behind them. -/
def inRuns : List Nat → Nat → Bool
  | others :: these :: runs, n =>
    others ≤ n && (n < others + these || inRuns runs (n - (others + these)))
  | _, _ => false

def hex (n : Nat) : String := String.ofList (Nat.toDigits 16 n)

/-- Whether a character shows by itself where it stands. -/
def showsItself (c : Char) : Bool :=
  !(inRuns extendingMark c.toNat || inRuns ignorable c.toNat || inRuns unprintable c.toNat)

/-- A character between quotation marks of the given kind. -/
def escape (quote c : Char) : String :=
  if c = '\x00' then "\\0"
  else if c = '\t' then "\\t"
  else if c = '\r' then "\\r"
  else if c = '\n' then "\\n"
  else if c = '\\' ∨ c = quote then String.ofList ['\\', c]
  else if showsItself c then c.toString
  else "\\u\x7b" ++ hex c.toNat ++ "\x7d"

def quotedChar (c : Char) : String := "'" ++ escape '\'' c ++ "'"

def quoted (s : String) : String :=
  "\"" ++ String.join (s.toList.map (escape '"')) ++ "\""

end FlatCode.Text
