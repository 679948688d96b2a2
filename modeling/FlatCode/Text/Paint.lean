/-! Terminal colors. A painted piece ends with a reset, and the color is taken up
again after every reset inside the piece, so pieces nest. -/
namespace FlatCode.Text

inductive Color where
  | red | yellow | blue | magenta | cyan | white | brightBlack | brightRed
  deriving DecidableEq

namespace Color

def code : Color → Nat
  | red => 31
  | yellow => 33
  | blue => 34
  | magenta => 35
  | cyan => 36
  | white => 37
  | brightBlack => 90
  | brightRed => 91

def start (c : Color) : List Char := '\x1b' :: '[' :: (Nat.toDigits 10 c.code ++ ['m'])

end Color

def reset : List Char := ['\x1b', '[', '0', 'm']

/-- `start` again after every reset. -/
def resume (start : List Char) : List Char → List Char
  | '\x1b' :: '[' :: '0' :: 'm' :: cs => reset ++ start ++ resume start cs
  | c :: cs => c :: resume start cs
  | [] => []

inductive Paint where
  | plain
  | colored
  deriving DecidableEq

def Paint.apply (p : Paint) (c : Color) (s : String) : String :=
  match p with
  | .plain => s
  | .colored => String.ofList (c.start ++ resume c.start s.toList ++ reset)

end FlatCode.Text
