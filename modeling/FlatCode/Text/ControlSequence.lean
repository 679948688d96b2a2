/-! The control sequences of a terminal, read character by character. What of a text is shown
between them is for its readers to decide. -/
namespace FlatCode.Text.ControlSequence

/-- Where the reader stands in a control sequence. -/
inductive Mode where
  | ground
  | escape
  | escapeIntermediate
  | csiEntry
  | csiParam
  | csiIntermediate
  | csiIgnore
  | dcsEntry
  | dcsParam
  | dcsIntermediate
  | dcsData
  /-- A string that only a control character ends. -/
  | skipped
  | osc
  deriving DecidableEq

/-- The modes of a sequence that carries a string. -/
def Mode.inString : Mode → Bool
  | dcsEntry | dcsParam | dcsIntermediate | dcsData | skipped | osc => true
  | ground | escape | escapeIntermediate | csiEntry | csiParam | csiIntermediate | csiIgnore =>
    false

def between (low high : Nat) (c : Char) : Bool := low ≤ c.toNat && c.toNat ≤ high

/-- The control characters that act inside a sequence without ending it. -/
def isInlineControl (c : Char) : Bool :=
  between 0x00 0x17 c || c.toNat = 0x19 || between 0x1c 0x1f c

def isCancel (c : Char) : Bool := c.toNat = 0x18 || c.toNat = 0x1a

/-- What ends every sequence: a cancelling control, or the start of the next one. -/
def interrupt (mode : Mode) (c : Char) : Mode :=
  if isCancel c then .ground else if c = '\x1b' then .escape else mode

def afterEscape (c : Char) : Mode :=
  if isInlineControl c then .escape
  else if between 0x20 0x2f c then .escapeIntermediate
  else if c = 'P' then .dcsEntry
  else if c = 'X' || c = '^' || c = '_' then .skipped
  else if c = '[' then .csiEntry
  else if c = ']' then .osc
  else if between 0x30 0x7e c then .ground
  else interrupt .escape c

/-- The byte that ends a string. It also occurs inside of encoded characters. -/
def terminator : UInt8 := 0x9c

def holdsTerminator (c : Char) : Bool := (String.utf8EncodeChar c).contains terminator

/-- What follows the first terminator in an encoded character. -/
def afterTerminator (c : Char) : List UInt8 :=
  ((String.utf8EncodeChar c).dropWhile fun b => b ≠ terminator).drop 1

def next : Mode → Char → Mode
  | .ground, c => if c = '\x1b' then .escape else .ground
  | .escape, c => afterEscape c
  | .escapeIntermediate, c =>
    if between 0x30 0x7e c then .ground else interrupt .escapeIntermediate c
  | .csiEntry, c =>
    if between 0x20 0x2f c then .csiIntermediate
    else if between 0x30 0x3f c then .csiParam
    else if between 0x40 0x7e c then .ground
    else interrupt .csiEntry c
  | .csiParam, c =>
    if between 0x20 0x2f c then .csiIntermediate
    else if between 0x30 0x3b c then .csiParam
    else if between 0x3c 0x3f c then .csiIgnore
    else if between 0x40 0x7e c then .ground
    else interrupt .csiParam c
  | .csiIntermediate, c =>
    if between 0x30 0x3f c then .csiIgnore
    else if between 0x40 0x7e c then .ground
    else interrupt .csiIntermediate c
  | .csiIgnore, c => if between 0x40 0x7e c then .ground else interrupt .csiIgnore c
  | .dcsEntry, c =>
    if between 0x20 0x2f c then .dcsIntermediate
    else if between 0x30 0x3f c then .dcsParam
    else if between 0x40 0x7e c then .dcsData
    else interrupt .dcsEntry c
  | .dcsParam, c =>
    if between 0x20 0x2f c then .dcsIntermediate
    else if between 0x30 0x3b c then .dcsParam
    else if between 0x3c 0x3f c then .skipped
    else if between 0x40 0x7e c then .dcsData
    else interrupt .dcsParam c
  | .dcsIntermediate, c =>
    if between 0x30 0x3f c then .skipped
    else if between 0x40 0x7e c then .dcsData
    else interrupt .dcsIntermediate c
  | .dcsData, c => if holdsTerminator c then .ground else interrupt .dcsData c
  | .skipped, c => interrupt .skipped c
  | .osc, c => if c = '\x07' then .ground else interrupt .osc c

end FlatCode.Text.ControlSequence
