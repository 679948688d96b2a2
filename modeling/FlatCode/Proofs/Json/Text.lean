import FlatCode.Json.Printer
import FlatCode.Json.Reader
import FlatCode.Proofs.Json.Numeral

/-! JSON text is read as the value it was written for. Strings are read in three ways: their
characters are gathered up to the closing quote, their shape is checked, and their escapes are
resolved; what `escape` writes passes all three. -/
namespace FlatCode.Json
open List

variable {c : Char} {s : String}

section Escape

theorem hexValue?_digitChar : ∀ n < 16, hexValue? (Nat.digitChar n) = some n := by decide

theorem codeUnit?_control (h : c.toNat < 0x20) :
    codeUnit? '0' '0' (Nat.digitChar (c.toNat / 16)) (Nat.digitChar (c.toNat % 16)) =
      some c.toNat := by
  have zero : hexValue? '0' = some 0 := by decide
  simp only [codeUnit?, zero, hexValue?_digitChar _ (show c.toNat / 16 < 16 by omega),
    hexValue?_digitChar _ (show c.toNat % 16 < 16 by omega), Option.bind_eq_bind, Option.bind_some]
  congr 1
  omega

theorem unescape_escape (reversed : List Char) (c : Char) (rest : List Char) :
    unescape reversed (escape c ++ rest) = unescape (c :: reversed) rest := by
  unfold escape
  split
  · subst c
    simp [unescape, shortEscape?]
  split
  · subst c
    simp [unescape, shortEscape?]
  split
  · rename_i control
    have high : isHighSurrogate c.toNat = false := by simp [isHighSurrogate]; omega
    have low : isLowSurrogate c.toNat = false := by simp [isLowSurrogate]; omega
    simp [unescape, codeUnit?_control control, high, low]
  · rename_i plain _
    simp [unescape, plain]

theorem unescape_flatMap (reversed cs : List Char) :
    unescape reversed (cs.flatMap escape) = some (reversed.reverse ++ cs) := by
  induction cs generalizing reversed with
  | nil => simp [unescape]
  | cons c cs ih => rw [flatMap_cons, unescape_escape, ih]; simp

theorem hasStringShape_escape (c : Char) (rest : List Char) :
    hasStringShape (escape c ++ rest) = hasStringShape rest := by
  unfold escape
  split
  · simp [hasStringShape, shortEscape?]
  split
  · simp [hasStringShape, shortEscape?]
  split
  · rename_i control
    simp [hasStringShape, codeUnit?_control control]
  · rename_i plain visible
    simp [hasStringShape, plain, Nat.le_of_not_lt visible]

theorem hasStringShape_flatMap (cs : List Char) : hasStringShape (cs.flatMap escape) := by
  induction cs with
  | nil => rfl
  | cons c cs ih => rwa [flatMap_cons, hasStringShape_escape]

def Spelling (s : String) : Prop := ∃ cs : List Char, s.toList = cs.flatMap escape

def isPlain (s : String) : Bool := s.toList.all fun c => escape c = [c]

theorem flatMap_escape_of_isPlain (h : isPlain s) : s.toList.flatMap escape = s.toList := by
  unfold isPlain at h
  generalize s.toList = cs at h
  induction cs with
  | nil => rfl
  | cons c cs ih => simp_all

theorem spelling_of_isPlain (h : isPlain s) : Spelling s :=
  ⟨s.toList, (flatMap_escape_of_isPlain h).symm⟩

theorem decodeText?_of_isPlain (h : isPlain s) : decodeText? s = some s := by
  have := unescape_flatMap [] s.toList
  rw [flatMap_escape_of_isPlain h] at this
  simp [decodeText?, this]

@[simp] theorem text?_ofText (s : String) : (ofText s).text? = some s := by
  simp [text?, ofText, decodeText?, unescape_flatMap]

@[simp] theorem char?_ofText (c : Char) : char? (ofText (String.singleton c)) = some c := by
  simp [char?]

end Escape

mutual
/-- Strings and numerals stand as they are written. -/
def Spelled : Json → Prop
  | .null | .bool _ => True
  | .number n => n.Proper
  | .string s => Spelling s
  | .array vs => AllSpelled vs
  | .object ms => MembersSpelled ms
def AllSpelled : List Json → Prop
  | [] => True
  | v :: vs => v.Spelled ∧ AllSpelled vs
def MembersSpelled : List (String × Json) → Prop
  | [] => True
  | (key, v) :: ms => Spelling key ∧ v.Spelled ∧ MembersSpelled ms
end

mutual
def tokens : Json → List Token
  | .null => [.null]
  | .bool b => [.bool b]
  | .number n => [.number n]
  | .string s => [.string s]
  | .array vs => .leftBracket :: (elementTokens vs ++ [.rightBracket])
  | .object ms => .leftBrace :: (memberTokens ms ++ [.rightBrace])
def elementTokens : List Json → List Token
  | [] => []
  | [v] => v.tokens
  | v :: vs => v.tokens ++ .comma :: elementTokens vs
def memberTokens : List (String × Json) → List Token
  | [] => []
  | [(key, v)] => .string key :: .colon :: v.tokens
  | (key, v) :: ms => .string key :: .colon :: (v.tokens ++ .comma :: memberTokens ms)
end

section Scan
open Token
variable {ts : List Token} {t : Token}

/-- The tokens scanned so far, the last one first. A bare token may still be open, as nothing in
its text says that it has ended. -/
def Token.Scanner.Holds (s : Scanner) (ts : List Token) : Prop :=
  match s.current with
  | .none => ts = s.reversed
  | .bare cs => ∃ t, ofBare? cs.reverse = some t ∧ ts = t :: s.reversed
  | .string _ _ => False

theorem Token.Scanner.Holds.scan? {s : Scanner} (h : s.Holds ts) (ends : isBare c = false) :
    Token.scan? s c = begin? ts c := by
  obtain ⟨current, reversed⟩ := s
  cases current with
  | none =>
    cases h
    rfl
  | bare cs =>
    obtain ⟨t, ht, rfl⟩ := h
    simp [Token.scan?, ends, ht]
  | string _ _ => cases h

theorem Token.Scanner.Holds.finish? {s : Scanner} (h : s.Holds ts) :
    Token.finish? s = some ts.reverse := by
  obtain ⟨current, reversed⟩ := s
  cases current with
  | none =>
    cases h
    rfl
  | bare cs =>
    obtain ⟨t, ht, rfl⟩ := h
    simp [Token.finish?, ht]
  | string _ _ => cases h

def Scans (text : List Char) (ts : List Token) : Prop :=
  ∀ reversed, ∃ s, text.foldlM scan? ⟨.none, reversed⟩ = some s ∧ s.Holds (ts.reverse ++ reversed)

theorem foldlM_bare {cs : List Char} (bare : ∀ c ∈ cs, isBare c) (gathered : List Char)
    (reversed : List Token) : cs.foldlM scan? ⟨.bare gathered, reversed⟩ =
      some ⟨.bare (cs.reverse ++ gathered), reversed⟩ := by
  induction cs generalizing gathered with
  | nil => rfl
  | cons c cs ih =>
    have step : scan? ⟨.bare gathered, reversed⟩ c = some ⟨.bare (c :: gathered), reversed⟩ := by
      simp [scan?, bare c mem_cons_self]
    rw [foldlM_cons, step]
    simpa using ih (fun d hd => bare d (mem_cons_of_mem _ hd)) (c :: gathered)

theorem scans_bare {cs : List Char} (some_ : cs ≠ []) (all : cs.all isBare)
    (ht : ofBare? cs = some t) : Scans cs [t] := by
  intro reversed
  have bare := all_eq_true.1 all
  obtain ⟨c, cs, rfl⟩ := exists_cons_of_ne_nil some_
  have here := bare c mem_cons_self
  have blank : isBlank c = false ∧ c ≠ '"' := by
    constructor
    · cases blank : isBlank c with
      | false => rfl
      | true =>
        simp only [isBlank, Bool.or_eq_true, decide_eq_true_eq] at blank
        rcases blank with ((rfl | rfl) | rfl) | rfl <;> revert here <;> decide
    · rintro rfl
      revert here
      decide
  refine ⟨⟨.bare (cs.reverse ++ [c]), reversed⟩, ?_, t, by simpa using ht, rfl⟩
  rw [foldlM_cons, scan?, begin?]
  simpa [blank, here] using
    foldlM_bare (fun d hd => bare d (mem_cons_of_mem _ hd)) [c] reversed

theorem foldlM_escape (c : Char) (gathered : List Char) (reversed : List Token) :
    (escape c).foldlM scan? ⟨.string gathered false, reversed⟩ =
      some ⟨.string ((escape c).reverse ++ gathered) false, reversed⟩ := by
  have digit : ∀ n < 16, Nat.digitChar n ≠ '"' ∧ Nat.digitChar n ≠ '\\' := by decide
  unfold escape
  split
  · rfl
  split
  · rfl
  split
  · have high := digit (c.toNat / 16) (by omega)
    have low := digit (c.toNat % 16) (by omega)
    simp [scan?, high, low]
  · simp_all [scan?]

theorem foldlM_spelling (cs gathered : List Char) (reversed : List Token) :
    (cs.flatMap escape).foldlM scan? ⟨.string gathered false, reversed⟩ =
      some ⟨.string ((cs.flatMap escape).reverse ++ gathered) false, reversed⟩ := by
  induction cs generalizing gathered with
  | nil => rfl
  | cons c cs ih => simp [flatMap_cons, foldlM_append, foldlM_escape, ih]

theorem scans_string (h : Spelling s) : Scans (quoteSpelling s).toList [.string s] := by
  intro reversed
  obtain ⟨cs, hs⟩ := h
  have shape : ofSpelling? s.toList = some (.string s) := by
    rw [ofSpelling?, if_pos (hs ▸ hasStringShape_flatMap cs), String.ofList_toList]
  refine ⟨⟨.none, .string s :: reversed⟩, ?_, rfl⟩
  have quoted : (quoteSpelling s).toList = '"' :: (s.toList ++ ['"']) := by simp [quoteSpelling]
  have opened : scan? ⟨.none, reversed⟩ '"' = some ⟨.string [] false, reversed⟩ := rfl
  have gathered : s.toList.foldlM scan? ⟨.string [] false, reversed⟩ =
      some ⟨.string s.toList.reverse false, reversed⟩ := by
    simpa [hs] using foldlM_spelling cs [] reversed
  rw [quoted, foldlM_cons, opened]
  simp [foldlM_append, gathered, scan?, shape]

theorem scans_nil : Scans [] [] := fun _ => ⟨_, rfl, rfl⟩

theorem begin?_mark (h : punctuation? c = some t) (reversed : List Token) :
    isBare c = false ∧ begin? reversed c = some ⟨.none, t :: reversed⟩ := by
  unfold punctuation? at h
  split at h <;> cases h <;> exact ⟨by decide, rfl⟩

theorem Scans.mark {text : List Char} (h : Scans text ts) (mark : punctuation? c = some t)
    {rest : List Char} {us : List Token} (h' : Scans rest us) :
    Scans (text ++ c :: rest) (ts ++ t :: us) := by
  intro reversed
  obtain ⟨s, hs, holds⟩ := h reversed
  obtain ⟨ends, begins⟩ := begin?_mark mark (ts.reverse ++ reversed)
  obtain ⟨s', hs', holds'⟩ := h' (t :: (ts.reverse ++ reversed))
  refine ⟨s', ?_, by simpa using holds'⟩
  simp [foldlM_append, hs, holds.scan? ends, begins, hs']

theorem scans_number {n : Numeral} (h : n.Proper) : Scans n.chars [.number n] := by
  have spells := n.ofChars?_chars h
  have digits {ds : List Char} (h : Numeral.AreDigits ds) : ∀ c ∈ ds, isBare c := fun c hc => by
    simp [isBare, Char.isAlphanum, h.2 c hc]
  have fraction : ∀ c ∈ n.fractionChars, isBare c := by
    unfold Numeral.fractionChars
    split
    · rename_i ds hf
      exact forall_mem_cons.2 ⟨by decide, digits (h.fraction ds hf)⟩
    · simp
  have exponent : ∀ c ∈ n.exponentChars, isBare c := by
    unfold Numeral.exponentChars
    split
    · rename_i ds he
      exact forall_mem_cons.2 ⟨by decide, forall_mem_cons.2
        ⟨by decide, digits (h.exponent (true, ds) he)⟩⟩
    · rename_i ds he
      exact forall_mem_cons.2 ⟨by decide, digits (h.exponent (false, ds) he)⟩
    · simp
  have bare : ∀ c ∈ n.chars, isBare c := by
    rw [Numeral.chars_eq]
    refine forall_mem_append.2 ⟨?_, forall_mem_append.2 ⟨digits h.whole,
      forall_mem_append.2 ⟨fraction, exponent⟩⟩⟩
    split <;> simp [isBare]
  -- the words are no numerals, so the characters of a numeral are no word
  have word {cs : List Char} (none_ : Numeral.ofChars? cs = none) : n.chars ≠ cs := by
    rintro rfl
    cases none_.symm.trans spells
  have read : ofBare? n.chars = some (.number n) := by
    rw [ofBare?, if_neg (word (by decide)), if_neg (word (by decide)), if_neg (word (by decide)),
      spells]
    rfl
  exact scans_bare (word (by decide)) (all_eq_true.2 bare) read

mutual
theorem scans_render : ∀ {v : Json}, v.Spelled → Scans v.render.toList v.tokens
  | .null, _ => scans_bare (by decide) (by decide) rfl
  | .bool true, _ => scans_bare (by decide) (by decide) rfl
  | .bool false, _ => scans_bare (by decide) (by decide) rfl
  | .number n, h => by simpa [render, tokens] using scans_number h
  | .string s, h => scans_string h
  | .array vs, h => by
    have inner := (scans_renderElements h).mark (c := ']') rfl scans_nil
    simpa [render, tokens] using scans_nil.mark (c := '[') rfl inner
  | .object ms, h => by
    have inner := (scans_renderMembers h).mark (c := '}') rfl scans_nil
    simpa [render, tokens] using scans_nil.mark (c := '{') rfl inner
theorem scans_renderElements : ∀ {vs : List Json}, AllSpelled vs →
    Scans (renderElements vs).toList (elementTokens vs)
  | [], _ => scans_nil
  | [v], h => scans_render h.1
  | v :: w :: vs, h => by
    have rest := (scans_render h.1).mark (c := ',') rfl (scans_renderElements h.2)
    simpa [renderElements, elementTokens] using rest
theorem scans_renderMembers : ∀ {ms : List (String × Json)}, MembersSpelled ms →
    Scans (renderMembers ms).toList (memberTokens ms)
  | [], _ => scans_nil
  | [(key, v)], h => by
    have member := (scans_string h.1).mark (c := ':') rfl (scans_render h.2.1)
    simpa [renderMembers, memberTokens] using member
  | (key, v) :: m :: ms, h => by
    have rest := (scans_render h.2.1).mark (c := ',') rfl (scans_renderMembers h.2.2)
    simpa [renderMembers, memberTokens] using (scans_string h.1).mark (c := ':') rfl rest
end

theorem ofText?_render {v : Json} (h : v.Spelled) : ofText? v.render = some v.tokens := by
  obtain ⟨s, hs, holds⟩ := scans_render h []
  simp [ofText?, hs, holds.finish?]

end Scan

section Read
open Reader

theorem foldlM_valueOrEnd {vs : List Json} (some_ : vs ≠ []) (stack : List Frame) :
    (elementTokens vs).foldlM step? ⟨stack, .valueOrEnd⟩ =
      (elementTokens vs).foldlM step? ⟨stack, .value⟩ := by
  match vs with
  | [v] => cases v <;> rfl
  | v :: _ :: _ => cases v <;> rfl

theorem foldlM_keyOrEnd {ms : List (String × Json)} (some_ : ms ≠ []) (stack : List Frame) :
    (memberTokens ms).foldlM step? ⟨stack, .keyOrEnd⟩ =
      (memberTokens ms).foldlM step? ⟨stack, .key⟩ := by
  match ms with
  | [_] | _ :: _ :: _ => rfl

mutual
theorem foldlM_tokens : ∀ (v : Json) (stack : List Frame),
    v.tokens.foldlM step? ⟨stack, .value⟩ = some (complete v stack)
  | .null, _ | .bool _, _ | .number _, _ | .string _, _ => rfl
  | .array vs, stack => by
    have entries := foldlM_elementTokens vs
    by_cases some_ : vs = []
    · subst some_
      rfl
    · have opened : step? ⟨stack, .value⟩ .leftBracket = some ⟨.array [] :: stack, .valueOrEnd⟩ :=
        rfl
      have closed : step? ⟨.array vs.reverse :: stack, .separator⟩ .rightBracket =
          some (complete (.array vs.reverse.reverse) stack) := rfl
      simp [tokens, opened, foldlM_append, foldlM_valueOrEnd some_, entries some_, closed]
  | .object ms, stack => by
    have entries := foldlM_memberTokens ms
    by_cases some_ : ms = []
    · subst some_
      rfl
    · have opened : step? ⟨stack, .value⟩ .leftBrace = some ⟨.object [] "" :: stack, .keyOrEnd⟩ :=
        rfl
      obtain ⟨last, entries⟩ := entries some_ [] "" stack
      have closed : step? ⟨.object ms.reverse last :: stack, .separator⟩ .rightBrace =
          some (complete (.object ms.reverse.reverse) stack) := rfl
      simp [tokens, opened, foldlM_append, foldlM_keyOrEnd some_, entries, closed]
theorem foldlM_elementTokens : ∀ (vs : List Json), vs ≠ [] → ∀ (reversed : List Json)
    (stack : List Frame), (elementTokens vs).foldlM step? ⟨.array reversed :: stack, .value⟩ =
      some ⟨.array (vs.reverse ++ reversed) :: stack, .separator⟩
  | [], none_ => absurd rfl none_
  | [v], _ => fun reversed stack => foldlM_tokens v (.array reversed :: stack)
  | v :: w :: vs, _ => fun reversed stack => by
    have rest := foldlM_elementTokens (w :: vs) (by simp) (v :: reversed) stack
    simp [elementTokens, foldlM_append, foldlM_tokens v, complete, step?, afterComma?, rest]
theorem foldlM_memberTokens : ∀ (ms : List (String × Json)), ms ≠ [] →
    ∀ (reversed : List (String × Json)) (key : String) (stack : List Frame),
    ∃ last, (memberTokens ms).foldlM step? ⟨.object reversed key :: stack, .key⟩ =
      some ⟨.object (ms.reverse ++ reversed) last :: stack, .separator⟩
  | [], none_ => absurd rfl none_
  | [(key, v)], _ => fun reversed _ stack =>
    ⟨key, by simp [memberTokens, step?, beginKey?, foldlM_tokens v, complete]⟩
  | (key, v) :: m :: ms, _ => fun reversed _ stack => by
    obtain ⟨last, rest⟩ := foldlM_memberTokens (m :: ms) (by simp) ((key, v) :: reversed) key stack
    exact ⟨last, by simp [memberTokens, foldlM_append, step?, beginKey?, foldlM_tokens v,
      complete, afterComma?, rest]⟩
end

theorem parse?_render {v : Json} (h : v.Spelled) : parse? v.render = some v := by
  simp [parse?, ofText?_render h, ofTokens?, foldlM_tokens, complete, finish?]

end Read

end FlatCode.Json
