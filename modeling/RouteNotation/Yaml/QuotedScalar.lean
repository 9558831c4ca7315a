import RouteNotation.Text.Numeral
import RouteNotation.Yaml.Fault
import RouteNotation.Yaml.Folding
import RouteNotation.Yaml.Token

/-!
Scalars in single quotes, where a quote is written twice, and in double quotes, where a backslash
begins an escape.
-/

namespace RouteNotation.Yaml

/-- The character of an escape of one letter. -/
def escapedChar? (c : Char) : Option Char :=
  match c with
  | '0' => some '\x00'
  | 'a' => some '\x07'
  | 'b' => some '\x08'
  | 't' | '\t' => some '\t'
  | 'n' => some '\n'
  | 'v' => some '\x0B'
  | 'f' => some '\x0C'
  | 'r' => some '\r'
  | 'e' => some '\x1B'
  | ' ' | '"' | '/' | '\\' => some c
  | 'N' => some '\u0085'
  | '_' => some '\u00A0'
  | 'L' => some '\u2028'
  | 'P' => some '\u2029'
  | _ => none

/-- How many digits of base sixteen an escape takes. -/
def escapedDigits? (c : Char) : Option Nat :=
  match c with
  | 'x' => some 2
  | 'u' => some 4
  | 'U' => some 8
  | _ => none

/-- What the next character belongs to. -/
inductive QuotedMode
  | text
  /-- A backslash comes before it. -/
  | escape
  /-- A quote comes before it that may be the first of two. -/
  | quote
  /-- The number of a character with so many digits to come. -/
  | digits (left : Nat) (number : Nat)

/-- Reads on from behind the opening quote; `text` holds what was read, the last first. -/
def scanQuoted (single : Bool) (mode : QuotedMode) (text : List Char) (g : Gap) (p : Place) :
    List Char → Except Fault (String × Place)
  | [] => match mode with
    | .quote => .ok (.ofList text.reverse, p)
    | _ => .error .unclosedQuote
  | c :: rest => match mode with
    | .quote =>
      if c = '\'' then scanQuoted single .text ('\'' :: text) .none (p.behind c rest) rest
      else .ok (.ofList text.reverse, p)
    | .escape =>
      if isBreak c then scanQuoted single .text text ⟨[], some [], []⟩ (p.behindBreak c rest) rest
      else match escapedChar? c, escapedDigits? c with
        | some d, _ => scanQuoted single .text (d :: text) .none (p.behind c rest) rest
        | none, some n => scanQuoted single (.digits n 0) text .none (p.behind c rest) rest
        | none, none => .error .badEscape
    | .digits left number =>
      match Numeral.digit? 16 c with
      | none => .error .badEscape
      | some d =>
        let number := number * 16 + d
        if left = 1 then
          match Numeral.char? number with
          | some d => scanQuoted single .text (d :: text) .none (p.behind c rest) rest
          | none => .error .badEscape
        else scanQuoted single (.digits (left - 1) number) text .none (p.behind c rest) rest
    | .text =>
      if isSpaceOrTab c then scanQuoted single .text text (g.addBlank c) (p.behind c rest) rest
      else if isBreak c then scanQuoted single .text text (g.addBreak c) (p.behindBreak c rest) rest
      else if p.column = 0 ∧ atAnyMarker (c :: rest) then .error .markerInQuotes
      else
        let text := g.close text
        if single && c = '\'' then scanQuoted single .quote text .none (p.behind c rest) rest
        else if !single && c = '"' then .ok (.ofList text.reverse, p.behind c rest)
        else if !single && c = '\\' then scanQuoted single .escape text .none (p.behind c rest) rest
        else scanQuoted single .text (c :: text) .none (p.behind c rest) rest

end RouteNotation.Yaml
