import ViewSync.Value
import ViewSync.Text.Escape

/-!
# The text of a value

Compact JSON: no blanks, fields in the order in which the object lists them, strings quoted. Only
the quote, the backslash and the characters below the space are escaped in a string, those with a
letter of their own by that letter, the others by their code in lower-case hexadecimal.

`safeText` is the text that a value leaves in a page: strings stand there without quotes, and
nothing stands for `null`.
-/

namespace ViewSync.Value

/-- A character as it is written inside quotes. -/
def quoteChar (c : Char) : List Char :=
  match c with
  | '"' => ['\\', '"']
  | '\\' => ['\\', '\\']
  | '\x08' => ['\\', 'b']
  | '\x0c' => ['\\', 'f']
  | '\n' => ['\\', 'n']
  | '\r' => ['\\', 'r']
  | '\t' => ['\\', 't']
  | c =>
    if c.toNat < 0x20 then
      ['\\', 'u', '0', '0', Nat.digitChar (c.toNat / 16), Nat.digitChar (c.toNat % 16)]
    else [c]

/-- A string in quotes. -/
def quote (s : String) : List Char := '"' :: (s.toList.flatMap quoteChar ++ ['"'])

mutual

/-- The characters of a value's text. -/
def chars : Value → List Char
  | .null => "null".toList
  | .bool true => "true".toList
  | .bool false => "false".toList
  | .num n => n.text.toList
  | .str s => quote s
  | .arr items => '[' :: (itemChars items ++ [']'])
  | .obj fields => '\x7b' :: (fieldChars fields ++ ['\x7d'])

/-- Items with commas between them. -/
def itemChars : List Value → List Char
  | [] => []
  | [v] => chars v
  | v :: w :: vs => chars v ++ ',' :: itemChars (w :: vs)

/-- Fields with commas between them. -/
def fieldChars : List (String × Value) → List Char
  | [] => []
  | [(n, v)] => quote n ++ ':' :: chars v
  | (n, v) :: f :: fs => quote n ++ ':' :: (chars v ++ ',' :: fieldChars (f :: fs))

end

/-- The text of a value. -/
def text (v : Value) : String := String.ofList v.chars

/-- What a value leaves in a page before escaping. -/
def rawText : Value → String
  | .null => ""
  | .str s => s
  | v => v.text

/-- What a value leaves in a page. -/
def safeText (escaped : Bool) (v : Value) : String :=
  if escaped then Text.escape v.rawText else v.rawText

end ViewSync.Value
