/-!
# Escaped text

Five characters have a meaning in HTML. Escaping writes each of them as an entity and leaves every
other character alone, so escaped text opens no tag and closes no attribute. `unescape` reads the
five entities back.
-/

namespace ViewSync.Text

/-- A character as it is written in HTML text and attributes. -/
def escapeChar : Char → List Char
  | '&' => "&amp;".toList
  | '<' => "&lt;".toList
  | '>' => "&gt;".toList
  | '"' => "&quot;".toList
  | '\'' => "&#39;".toList
  | c => [c]

/-- Text as it is written in HTML. -/
def escape (s : String) : String := String.ofList (s.toList.flatMap escapeChar)

/-- Reads each of the five entities as its character. -/
def unescapeChars : List Char → List Char
  | '&' :: 'a' :: 'm' :: 'p' :: ';' :: r => '&' :: unescapeChars r
  | '&' :: 'l' :: 't' :: ';' :: r => '<' :: unescapeChars r
  | '&' :: 'g' :: 't' :: ';' :: r => '>' :: unescapeChars r
  | '&' :: 'q' :: 'u' :: 'o' :: 't' :: ';' :: r => '"' :: unescapeChars r
  | '&' :: '#' :: '3' :: '9' :: ';' :: r => '\'' :: unescapeChars r
  | c :: r => c :: unescapeChars r
  | [] => []

/-- The text that was escaped. -/
def unescape (s : String) : String := String.ofList (unescapeChars s.toList)

end ViewSync.Text
