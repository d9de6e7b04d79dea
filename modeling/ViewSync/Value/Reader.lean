import ViewSync.Value

/-!
# Reading values

The strict grammar of JSON: four blank characters, no comments, no commas at the end, no leading
zeros, no bare control characters in strings, and surrogate escapes only in pairs. Each reader
takes the characters that are left and gives what it read with the rest.

`readFields?` keeps the fields of every object as they are written, repeated names included;
`read?` gives the canonical value.
-/

namespace ViewSync.Value

/-- The blanks that may stand between tokens. -/
def isBlank (c : Char) : Bool := c = ' ' || c = '\t' || c = '\n' || c = '\r'

/-- The rest behind any blanks. -/
def skipBlanks (cs : List Char) : List Char := cs.dropWhile isBlank

/-- The value of a hexadecimal digit of either case. -/
def hexDigit? (c : Char) : Option Nat :=
  if '0' ≤ c && c ≤ '9' then some (c.toNat - '0'.toNat)
  else if 'a' ≤ c && c ≤ 'f' then some (c.toNat - 'a'.toNat + 10)
  else if 'A' ≤ c && c ≤ 'F' then some (c.toNat - 'A'.toNat + 10)
  else none

/-- Four hexadecimal digits. -/
def readCode? : List Char → Option (Nat × List Char)
  | a :: b :: c :: d :: r => do
    return (((← hexDigit? a) * 16 + (← hexDigit? b)) * 256 + (← hexDigit? c) * 16
      + (← hexDigit? d), r)
  | _ => none

/-- The character of an escape, from behind its backslash. -/
def readEscape? : List Char → Option (Char × List Char)
  | '"' :: r => some ('"', r)
  | '\\' :: r => some ('\\', r)
  | '/' :: r => some ('/', r)
  | 'b' :: r => some ('\x08', r)
  | 'f' :: r => some ('\x0c', r)
  | 'n' :: r => some ('\n', r)
  | 'r' :: r => some ('\r', r)
  | 't' :: r => some ('\t', r)
  | 'u' :: r => do
    let (high, r) ← readCode? r
    if high < 0xD800 || 0xE000 ≤ high then return (Char.ofNat high, r)
    -- the first half of a pair, which needs the second
    if 0xDC00 ≤ high then none
    match r with
    | '\\' :: 'u' :: r =>
      let (low, r) ← readCode? r
      if low < 0xDC00 || 0xE000 ≤ low then none
      return (Char.ofNat (0x10000 + (high - 0xD800) * 0x400 + (low - 0xDC00)), r)
    | _ => none
  | _ => none

/-- The rest of a string, from behind its first quote, onto the characters read so far. It takes no
more units of the first argument than there are characters, and one. -/
def readString? : Nat → List Char → List Char → Option (String × List Char)
  | 0, _, _ => none
  | _ + 1, acc, '"' :: r => some (String.ofList acc.reverse, r)
  | n + 1, acc, '\\' :: r => do
    let (c, r) ← readEscape? r
    readString? n (c :: acc) r
  | n + 1, acc, c :: r => if c.toNat < 0x20 then none else readString? n (c :: acc) r
  | _ + 1, _, [] => none

/-- The digits at the front. -/
def readDigits (cs : List Char) : List Nat × List Char :=
  ((cs.takeWhile Char.isDigit).map (fun c => c.toNat - '0'.toNat), cs.dropWhile Char.isDigit)

/-- Digits of which there is at least one. -/
def readSomeDigits? (cs : List Char) : Option (List Nat × List Char) :=
  match readDigits cs with
  | ([], _) => none
  | r => some r

/-- The number of a list of digits. -/
def ofDigits (ds : List Nat) : Nat := ds.foldl (fun n d => 10 * n + d) 0

/-- An exponent, from behind its letter. -/
def readExponent? (cs : List Char) : Option (Int × List Char) :=
  match cs with
  | '-' :: cs => (readSomeDigits? cs).map fun (ds, r) => (-(ofDigits ds : Int), r)
  | '+' :: cs => (readSomeDigits? cs).map fun (ds, r) => ((ofDigits ds : Int), r)
  | cs => (readSomeDigits? cs).map fun (ds, r) => ((ofDigits ds : Int), r)

/-- A number. -/
def readNumber? (cs : List Char) : Option (Number × List Char) := do
  let (negative, cs) := match cs with
    | '-' :: cs => (true, cs)
    | cs => (false, cs)
  let (whole, cs) ← readSomeDigits? cs
  if whole.head? = some 0 && whole.length ≠ 1 then none
  let (fraction, cs) ← match cs with
    | '.' :: cs => (readSomeDigits? cs).map fun (ds, r) => (some ds, r)
    | cs => some (none, cs)
  let (exponent, cs) ← match cs with
    | 'e' :: cs => (readExponent? cs).map fun (e, r) => (some e, r)
    | 'E' :: cs => (readExponent? cs).map fun (e, r) => (some e, r)
    | cs => some (none, cs)
  return (← Number.ofNumeral? negative whole fraction exponent, cs)

/-- What is left when `word` stands at the front. -/
def afterWord? (word : String) (cs : List Char) : Option (List Char) :=
  if word.toList.isPrefixOf cs then some (cs.drop word.length) else none

mutual

/-- A value, its objects as written. Every call takes a unit of the first argument. Each stands for
a character or comes before one, so that with twice as many units as there are characters, and two
more, there always remain enough for a string that is next. -/
def readValue? : Nat → List Char → Option (Value × List Char)
  | 0, _ => none
  | n + 1, cs =>
    match skipBlanks cs with
    | '\x7b' :: cs =>
      match skipBlanks cs with
      | '\x7d' :: r => some (.obj [], r)
      | cs => (readFieldList? n cs).map fun (fs, r) => (.obj fs, r)
    | '[' :: cs =>
      match skipBlanks cs with
      | ']' :: r => some (.arr [], r)
      | cs => (readItemList? n cs).map fun (vs, r) => (.arr vs, r)
    | '"' :: cs => (readString? n [] cs).map fun (s, r) => (.str s, r)
    | 't' :: cs => (afterWord? "rue" cs).map fun r => (.bool true, r)
    | 'f' :: cs => (afterWord? "alse" cs).map fun r => (.bool false, r)
    | 'n' :: cs => (afterWord? "ull" cs).map fun r => (.null, r)
    | cs => (readNumber? cs).map fun (n, r) => (.num n, r)

/-- Items up to the closing bracket. -/
def readItemList? : Nat → List Char → Option (List Value × List Char)
  | 0, _ => none
  | n + 1, cs =>
    match readValue? n cs with
    | none => none
    | some (v, cs) =>
      match skipBlanks cs with
      | ',' :: cs => (readItemList? n cs).map fun (vs, r) => (v :: vs, r)
      | ']' :: r => some ([v], r)
      | _ => none

/-- Fields up to the closing brace. -/
def readFieldList? : Nat → List Char → Option (List (String × Value) × List Char)
  | 0, _ => none
  | n + 1, cs =>
    match skipBlanks cs with
    | '"' :: cs =>
      match readString? n [] cs with
      | none => none
      | some (name, cs) =>
        match skipBlanks cs with
        | ':' :: cs =>
          match readValue? n cs with
          | none => none
          | some (v, cs) =>
            match skipBlanks cs with
            | ',' :: cs => (readFieldList? n cs).map fun (fs, r) => ((name, v) :: fs, r)
            | '\x7d' :: r => some ([(name, v)], r)
            | _ => none
        | _ => none
    | _ => none

end

/-- The value that a text denotes, the fields of its objects as written. -/
def readFields? (text : String) : Option Value :=
  let cs := text.toList
  match readValue? (2 * cs.length + 2) cs with
  | some (v, r) => if (skipBlanks r).isEmpty then some v else none
  | none => none

/-- The value that a text denotes. -/
def read? (text : String) : Option Value := (readFields? text).map sorted

end ViewSync.Value
