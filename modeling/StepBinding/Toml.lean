import StepBinding.Data

/-! Settings files: tables of keys with values. A value is a text in quotes, which may go over lines,
a number, a truth value, a list of values or a table in braces; `#` starts a comment. A key may be
defined once and a table opened once. There are neither dates nor lists of tables. -/

namespace StepBinding

/-- The tables that were opened and the values that were defined, in order. -/
structure Toml where
  /-- The open table. -/
  header : List String := []
  /-- Values, or `none` for a table, by the path of the key. -/
  items : List (List String × Option Data) := []
  /-- Tables that cannot be opened any more. -/
  closed : List (List String) := []
  /-- Tables that cannot be opened after the open one. -/
  closing : List (List String) := []

namespace Toml

/-- Why a text is not a settings file. -/
inductive Fault
  | malformed
  /-- A whole number with too many digits. -/
  | tooManyDigits
deriving DecidableEq, Repr

def orMalformed {α : Type} : Option α → Except Fault α
  | some a => .ok a
  | none => .error .malformed

def isBlank (c : Char) : Bool := c == ' ' || c == '\t'

def skip (cs : List Char) : List Char := cs.dropWhile isBlank

/-- Control characters other than the tabulator stand nowhere. -/
def isControl (c : Char) : Bool := (c.toNat < 0x20 && c != '\t') || c.toNat == 0x7F

/-- The character of an escape that is not a code point. -/
def escape? : Char → Option Char
  | 'b' => some '\x08'
  | 't' => some '\t'
  | 'n' => some '\n'
  | 'f' => some '\x0c'
  | 'r' => some '\r'
  | '"' => some '"'
  | '\\' => some '\\'
  | _ => none

/-- A code point in the given number of digits of base sixteen. -/
def codePoint? (count : Nat) (cs : List Char) : Option Char :=
  let digits := cs.take count
  let n := digits.foldl (fun n c => n * 16 + Text.CharClass.hexValue c) 0
  if digits.length = count && digits.all Text.CharClass.isHexDigit && n.isValidChar then
    some (Char.ofNat n)
  else none

/-- The character of an escape, and how many characters follow its letter. -/
def escaped? : List Char → Option (Char × Nat)
  | 'u' :: cs => (codePoint? 4 cs).map fun d => (d, 4)
  | 'U' :: cs => (codePoint? 8 cs).map fun d => (d, 8)
  | c :: _ => (escape? c).map fun d => (d, 0)
  | [] => none

def isSpace (c : Char) : Bool := isBlank c || c == '\n'

/-- How many characters an escaped line end takes, with the blanks around it. -/
def lineEnd? (cs : List Char) : Option Nat :=
  let n := (cs.takeWhile isBlank).length
  match cs.drop n with
  | '\n' :: cs => some (n + 1 + (cs.takeWhile isSpace).length)
  | _ => none

/-- The rest of a text in quotes, or in three of them if it goes over lines. `skipped` counts
characters of an escape that was read. -/
def basic? (lines : Bool) : Nat → List Char → Option (List Char × List Char)
  | _, [] => none
  | n + 1, _ :: cs => basic? lines n cs
  | 0, c :: cs =>
    if c == '"' && (!lines || cs.take 2 == ['"', '"']) then
      some ([], if lines then cs.drop 2 else cs)
    else if c == '\\' then
      match if lines then lineEnd? cs else none with
      | some n => basic? lines n cs
      | none => match escaped? cs with
        | none => none
        | some (d, n) => (basic? lines (n + 1) cs).map fun r => (d :: r.1, r.2)
    else if isControl c && !(lines && c == '\n') then none
    else (basic? lines 0 cs).map fun r => (c :: r.1, r.2)

/-- The rest of a text in single quotes, which has no escapes. -/
def literal? (lines : Bool) : List Char → Option (List Char × List Char)
  | [] => none
  | c :: cs =>
    if c == '\x27' && (!lines || cs.take 2 == ['\x27', '\x27']) then
      some ([], if lines then cs.drop 2 else cs)
    else if isControl c && !(lines && c == '\n') then none
    else (literal? lines cs).map fun r => (c :: r.1, r.2)

/-- Up to two quotes more belong to a text that three of them end. -/
def withQuotes (quote : Char) (r : List Char × List Char) : List Char × List Char :=
  let more := (r.2.take 2).takeWhile (· == quote)
  (r.1 ++ more, r.2.drop more.length)

/-- A line end right after the opening quotes does not count. -/
def afterOpening : List Char → List Char
  | '\n' :: cs => cs
  | cs => cs

/-- A text in quotes of any kind. -/
def quoted? : List Char → Option (List Char × List Char)
  | '"' :: '"' :: '"' :: cs => (basic? true 0 (afterOpening cs)).map (withQuotes '"')
  | '\x27' :: '\x27' :: '\x27' :: cs => (literal? true (afterOpening cs)).map (withQuotes '\x27')
  | '"' :: cs => basic? false 0 cs
  | '\x27' :: cs => literal? false cs
  | _ => none

def isBare (c : Char) : Bool := c.isAlphanum || c == '_' || c == '-'

/-- A key without dots. -/
def key? : List Char → Option (String × List Char)
  | '"' :: cs => (basic? false 0 cs).map fun r => (String.ofList r.1, r.2)
  | '\x27' :: cs => (literal? false cs).map fun r => (String.ofList r.1, r.2)
  | cs =>
    let word := cs.takeWhile isBare
    if word.isEmpty then none else some (String.ofList word, cs.dropWhile isBare)

/-- A key with dots, given more dots than it can have. -/
def path? : Nat → List Char → Option (List String × List Char)
  | 0, _ => none
  | n + 1, cs => do
    let (k, rest) ← key? (skip cs)
    match skip rest with
    | '.' :: more => do
      let (ks, rest) ← path? n more
      return (k :: ks, rest)
    | rest => return ([k], rest)

def hasLeadingZero : List Char → Bool
  | '0' :: c :: _ => c.isDigit || c == '_'
  | _ => false

/-- Whether a point stands before something else than a digit. -/
def hasBarePoint : List Char → Bool
  | '.' :: cs => !cs.head?.any Char.isDigit || hasBarePoint cs
  | _ :: cs => hasBarePoint cs
  | [] => false

/-- A number that names its base: two, eight or sixteen. -/
def based? : List Char → Option Nat
  | '0' :: 'b' :: cs => Number.Numeral.digits? 2 cs
  | '0' :: 'o' :: cs => Number.Numeral.digits? 8 cs
  | '0' :: 'x' :: cs => Number.Numeral.digits? 16 cs
  | _ => none

/-- A whole number in base ten. -/
def integer (text : String) : Except Fault Data :=
  match Number.Numeral.int? text with
  | some n => .ok (.number (.int n))
  | none =>
    let (_, digits) := Number.Numeral.signOf text.toList
    .error (if (Number.Numeral.digits? 10 digits).isSome then .tooManyDigits else .malformed)

/-- A truth value or a number. -/
def word (cs : List Char) : Except Fault Data :=
  let text := String.ofList cs
  if text = "true" then .ok (.boolean true)
  else if text = "false" then .ok (.boolean false)
  else if let some n := based? cs then .ok (.number (.int n))
  else
    let (_, unsigned) := Number.Numeral.signOf cs
    if unsigned = ['i', 'n', 'f'] || unsigned = ['n', 'a', 'n'] then
      orMalformed ((Number.Numeral.float? text).map fun x => .number (.float x))
    else if hasLeadingZero unsigned || !(unsigned.head?.any Char.isDigit) || hasBarePoint cs then
      .error .malformed
    else if cs.any fun c => c == '.' || c == 'e' || c == 'E' then
      orMalformed ((Number.Numeral.float? text).map fun x => .number (.float x))
    else integer text

def isWordChar (c : Char) : Bool := isBare c || c == '+' || c == '.'

/-- What follows blanks, line ends and comments. -/
def skipLines (inComment : Bool) : List Char → Option (List Char)
  | [] => some []
  | c :: cs =>
    if c == '\n' then skipLines false cs
    else if inComment then if isControl c then none else skipLines true cs
    else if isBlank c then skipLines false cs
    else if c == '#' then skipLines true cs
    else some (c :: cs)

/-- Opens a table. -/
def openTable? (t : Toml) (path : List String) : Option Toml :=
  let closed := t.closing ++ t.closed
  if closed.contains path || t.items.any fun i => i.2.isSome && i.1.isPrefixOf path then none
  else some { header := path, items := t.items ++ [(path, none)], closed := path :: closed }

/-- Defines a key of the open table. -/
def define? (t : Toml) (path : List String) (d : Data) : Option Toml :=
  let full := t.header ++ path
  let around := (List.range (path.length - 1)).map fun i => t.header ++ path.take (i + 1)
  if around.any t.closed.contains
      || t.items.any fun i => full.isPrefixOf i.1 || (i.2.isSome && i.1.isPrefixOf full) then none
  else some { t with items := t.items ++ [(full, some d)], closing := around ++ t.closing }

/-- Fields with one more value or table in them. -/
def put (d : Option Data) : List String → List (String × Data) → List (String × Data)
  | [], fields => fields
  | k :: ks, fields =>
    let inner := match fields.lookup k with
      | some (.record inner) => inner
      | _ => []
    let value := match ks, d with
      | [], some d => d
      | _, _ => .record (put d ks inner)
    if fields.any (·.1 == k) then fields.map fun f => if f.1 == k then (k, value) else f
    else fields ++ [(k, value)]

def fields (t : Toml) : List (String × Data) := t.items.foldl (fun fs i => put i.2 i.1 fs) []

mutual

/-- A value at the start of a text, given more brackets than the text can have. -/
def value : Nat → List Char → Except Fault (Data × List Char)
  | 0, _ => .error .malformed
  | n + 1, cs =>
    match cs with
    | '"' :: _ | '\x27' :: _ =>
      orMalformed ((quoted? cs).map fun r => (.string (String.ofList r.1), r.2))
    | '[' :: cs => (elements n cs).map fun r => (.list r.1, r.2)
    | '\x7b' :: cs =>
      match skip cs with
      | '\x7d' :: cs => .ok (.record [], cs)
      | cs => (pairs n {} cs).map fun r => (.record r.1.fields, r.2)
    | cs => (word (cs.takeWhile isWordChar)).map fun d => (d, cs.dropWhile isWordChar)

/-- Values up to a closing bracket; a comma may follow the last one. -/
def elements : Nat → List Char → Except Fault (List Data × List Char)
  | 0, _ => .error .malformed
  | n + 1, cs => do
    match ← orMalformed (skipLines false cs) with
    | ']' :: cs => return ([], cs)
    | cs =>
      let (d, rest) ← value n cs
      match ← orMalformed (skipLines false rest) with
      | ',' :: more => do
        let (ds, rest) ← elements n more
        return (d :: ds, rest)
      | ']' :: rest => return ([d], rest)
      | _ => throw .malformed

/-- A key with its value. -/
def pair : Nat → Toml → List Char → Except Fault (Toml × List Char)
  | 0, _, _ => .error .malformed
  | n + 1, t, cs => do
    let (path, rest) ← orMalformed (path? (cs.length + 1) cs)
    match rest with
    | '=' :: rest =>
      let (d, rest) ← value n (skip rest)
      return (← orMalformed (t.define? path d), rest)
    | _ => throw .malformed

/-- Keys with values up to a closing brace. -/
def pairs : Nat → Toml → List Char → Except Fault (Toml × List Char)
  | 0, _, _ => .error .malformed
  | n + 1, t, cs => do
    let (t, rest) ← pair n t (skip cs)
    match skip rest with
    | ',' :: more => pairs n t more
    | '\x7d' :: rest => return (t, rest)
    | _ => throw .malformed

end

/-- The rest of a line behind a statement: nothing but blanks and a comment. -/
def lineRest? (cs : List Char) : Option (List Char) :=
  match skip cs with
  | '#' :: cs =>
    let comment := cs.takeWhile (· != '\n')
    if comment.any isControl then none else some (cs.drop (comment.length + 1))
  | '\n' :: cs => some cs
  | [] => some []
  | _ => none

/-- The header of a table or a key with its value. -/
def statement (t : Toml) (cs : List Char) : Except Fault (Toml × List Char) :=
  match cs with
  | '[' :: cs => do
    let (path, rest) ← orMalformed (path? (cs.length + 1) cs)
    match rest with
    | ']' :: rest => return (← orMalformed (t.openTable? path), rest)
    | _ => throw .malformed
  | cs => pair (cs.length + 2) t cs

/-- The tables after the rest of a text, given more lines than it can have. -/
def withLines : Nat → Toml → List Char → Except Fault Toml
  | 0, _, _ => .error .malformed
  | n + 1, t, cs =>
    match cs, lineRest? cs with
    | [], _ => .ok t
    | _, some rest => withLines n t rest
    | cs, none => do
      let (t, rest) ← t.statement (skip cs)
      withLines n t (← orMalformed (lineRest? rest))

/-- Reads a settings file. -/
def ofText (text : String) : Except Fault Toml :=
  let cs := (text.replace "\r\n" "\n").toList
  withLines (cs.length + 1) {} cs

/-- The value of a name outside of tables, or the keys of the table of that name. -/
def get? (t : Toml) (name : String) : Option Data := t.fields.lookup name

end Toml

end StepBinding
