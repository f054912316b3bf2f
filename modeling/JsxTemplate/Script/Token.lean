import JsxTemplate.Script.Word
import JsxTemplate.Text.Bytes

/-!
# Tokens of a script

A script text is cut into tokens as the reader asks for them, because what comes next depends on where
the reader stands: a slash divides or opens a regular expression, a closing brace may continue a
template literal, and between two tags there is only text.

Every function here takes the remaining characters with the byte offset at which they start, and gives
what it has read with what remains. There is no result if the characters are not a token.
-/

namespace JsxTemplate.Script

/-- The remaining characters of a script, and the byte offset at which they start. -/
structure Input where
  chars : List Char
  offset : Nat
  deriving Repr, Inhabited

inductive Token where
  | word (text : String)
  | privateWord
  | number
  | bigint
  | string (value : String)
  /-- A text of a template literal, without a value if it holds a bad escape; `last` says that the
  literal ends with it. -/
  | text (value : Option String) (last : Bool)
  | regex
  | jsxText (text : String)
  | mark (text : String)
  | eof
  deriving DecidableEq, Repr, Inhabited

/-! ## Blanks and comments -/

def endsLine (c : Char) : Bool :=
  c == '\n' || c == '\r' || c.toNat == 0x2028 || c.toNat == 0x2029

/-- A character between tokens that ends no line. -/
def isGap (c : Char) : Bool :=
  let n := c.toNat
  n == 0x09 || n == 0x0B || n == 0x0C || n == 0x20 || n == 0x85 || n == 0xA0 || n == 0x1680
    || (0x2000 ≤ n && n ≤ 0x200B) || n == 0x202F || n == 0x205F || n == 0x3000 || n == 0xFEFF

/-- Where a walk over blanks and comments stands. -/
inductive Gap where
  | code
  | line
  /-- In a comment that ends with its mark. -/
  | block
  /-- Before the second character of a mark that opens a comment. -/
  | opening
  /-- Before the second character of a mark that closes a comment. -/
  | closing
  deriving DecidableEq, Repr

/-- Skip blanks and comments. The truth value of the result says that a line ended on the way. There
is no result if a comment does not end. -/
def skipGaps : Gap → Bool → List Char → Nat → Option (Bool × Input)
  | .code, broke, [], o => some (broke, ⟨[], o⟩)
  | .line, broke, [], o => some (broke, ⟨[], o⟩)
  | _, _, [], _ => none
  | .code, broke, c :: cs, o =>
    if endsLine c then skipGaps .code true cs (o + c.utf8Size)
    else if isGap c then skipGaps .code broke cs (o + c.utf8Size)
    else if c == '/' && cs.head? == some '/' then skipGaps .line broke cs (o + 1)
    else if c == '/' && cs.head? == some '*' then skipGaps .opening broke cs (o + 1)
    else some (broke, ⟨c :: cs, o⟩)
  | .line, broke, c :: cs, o =>
    if endsLine c then skipGaps .code true cs (o + c.utf8Size)
    else skipGaps .line broke cs (o + c.utf8Size)
  | .opening, broke, c :: cs, o => skipGaps .block broke cs (o + c.utf8Size)
  | .closing, broke, c :: cs, o => skipGaps .code broke cs (o + c.utf8Size)
  | .block, broke, c :: cs, o =>
    if c == '*' && cs.head? == some '/' then skipGaps .closing broke cs (o + 1)
    else skipGaps .block (broke || endsLine c) cs (o + c.utf8Size)

/-! ## Numbers of characters -/

def hexValue? (c : Char) : Option Nat :=
  if c.isDigit then some (c.toNat - 48)
  else if 'a' ≤ c ∧ c ≤ 'f' then some (c.toNat - 87)
  else if 'A' ≤ c ∧ c ≤ 'F' then some (c.toNat - 55)
  else none

/-- The value of a run of hexadecimal digits up to a closing brace, which is skipped. -/
def bracedCode? : Nat → Bool → List Char → Nat → Option (Nat × Input)
  | _, _, [], _ => none
  | value, hasDigits, c :: cs, o =>
    if c == '\x7d' then if hasDigits && value ≤ 0x10FFFF then some (value, ⟨cs, o + 1⟩) else none
    else
      match hexValue? c with
      | some d => bracedCode? (min (value * 16 + d) 0x110000) true cs (o + 1)
      | none => none

def fourDigitCode? : List Char → Nat → Option (Nat × Input)
  | a :: b :: c :: d :: cs, o =>
    match hexValue? a, hexValue? b, hexValue? c, hexValue? d with
    | some a, some b, some c, some d =>
      some (((a * 16 + b) * 16 + c) * 16 + d, ⟨cs, o + 4⟩)
    | _, _, _, _ => none
  | _, _ => none

/-- The number of a character written after `\u`, with or without braces. -/
def unicodeCode? : List Char → Nat → Option (Nat × Input)
  | '\x7b' :: cs, o => bracedCode? 0 false cs (o + 1)
  | cs, o => fourDigitCode? cs o

/-! ## Words -/

/-- Read a word; `first` says that its first character has yet to come. Characters may be written by
their numbers. -/
def readWord : Nat → Bool → List Char → Nat → Option (List Char × Input)
  | 0, _, _, _ => none
  | _ + 1, first, [], o => if first then none else some ([], ⟨[], o⟩)
  | fuel + 1, first, c :: cs, o =>
    let fits := fun c => if first then startsWord c else continuesWord c
    if fits c then
      (readWord fuel false cs (o + c.utf8Size)).map fun (word, rest) => (c :: word, rest)
    else if c == '\\' then
      match cs with
      | 'u' :: cs =>
        match unicodeCode? cs (o + 2) with
        | some (code, rest) =>
          if fits (Char.ofNat code) then
            (readWord fuel false rest.chars rest.offset).map
              fun (word, rest) => (Char.ofNat code :: word, rest)
          else none
        | none => none
      | _ => none
    else if first then none
    else some ([], ⟨c :: cs, o⟩)

/-! ## Numbers -/

/-- Read digits, which may be separated by single underscores. `before` says that a digit has just
been read. There is no result if an underscore does not stand between two digits. -/
def readDigits (isDigit : Char → Bool) : Bool → List Char → Nat → Option Input
  | _, [], o => some ⟨[], o⟩
  | before, c :: cs, o =>
    if isDigit c then readDigits isDigit true cs (o + 1)
    else if c == '_' then
      if before && cs.head?.any isDigit then readDigits isDigit false cs (o + 1) else none
    else some ⟨c :: cs, o⟩

def readExponent (input : Input) : Option Input :=
  let digits := fun cs o =>
    if (List.head? cs).any Char.isDigit then readDigits Char.isDigit false cs o else none
  match input.chars with
  | e :: sign :: cs =>
    if e == 'e' || e == 'E' then
      if sign == '+' || sign == '-' then digits cs (input.offset + 2)
      else digits (sign :: cs) (input.offset + 1)
    else some input
  | [e] => if e == 'e' || e == 'E' then none else some input
  | [] => some input

/-- Read what follows the whole part of a number: a fraction and an exponent. -/
def readFraction (input : Input) : Option Input :=
  match input.chars with
  | '.' :: cs =>
    if cs.head? == some '_' then none
    else (readDigits Char.isDigit false cs (input.offset + 1)).bind readExponent
  | _ => readExponent input

/-- A number must not run into a word or a further digit. -/
def endNumber (token : Token) (input : Input) : Option (Token × Input) :=
  match input.chars with
  | c :: _ => if startsWord c || c.isDigit || c == '\\' then none else some (token, input)
  | [] => some (token, input)

/-- Read the mark of a big integer, if it is there. -/
def endInteger (input : Input) : Option (Token × Input) :=
  match input.chars with
  | 'n' :: cs => endNumber .bigint ⟨cs, input.offset + 1⟩
  | _ => endNumber .number input

def readInBase (isDigit : Char → Bool) (cs : List Char) (o : Nat) : Option (Token × Input) :=
  if cs.head?.any isDigit then (readDigits isDigit false cs o).bind endInteger else none

/-- Read a number, which starts with a digit, or with a dot before a digit. -/
def readNumber (cs : List Char) (o : Nat) : Option (Token × Input) :=
  match cs with
  | '0' :: c :: rest =>
    if c == 'x' || c == 'X' then readInBase (fun c => (hexValue? c).isSome) rest (o + 2)
    else if c == 'o' || c == 'O' then readInBase (fun c => '0' ≤ c && c ≤ '7') rest (o + 2)
    else if c == 'b' || c == 'B' then readInBase (fun c => c == '0' || c == '1') rest (o + 2)
    else if c.isDigit then
      let digits := (c :: rest).takeWhile Char.isDigit
      let input : Input := ⟨(c :: rest).dropWhile Char.isDigit, o + 1 + digits.length⟩
      if digits.all (fun c => c ≤ '7') then endNumber .number input
      else (readFraction input).bind (endNumber .number)
    else if c == '_' then none
    else if c == '.' || c == 'e' || c == 'E' then
      (readFraction ⟨c :: rest, o + 1⟩).bind (endNumber .number)
    else endInteger ⟨c :: rest, o + 1⟩
  | '.' :: _ => (readFraction ⟨cs, o⟩).bind (endNumber .number)
  | _ =>
    (readDigits Char.isDigit false cs o).bind fun input =>
      match input.chars with
      | c :: _ =>
        if c == '.' || c == 'e' || c == 'E' then (readFraction input).bind (endNumber .number)
        else endInteger input
      | [] => endInteger input

/-! ## Strings and template literals -/

/-- A part of a string: a character, or half of one. -/
inductive StringPart where
  | char (c : Char)
  /-- A number that is only half of a character. -/
  | half (n : Nat)
  deriving Repr

def StringPart.ofCode (n : Nat) : StringPart :=
  if n.isValidChar then .char (Char.ofNat n) else .half n

/-- The value of a string. In a string with halves of characters, each of them is written as the
replacement character with its number in four hexadecimal digits, and so is the replacement character
itself. -/
def stringValue (parts : List StringPart) : String :=
  let digits := fun n : Nat =>
    [Nat.digitChar (n / 4096 % 16), Nat.digitChar (n / 256 % 16), Nat.digitChar (n / 16 % 16),
      Nat.digitChar (n % 16)]
  let broken := parts.any fun | .half _ => true | .char _ => false
  String.ofList <| parts.flatMap fun
    | .char c => if broken && c.toNat == 0xFFFD then c :: digits 0xFFFD else [c]
    | .half n => Char.ofNat 0xFFFD :: digits n

inductive Escape where
  /-- Parts of the string, with what remains after the escape. -/
  | parts (parts : List StringPart) (rest : Input)
  /-- Nothing: the escape is not allowed, and reading goes on behind its backslash. -/
  | bad
  deriving Repr

/-- The number of a character above the basic plane, from its two halves. -/
def joinHalves (high low : Nat) : Nat :=
  (high - 0xD800) * 0x400 + (low - 0xDC00) + 0x10000

/-- Read an escape by number after `\u`. Two halves written one after the other are one character. -/
def readUnicodeEscape (cs : List Char) (o : Nat) : Escape :=
  match unicodeCode? cs o with
  | none => .bad
  | some (code, rest) =>
    if 0xD800 ≤ code && code ≤ 0xDBFF && cs.head? != some '\x7b' then
      match rest.chars with
      | '\\' :: 'u' :: more =>
        match fourDigitCode? more (rest.offset + 2) with
        | some (low, rest') =>
          if 0xDC00 ≤ low && low ≤ 0xDFFF then .parts [.ofCode (joinHalves code low)] rest'
          else .parts [.half code] rest
        | none => .parts [.half code] rest
      | _ => .parts [.half code] rest
    else .parts [.ofCode code] rest

/-- Read the digits of an octal escape, of which there are at most three and whose value is below
256. -/
def readOctalEscape (cs : List Char) (o : Nat) : Escape :=
  let isOctal := fun c : Char => '0' ≤ c && c ≤ '7'
  match cs with
  | a :: b :: c :: rest =>
    if isOctal b && isOctal c && a ≤ '3' then
      .parts [.ofCode ((a.toNat - 48) * 64 + (b.toNat - 48) * 8 + (c.toNat - 48))] ⟨rest, o + 3⟩
    else if isOctal b then
      .parts [.ofCode ((a.toNat - 48) * 8 + (b.toNat - 48))] ⟨c :: rest, o + 2⟩
    else .parts [.ofCode (a.toNat - 48)] ⟨b :: c :: rest, o + 1⟩
  | [a, b] =>
    if isOctal b then .parts [.ofCode ((a.toNat - 48) * 8 + (b.toNat - 48))] ⟨[], o + 2⟩
    else .parts [.ofCode (a.toNat - 48)] ⟨[b], o + 1⟩
  | [a] => .parts [.ofCode (a.toNat - 48)] ⟨[], o + 1⟩
  | [] => .bad

/-- Read an escape after its backslash. Octal escapes are allowed in strings, but not in template
literals, where only a lone zero is. -/
def readEscape (inTemplate : Bool) (cs : List Char) (o : Nat) : Escape :=
  match cs with
  | [] => .bad
  | c :: rest =>
    let one := fun c => Escape.parts [.char c] ⟨rest, o + 1⟩
    match c with
    | 'n' => one '\n'
    | 't' => one '\t'
    | 'r' => one '\r'
    | 'b' => one '\x08'
    | 'f' => one '\x0c'
    | 'v' => one '\x0b'
    | 'x' =>
      match rest with
      | a :: b :: more =>
        match hexValue? a, hexValue? b with
        | some a, some b => .parts [.ofCode (a * 16 + b)] ⟨more, o + 3⟩
        | _, _ => .bad
      | _ => .bad
    | 'u' => readUnicodeEscape rest (o + 1)
    | '\r' =>
      match rest with
      | '\n' :: more => .parts [] ⟨more, o + 2⟩
      | _ => .parts [] ⟨rest, o + 1⟩
    | c =>
      if endsLine c then .parts [] ⟨rest, o + c.utf8Size⟩
      else if c == '0' && !(rest.head?.any Char.isDigit) then one '\x00'
      else if c.isDigit then
        if inTemplate then .bad
        else if c ≤ '7' then readOctalEscape cs o
        else one c
      else .parts [.char c] ⟨rest, o + c.utf8Size⟩

def readString (quote : Char) : Nat → List Char → Nat → Option (List StringPart × Input)
  | 0, _, _ => none
  | _ + 1, [], _ => none
  | fuel + 1, c :: cs, o =>
    if c == quote then some ([], ⟨cs, o + 1⟩)
    else if c == '\\' then
      match readEscape false cs (o + 1) with
      | .parts parts rest =>
        (readString quote fuel rest.chars rest.offset).map
          fun (more, rest) => (parts ++ more, rest)
      | .bad => none
    else if c == '\n' || c == '\r' then none
    else
      (readString quote fuel cs (o + c.utf8Size)).map fun (more, rest) => (.char c :: more, rest)

/-- What was read of a template literal: its parts, if every escape is allowed, whether the literal
ends here, and what remains. -/
structure TemplateText where
  parts : Option (List StringPart)
  last : Bool
  rest : Input
  deriving Repr

def TemplateText.before (parts : Option (List StringPart)) (t : TemplateText) : TemplateText :=
  { t with parts := match parts, t.parts with
    | some a, some b => some (a ++ b)
    | _, _ => none }

/-- Read the text of a template literal up to its end or to the next expression. -/
def readTemplateText : Nat → List Char → Nat → Option TemplateText
  | 0, _, _ => none
  | _ + 1, [], _ => none
  | fuel + 1, c :: cs, o =>
    match c with
    | '\x60' => some ⟨some [], true, ⟨cs, o + 1⟩⟩
    | '$' =>
      match cs with
      | '\x7b' :: cs => some ⟨some [], false, ⟨cs, o + 2⟩⟩
      | _ => (readTemplateText fuel cs (o + 1)).map (·.before (some [.char '$']))
    | '\\' =>
      match readEscape true cs (o + 1) with
      | .parts parts rest =>
        (readTemplateText fuel rest.chars rest.offset).map (·.before (some parts))
      | .bad =>
        match cs with
        | [] => none
        | c :: cs => (readTemplateText fuel cs (o + 1 + c.utf8Size)).map (·.before none)
    | '\r' =>
      match cs with
      | '\n' :: cs => (readTemplateText fuel cs (o + 2)).map (·.before (some [.char '\n']))
      | _ => (readTemplateText fuel cs (o + 1)).map (·.before (some [.char '\n']))
    | c => (readTemplateText fuel cs (o + c.utf8Size)).map (·.before (some [.char c]))

def templateToken (cs : List Char) (o : Nat) : Option (Token × Input) :=
  (readTemplateText (cs.length + 1) cs o).map fun t =>
    (.text (t.parts.map stringValue) t.last, t.rest)

/-! ## Regular expressions -/

/-- Skip the body of a regular expression up to the slash that ends it. -/
def skipRegex : (inClass escaped : Bool) → List Char → Nat → Option Input
  | _, _, [], _ => none
  | inClass, escaped, c :: cs, o =>
    if endsLine c then none
    else if escaped then skipRegex inClass false cs (o + c.utf8Size)
    else if c == '\\' then skipRegex inClass true cs (o + 1)
    else if c == '/' && !inClass then some ⟨cs, o + 1⟩
    else skipRegex (c == '[' || (inClass && c != ']')) false cs (o + c.utf8Size)

/-- Read a regular expression after its first slash. Its flags are known and occur once each. -/
def readRegex (cs : List Char) (o : Nat) : Option (Token × Input) :=
  (skipRegex false false cs o).bind fun input =>
    let flags := input.chars.takeWhile continuesWord
    if flags.all (fun c => "dgimsuvy".toList.contains c) && flags.eraseDups.length == flags.length
    then
      some (.regex, ⟨input.chars.dropWhile continuesWord, input.offset + flags.length⟩)
    else none

/-! ## Punctuation -/

/-- The marks of punctuation, the longer ones first. A closing angle is always read alone, because
it may close a list of types. -/
def marks : List (List Char) :=
  [">>>=", "...", "===", "!==", "**=", "<<=", "&&=", "||=", "??=", "=>", "==", "!=", "<=", "++", "--",
    "**", "<<", "&&", "||", "??", "?.", "+=", "-=", "*=", "/=", "%=", "&=", "|=", "^=", "\x7b",
    "\x7d", "(", ")", "[", "]", ";", ",", "<", ">", "+", "-", "*", "/", "%", "&", "|", "^", "!", "~",
    "?", ":", "=", ".", "@"].map String.toList

/-- Read a mark of punctuation. A question mark before a decimal fraction stands alone. -/
def readMark (cs : List Char) (o : Nat) : Option (Token × Input) :=
  let fits := fun mark : List Char =>
    mark.isPrefixOf cs && mark.head? != some '>'
      && !(mark == ['?', '.'] && (cs.drop 2).head?.any Char.isDigit)
  match marks.find? fits with
  | some mark => some (.mark (String.ofList mark), ⟨cs.drop mark.length, o + mark.length⟩)
  | none =>
    match cs with
    | '>' :: rest => some (.mark ">", ⟨rest, o + 1⟩)
    | _ => none

/-- The longest mark that starts with a closing angle, which is read so between two operands. -/
def readAngle (cs : List Char) (o : Nat) : Option (Token × Input) :=
  let mark :=
    ([">>>=", ">>>", ">>=", ">>", ">=", ">"].map String.toList).find? fun mark => mark.isPrefixOf cs
  mark.map fun mark => (.mark (String.ofList mark), ⟨cs.drop mark.length, o + mark.length⟩)

/-! ## Tokens -/

def readToken (cs : List Char) (o : Nat) : Option (Token × Input) :=
  match cs with
  | [] => some (.eof, ⟨[], o⟩)
  | c :: rest =>
    if startsWord c || c == '\\' then
      (readWord (cs.length + 1) true cs o).map fun (word, rest) =>
        (.word (String.ofList word), rest)
    else if c.isDigit || (c == '.' && rest.head?.any Char.isDigit) then readNumber cs o
    else if c == '\x22' || c == '\x27' then
      (readString c cs.length rest (o + 1)).map fun (parts, rest) =>
        (.string (stringValue parts), rest)
    else if c == '\x60' then templateToken rest (o + 1)
    else if c == '#' then
      (readWord cs.length true rest (o + 1)).map fun (_, rest) => (.privateWord, rest)
    else readMark cs o

/-- Read the character data between two tags, or the mark that ends it. A closing angle or brace must
not stand in it. -/
def readChildToken (cs : List Char) (o : Nat) : Option (Token × Input) :=
  match cs with
  | [] => some (.eof, ⟨[], o⟩)
  | '<' :: rest => some (.mark "<", ⟨rest, o + 1⟩)
  | '\x7b' :: rest => some (.mark "\x7b", ⟨rest, o + 1⟩)
  | _ =>
    let inText := fun c => c != '<' && c != '\x7b'
    let text := cs.takeWhile inText
    if text.contains '>' || text.contains '\x7d' then none
    else some (.jsxText (String.ofList text), ⟨cs.dropWhile inText, o + Text.byteLength text⟩)

/-- Read an attribute value in quotes, in which nothing is escaped. -/
def readAttributeString (cs : List Char) (o : Nat) : Option (Token × Input) :=
  match cs with
  | quote :: rest =>
    if quote == '\x22' || quote == '\x27' then
      let text := rest.takeWhile (· != quote)
      match rest.dropWhile (· != quote) with
      | _ :: more =>
        some (.string (String.ofList text), ⟨more, o + 2 + Text.byteLength text⟩)
      | [] => none
    else none
  | [] => none

end JsxTemplate.Script
