import SmalltalkJit.Lib.ByteStream
import Mathlib.Logic.Function.Basic

/-! # The tokenizer

`readToken` scans a buffer that ends with a NUL. A read past the end of the buffer and
a write past the end of a token's content have no defined outcome, and answer `none`.
It happens where a `$`, or the sign of an exponent, stands before the NUL, which is
then consumed; after a radix above 36, of which every character is a digit; and where
the text of an unclosed comment, or the NUL after the digits of a radix, is stored in
a token without making room for it.
-/
namespace SmalltalkJit.Tokenizing
open ByteStream

inductive TokenType
  | unknown | digit | identifier | symbolStart | char | string | comment | specialChars | keyword | assign
  | return | dot | arrayOpenBracket | openBracket | closeBracket | openSquareBracket | closeSquareBracket
  | endOfInput | colon | semicolon | verticalBar | lessThan | greaterThan | minus | unclosedString
  | unclosedComment
  deriving DecidableEq

/-- A token, with the characters before the NUL of its content and the room for them. -/
structure Token where
  type : TokenType
  content : List Byte
  contentSize : ℕ
  position : ℕ
  line : ℕ
  column : ℕ
  isSeparated : Bool

/-- The character under the scan and what is left of the buffer after it. -/
structure Reader where
  ch : Byte
  rest : List Byte
  position : ℕ
  line : ℕ
  column : ℕ

structure Tokenizer where
  reader : Reader
  tokens : ℕ → Token
  tokenIndex : ℕ
  tokenized : ℕ
  comment : Token

structure Scan where
  reader : Reader
  token : Token

variable (ch : Byte)

def isNumeric : Bool := 48 ≤ ch.toNat && ch.toNat ≤ 57

def isUppercase : Bool := 65 ≤ ch.toNat && ch.toNat ≤ 90

def isSeparator : Bool := [9,10,13,32].contains ch.toNat

def isSpecial : Bool := [33,37,38,42,43,44,45,47,60,61,62,63,64,92,124,126].contains ch.toNat

def isIdentifierBegining : Bool := isUppercase ch || ch.toNat = 95 || (97 ≤ ch.toNat && ch.toNat ≤ 122)

def isIdentifier : Bool := isNumeric ch || isIdentifierBegining ch

def digitValue : ℕ := if isNumeric ch then ch.toNat-48 else if isUppercase ch then ch.toNat-55 else 36

def isDigit (base : ℕ) (ch : Byte) : Bool := digitValue ch < base

def decimal (digits : List Byte) : ℕ := digits.foldl (fun n ch => 10*n + (ch.toNat-48)) 0

/-- `(uint8_t) atoi(content)`: the value goes through a `long`, where it saturates, and an `int`. -/
def radix (digits : List Byte) : ℕ := if decimal digits < 9223372036854775808 then decimal digits % 256 else 255

def nextChar (r : Reader) : Option Reader :=
  match r.rest with
  | [] => none
  | ch :: rest =>
    some { ch := ch, rest := rest, position := r.position+1
           line := if ch = 10 then r.line+1 else r.line
           column := if ch = 10 then 1 else r.column+1 }

def peekChar (r : Reader) : Option Byte := r.rest.head?

/-- The character under the scan is the given one, and then the next one passes the test. -/
def peekAfter (ch : Byte → Bool) (test : Byte → Bool) (r : Reader) : Option Bool :=
  if ch r.ch then (peekChar r).map test else some false

def Token.push (token : Token) (ch : Byte) : Token :=
  { token with
    content := token.content ++ [ch]
    contentSize := if token.content.length = token.contentSize then 2*token.contentSize else token.contentSize }

def appendChar (token : Token) (ch : Byte) : Option Token :=
  if token.content.length < (token.push ch).contentSize then some (token.push ch) else none

def terminate (token : Token) : Option Token := (appendChar token 0).map fun t => { t with content := token.content }

variable (s : Scan)

def append : Option Scan := do
  let token ← appendChar s.token s.reader.ch
  let reader ← nextChar s.reader
  return ⟨reader,token⟩

def appendIf (p : Byte → Bool) (s : Scan) : Option Scan := if p s.reader.ch then append s else some s

-- Each round of a loop consumes a character, so that what is left of the buffer bounds the rounds.
def skipRounds (p : Byte → Bool) : ℕ → Reader → Option Reader
  | 0, _ => none
  | rounds+1, r => if p r.ch then (nextChar r).bind (skipRounds p rounds) else some r

def skipWhile (p : Byte → Bool) (r : Reader) : Option Reader := skipRounds p (r.rest.length+1) r

def appendRounds (p : Byte → Bool) : ℕ → Scan → Option Scan
  | 0, _ => none
  | rounds+1, s => if p s.reader.ch then (append s).bind (appendRounds p rounds) else some s

def appendWhile (p : Byte → Bool) (s : Scan) : Option Scan := appendRounds p (s.reader.rest.length+1) s

def appendThenWhile (p : Byte → Bool) (s : Scan) : Option Scan := (append s).bind (appendWhile p)

/-- The loop over the characters between quotes. A quote inside is written twice. -/
def quoteRounds (quote : Byte) : ℕ → Scan → Option Scan
  | 0, _ => none
  | rounds+1, s =>
    if s.reader.ch = 0 then some s
    else if s.reader.ch ≠ quote then (append s).bind (quoteRounds quote rounds)
    else (nextChar s.reader).bind fun r =>
      if r.ch = quote then (append ⟨r,s.token⟩).bind (quoteRounds quote rounds) else some ⟨r,s.token⟩

def readQuoted (quote : Byte) (s : Scan) : Option Scan := quoteRounds quote (s.reader.rest.length+1) s

/-- A token of one or two fixed characters, with the test on the character after the first. -/
structure Mark where
  ch : Byte
  next : Option (Byte → Bool)
  type : TokenType
  two : Bool

/-- The branches of `readToken` for such tokens, in their order. -/
def marks : List Mark :=
  [⟨91,none,.openSquareBracket,false⟩,
   ⟨93,none,.closeSquareBracket,false⟩,
   ⟨40,none,.openBracket,false⟩,
   ⟨41,none,.closeBracket,false⟩,
   ⟨46,none,.dot,false⟩,
   ⟨45,some (!isSpecial ·),.minus,false⟩,
   ⟨60,some (!isSpecial ·),.lessThan,false⟩,
   ⟨62,some (!isSpecial ·),.greaterThan,false⟩,
   ⟨58,some (· = 61),.assign,true⟩,
   ⟨124,some (· ≠ 124),.verticalBar,false⟩,
   ⟨58,none,.colon,false⟩,
   ⟨59,none,.semicolon,false⟩,
   ⟨94,none,.return,false⟩,
   ⟨36,none,.char,true⟩,
   ⟨35,some (· = 40),.arrayOpenBracket,true⟩,
   ⟨35,none,.symbolStart,false⟩]

def Mark.starts (m : Mark) (r : Reader) : Option Bool :=
  match m.next with
  | none => some (r.ch = m.ch)
  | some test => peekAfter (· = m.ch) test r

def findMark (r : Reader) : List Mark → Option (Option Mark)
  | [] => some none
  | m :: ms => (m.starts r).bind fun found => if found then some (some m) else findMark r ms

def readMark (m : Mark) (s : Scan) : Option Scan := do
  let s ← append { s with token := { s.token with type := m.type } }
  if m.two then append s else some s

def readScale : Option Scan := do
  let s ← append s
  if isNumeric s.reader.ch then appendThenWhile isNumeric s else some s

def readExponent : Option Scan := do
  let s ← append s
  let s ← appendIf (fun ch => ch = 43 ∨ ch = 45) s
  appendThenWhile isNumeric s

def readSuffix : Option Scan := do
  let exponent ← peekAfter (fun ch => ch = 101 ∨ ch = 69) (fun ch => isNumeric ch || ch = 43 || ch = 45) s.reader
  if exponent then readExponent s
  else do
    let scale ← peekAfter (· = 115) (!isIdentifierBegining ·) s.reader
    if scale then readScale s else some s

def readFraction : Option Scan := do
  let fraction ← peekAfter (· = 46) isNumeric s.reader
  let s ← if fraction then (append s).bind (appendThenWhile isNumeric) else some s
  readSuffix s

def readRadix : Option Scan :=
  -- token->content[i] = '\0' makes no room
  if s.token.content.length < s.token.contentSize then do
    let base := radix s.token.content
    let s ← append s
    let s ← appendIf (· = 45) s
    appendWhile (isDigit base) s
  else none

def readNumber : Option Scan := do
  let s ← appendThenWhile isNumeric s
  if s.reader.ch = 114 then readRadix s else readFraction s

def readIdentifier : Option Scan := do
  let s ← appendThenWhile isIdentifier s
  let keyword ← peekAfter (· = 58) (· ≠ 61) s.reader
  if keyword then append { s with token := { s.token with type := .keyword } }
  else some { s with token := { s.token with type := .identifier } }

def readString : Option Scan := do
  let r ← nextChar s.reader
  let s ← readQuoted 39 { s with reader := r }
  return { s with token := { s.token with type := if s.reader.ch = 0 then .unclosedString else .string } }

def readWord : Option Scan := do
  match ← findMark s.reader marks with
  | some m => readMark m s
  | none =>
    if s.reader.ch = 39 then readString s
    else if s.reader.ch = 0 then some { s with token := { s.token with type := .endOfInput } }
    else if isNumeric s.reader.ch then readNumber { s with token := { s.token with type := .digit } }
    else if isIdentifierBegining s.reader.ch then readIdentifier s
    else if isSpecial s.reader.ch then
      appendThenWhile isSpecial { s with token := { s.token with type := .specialChars } }
    else append { s with token := { s.token with type := .unknown } }

def readComment (r : Reader) (comment : Token) : Option Scan := do
  let r ← nextChar r
  readQuoted 34 ⟨r,{ comment with content := [] }⟩

/-- The token after the separators, the comment that was read last, and where the scan stands. -/
def readToken : ℕ → Reader → Token → Token → Bool → Option (Scan × Token)
  | 0, _, _, _, _ => none
  | depth+1, r, comment, token, isSeparated => do
    let comment := { comment with type := .unknown }
    let separated := isSeparated || isSeparator r.ch
    let r ← skipWhile isSeparator r
    let token := { token with content := [], isSeparated := separated, position := r.position
                              line := r.line, column := r.column-1 }
    if r.ch = 34 then do
      let s ← readComment r comment
      if s.reader.ch = 0 then
        -- memcpy(next->content, token->content, i) makes no room
        if s.token.content.length ≤ token.contentSize then do
          let token ← terminate { token with type := .unclosedComment, content := s.token.content }
          return (⟨s.reader,token⟩,s.token)
        else none
      else do
        let comment ← terminate { s.token with type := .comment, position := token.position
                                               line := token.line, column := token.column }
        readToken depth s.reader comment token true
    else do
      let s ← readWord ⟨r,token⟩
      let token ← terminate s.token
      return (⟨s.reader,token⟩,comment)

def maxTokens : ℕ := 6
def tokenBufferSize : ℕ := 64

def peekToken (t : Tokenizer) : Option (Token × Tokenizer) :=
  let i := t.tokenIndex % maxTokens
  if t.tokenized ≤ t.tokenIndex then do
    let (s,comment) ← readToken (t.reader.rest.length+1) t.reader t.comment (t.tokens i) false
    return (s.token,{ t with reader := s.reader, comment := comment, tokenized := t.tokenized+1
                             tokens := Function.update t.tokens i s.token })
  else some (t.tokens i,t)

def nextToken (t : Tokenizer) : Option (Token × Tokenizer) := do
  let (token,t) ← peekToken t
  return (token,{ t with tokenIndex := t.tokenIndex+1 })

def emptyToken : Token :=
  { type := .unknown, content := [], contentSize := tokenBufferSize, position := 0, line := 0, column := 0
    isSeparated := false }

def startTokenizer (source : List Byte) : Option Tokenizer :=
  (nextChar { ch := 0, rest := source, position := 0, line := 1, column := 1 }).map fun r =>
    { reader := r, tokens := fun _ => emptyToken, tokenIndex := 0, tokenized := 0, comment := emptyToken }

end SmalltalkJit.Tokenizing
