/-!
# The tokens of JSON texts

A JSON text is cut into brackets, separators, texts, numbers and the three words, with blanks
between them where one likes. The characters are read one after the other; what has been read of a
token is the state in which the next character is taken.
-/

namespace GraphQuery.Json

inductive Scalar where
  | null
  | boolean (truth : Bool)
  /-- A number that is written with digits alone. -/
  | natural (n : Nat)
  | number
  /-- A text; none where half of a surrogate pair stands alone, for then there is no such text. -/
  | text (s : Option String)
  deriving Repr, DecidableEq

/-- One token of a JSON text. -/
inductive Token where
  | openArray
  | closeArray
  | openObject
  | closeObject
  | comma
  | colon
  | scalar (value : Scalar)
  deriving Repr, DecidableEq

/-- A character of a text as it is written: itself, or by the number of a code unit. -/
inductive CodeUnit where
  | char (c : Char)
  | code (n : Nat)
  deriving Repr, DecidableEq

/-- The text that the units stand for; two numbers may be the halves of a surrogate pair. -/
def decode : List CodeUnit → Option (List Char)
  | [] => some []
  | .char c :: units => (decode units).map (c :: ·)
  | .code high :: .code low :: units =>
    if 0xd800 ≤ high ∧ high < 0xdc00 ∧ 0xdc00 ≤ low ∧ low < 0xe000 then
      (decode units).map (.ofNat (0x10000 + (high - 0xd800) * 0x400 + (low - 0xdc00)) :: ·)
    else if 0xd800 ≤ high ∧ high < 0xe000 then none
    else (decode (.code low :: units)).map (.ofNat high :: ·)
  | .code n :: units =>
    if 0xd800 ≤ n ∧ n < 0xe000 then none else (decode units).map (.ofNat n :: ·)

/-- The character that a letter after a backslash stands for. -/
def escaped? : Char → Option Char
  | '"' => some '"'
  | '\\' => some '\\'
  | '/' => some '/'
  | 'b' => some '\x08'
  | 'f' => some '\x0c'
  | 'n' => some '\n'
  | 'r' => some '\r'
  | 't' => some '\t'
  | _ => none

def hexDigit? (c : Char) : Option Nat :=
  if c.isDigit then some (c.toNat - '0'.toNat)
  else if 'a' ≤ c ∧ c ≤ 'f' then some (c.toNat - 'a'.toNat + 10)
  else if 'A' ≤ c ∧ c ≤ 'F' then some (c.toNat - 'A'.toNat + 10)
  else none

/-- Digits, at least one of them. -/
def isDigits (cs : List Char) : Bool := !cs.isEmpty && cs.all Char.isDigit

def isExponent : List Char → Bool
  | [] => true
  | e :: sign :: cs =>
    (e = 'e' || e = 'E') &&
      if sign = '+' || sign = '-' then isDigits cs else isDigits (sign :: cs)
  | [_] => false

/-- A fraction and an exponent, each of which may be missing. -/
def isFraction : List Char → Bool
  | '.' :: cs => isDigits (cs.takeWhile Char.isDigit) && isExponent (cs.dropWhile Char.isDigit)
  | cs => isExponent cs

def naturalOf (digits : List Char) : Nat :=
  digits.foldl (fun n c => 10 * n + (c.toNat - '0'.toNat)) 0

/-- The number that the characters write without a sign, unless they write none. -/
def unsigned? (cs : List Char) : Option Scalar :=
  let whole := cs.takeWhile Char.isDigit
  let rest := cs.dropWhile Char.isDigit
  if isDigits whole && (whole = ['0'] || whole.head? != some '0') && isFraction rest then
    some (if rest.isEmpty then .natural (naturalOf whole) else .number)
  else none

/-- The word or number that the characters write, if they write one. -/
def word? : List Char → Option Scalar
  | ['n', 'u', 'l', 'l'] => some .null
  | ['t', 'r', 'u', 'e'] => some (.boolean true)
  | ['f', 'a', 'l', 's', 'e'] => some (.boolean false)
  | '-' :: cs => (unsigned? cs).map fun _ => .number
  | cs => unsigned? cs

/-- What has been read of the current token, the last character first. -/
inductive Progress where
  | nothing
  | word (read : List Char)
  | text (read : List CodeUnit)
  /-- A text up to a backslash. -/
  | escape (read : List CodeUnit)
  /-- A text up to a code unit of which `missing` digits are missing. -/
  | code (read : List CodeUnit) (n missing : Nat)

/-- The tokens that have been read, the last one first, and the current one. -/
structure Reading where
  /-- The tokens that have been read, the last one first. -/
  tokens : List Token
  current : Progress

namespace Reading

def start : Reading := ⟨[], .nothing⟩

/-- Takes a character with which no word or number goes on. -/
def separator? (tokens : List Token) : Char → Option Reading
  | ' ' | '\n' | '\t' | '\r' => some ⟨tokens, .nothing⟩
  | '[' => some ⟨.openArray :: tokens, .nothing⟩
  | ']' => some ⟨.closeArray :: tokens, .nothing⟩
  | '\x7b' => some ⟨.openObject :: tokens, .nothing⟩
  | '\x7d' => some ⟨.closeObject :: tokens, .nothing⟩
  | ',' => some ⟨.comma :: tokens, .nothing⟩
  | ':' => some ⟨.colon :: tokens, .nothing⟩
  | '"' => some ⟨tokens, .text []⟩
  | _ => none

def next (r : Reading) (c : Char) : Option Reading :=
  match r.current with
  | .nothing => some ((separator? r.tokens c).getD ⟨r.tokens, .word [c]⟩)
  | .word read =>
    match separator? r.tokens c with
    | none => some ⟨r.tokens, .word (c :: read)⟩
    | some _ => do separator? (.scalar (← word? read.reverse) :: r.tokens) c
  | .text read =>
    if c = '"' then
      some ⟨.scalar (.text ((decode read.reverse).map String.ofList)) :: r.tokens, .nothing⟩
    else if c = '\\' then some ⟨r.tokens, .escape read⟩
    else if c < ' ' then none
    else some ⟨r.tokens, .text (.char c :: read)⟩
  | .escape read =>
    if c = 'u' then some ⟨r.tokens, .code read 0 4⟩
    else (escaped? c).map fun e => ⟨r.tokens, .text (.char e :: read)⟩
  | .code read n missing => do
    let n := 16 * n + (← hexDigit? c)
    return ⟨r.tokens, if missing = 1 then .text (.code n :: read) else .code read n (missing - 1)⟩

def finish (r : Reading) : Option (List Token) :=
  match r.current with
  | .nothing => some r.tokens.reverse
  | .word read => (word? read.reverse).map fun value => (.scalar value :: r.tokens).reverse
  | .text _ | .escape _ | .code _ _ _ => none

end Reading

/-- The tokens of a text, if it consists of tokens. -/
def tokens? (s : String) : Option (List Token) := do
  (← s.toList.foldlM Reading.next .start).finish

end GraphQuery.Json
