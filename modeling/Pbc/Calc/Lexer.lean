import Pbc.Misc.Fuel

/-!
# The lexer of the calculator

`lex` moves a pointer through the current line, which it replaces by the next one where a string
goes on, and writes the text of a token into a buffer of fixed size. Lines are blocks of memory
that are live until they are freed; a read that is not of the live line up to its terminator and
a write outside the buffer are faults. The loops have fuel.
-/

namespace Pbc.Calc

/-- The values of `tok_type` that `lex` assigns. -/
inductive TokType where
  | none
  | id
  | int
  | string
  | comma
  | lparen
  | rparen
  | add
  | sub
  | mul
  | div
  | set
  | pow
  | unk
  deriving DecidableEq

/-- A string of `pbc_getline`, without its terminator. -/
abbrev InputLine := { text : List UInt8 // 0 ∉ text }

/-- A line in memory. -/
structure Block where
  serial : ℕ
  line : InputLine

/-- A pointer into some line, past or present. -/
structure Pointer where
  serial : ℕ
  offset : ℕ

/-- The type of `word`. -/
abbrev WordBuffer := { bytes : List UInt8 // bytes.length = 1024 }

/-- The variables of the lexer, with the lines that `pbc_getline` is still to return and the
number of those it returned. No block stands for a null pointer and for a line that was freed. -/
structure Lexer where
  input : List InputLine
  allocated : ℕ
  currentline : Option Block
  lexcp : Option Pointer
  tokType : TokType
  word : WordBuffer

/-- What stops the lexer: it reads outside the live line, it writes outside the buffer, or the
fuel of a loop is used up. -/
inductive LexFault where
  | read
  | write
  | fuel
  deriving DecidableEq

section Characters

/-- The quotation mark. -/
def quote : UInt8 := 34

def newline : UInt8 := 10

/-- The characters that `lex` skips, but for the terminator. -/
def isBlank (c : UInt8) : Bool :=
  c = ' '.toUInt8 || c = '\t'.toUInt8 || c = '\r'.toUInt8 || c = '\n'.toUInt8

/-- `isdigit`. -/
def isDigit (c : UInt8) : Bool := '0'.toUInt8 ≤ c && c ≤ '9'.toUInt8

/-- `isalpha` of the C locale, and the underscore. -/
def isLetter (c : UInt8) : Bool :=
  'a'.toUInt8 ≤ c && c ≤ 'z'.toUInt8 || 'A'.toUInt8 ≤ c && c ≤ 'Z'.toUInt8 || c = '_'.toUInt8

/-- The characters behind the first one of an identifier. -/
def isIdentifier (c : UInt8) : Bool := isLetter c || isDigit c

/-- The tokens of one character. -/
def symbol (c : UInt8) : TokType :=
  if c = ','.toUInt8 then .comma
  else if c = '='.toUInt8 then .set
  else if c = '^'.toUInt8 then .pow
  else if c = '*'.toUInt8 then .mul
  else if c = '/'.toUInt8 then .div
  else if c = '+'.toUInt8 then .add
  else if c = '-'.toUInt8 then .sub
  else if c = '('.toUInt8 then .lparen
  else if c = ')'.toUInt8 then .rparen
  else .unk

end Characters

namespace Lexer

/-- `*lexcp++`. -/
def fetch (s : Lexer) : Except LexFault (UInt8 × Lexer) :=
  match s.lexcp, s.currentline with
  | some p, some block =>
      if p.serial = block.serial then
        match (block.line.val ++ [0])[p.offset]? with
        | some c => .ok (c, { s with lexcp := some ⟨p.serial, p.offset + 1⟩ })
        | none => .error .read
      else .error .read
  | _, _ => .error .read

/-- `lexcp--`. -/
def back (s : Lexer) : Lexer :=
  { s with lexcp := s.lexcp.map fun p => ⟨p.serial, p.offset - 1⟩ }

/-- `word[i] = c`. -/
def put (i : ℕ) (c : UInt8) (s : Lexer) : Except LexFault Lexer :=
  if i < 1024 then
    .ok { s with word := ⟨s.word.val.set i c, List.length_set.trans s.word.property⟩ }
  else .error .write

/-- `currentline` is freed, and assigned the next line. -/
def pbcGetline (s : Lexer) : Lexer :=
  match s.input with
  | [] => { s with currentline := none }
  | line :: input =>
      { s with
        input := input
        allocated := s.allocated + 1
        currentline := some ⟨s.allocated, line⟩ }

/-- `lexcp = currentline`. -/
def start (s : Lexer) : Lexer :=
  { s with lexcp := s.currentline.map fun block => ⟨block.serial, 0⟩ }

mutual

/-- Blanks and comments; the null of the result is the end of the line. -/
def skipwhitespace : ℕ → UInt8 → Lexer → Except LexFault (UInt8 × Lexer)
  | 0, _, _ => .error .fuel
  | fuel + 1, c, s =>
      if isBlank c then do
        let (c, s) ← s.fetch
        skipwhitespace fuel c s
      else if c = '#'.toUInt8 then skipcomment fuel s
      else .ok (c, s)

/-- The loop over a comment. -/
def skipcomment : ℕ → Lexer → Except LexFault (UInt8 × Lexer)
  | 0, _ => .error .fuel
  | fuel + 1, s => do
      let (c, s) ← s.fetch
      if c = 0 then return (c, s)
      if c = newline then skipwhitespace fuel c s
      else skipcomment fuel s

end

/-- The loop over a string. -/
def stringLoop : ℕ → ℕ → Lexer → Except LexFault Lexer
  | 0, _, _ => .error .fuel
  | fuel + 1, i, s => do
      let (c, s) ← s.fetch
      if c = 0 then
        let s ← s.put i newline
        let s := s.pbcGetline
        if s.currentline.isNone then s.put (i + 1) 0
        else
          -- The first character of the next line is not compared with the terminator.
          let (c, s) ← s.start.fetch
          if c = quote then s.put (i + 1) 0
          else
            let s ← s.put (i + 1) c
            stringLoop fuel (i + 2) s
      else if c = quote then s.put i 0
      else
        let s ← s.put i c
        stringLoop fuel (i + 1) s

/-- The loops over a number and over an identifier. -/
def wordLoop (inside : UInt8 → Bool) : ℕ → ℕ → Lexer → Except LexFault Lexer
  | 0, _, _ => .error .fuel
  | fuel + 1, i, s => do
      let (c, s) ← s.fetch
      if inside c then
        let s ← s.put i c
        wordLoop inside fuel (i + 1) s
      else
        let s ← s.put i 0
        return s.back

/-- The number of bytes of some lines, with their terminators. -/
def bytes : List InputLine → ℕ
  | [] => 0
  | line :: lines => line.val.length + 1 + bytes lines

/-- The fuel that the loops are given. -/
def fuel (s : Lexer) : ℕ :=
  2 * (s.currentline.elim 0 (fun block => block.line.val.length) + bytes s.input + 1)

/-- What `lex` does behind the blanks and comments. -/
def lexToken (fuel : ℕ) (c : UInt8) (s : Lexer) : Except LexFault Lexer :=
  if c = 0 then .ok { s with tokType := .none }
  else if c = quote then stringLoop fuel 0 { s with tokType := .string }
  else if isDigit c then do
    let s ← put 0 c { s with tokType := .int }
    wordLoop isDigit fuel 1 s
  else if isLetter c then do
    let s ← put 0 c { s with tokType := .id }
    wordLoop isIdentifier fuel 1 s
  else .ok { s with tokType := symbol c }

/-- `lex`. -/
def lex (s : Lexer) : Except LexFault Lexer :=
  if s.lexcp.isNone then .ok { s with tokType := .none }
  else do
    let fuel := s.fuel
    let (c, s) ← s.fetch
    let (c, s) ← skipwhitespace fuel c s
    lexToken fuel c s

end Lexer

end Pbc.Calc
