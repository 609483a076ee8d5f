import Mathlib.Algebra.Field.Rat
import Mathlib.Data.List.Infix
import Mathlib.Tactic.SplitIfs

namespace Jellybean.Json

/-- A JSON value; an object has its members as they were written. -/
inductive Value where
  | null
  | bool (b : Bool)
  | number (n : ℚ)
  | string (s : List Char)
  | array (vs : List Value)
  | object (ms : List (List Char × Value))

/-- The value of a member. Of several under one name the last one counts. -/
def get (ms : List (List Char × Value)) (name : List Char) : Option Value :=
  (ms.reverse.find? fun m => m.1 = name).map Prod.snd

def isWs (c : Char) : Bool := c = ' ' || c = '\t' || c = '\n' || c = '\r'

def skipWs (t : List Char) : List Char := t.dropWhile isWs

/-- The rest behind the next character, where it is `c`. -/
def expect (c : Char) (t : List Char) : Option (List Char) :=
  match skipWs t with
  | d :: r => if d = c then some r else none
  | [] => none

def hexDigit (c : Char) : Option Nat :=
  if c.isDigit then some (c.toNat - 48)
  else if 'a' ≤ c ∧ c ≤ 'f' then some (c.toNat - 87)
  else if 'A' ≤ c ∧ c ≤ 'F' then some (c.toNat - 55)
  else none

/-- Four hexadecimal digits. -/
def codeUnit : List Char → Option (Nat × List Char)
  | a :: b :: c :: d :: r => do
    let a ← hexDigit a
    let b ← hexDigit b
    let c ← hexDigit c
    let d ← hexDigit d
    some (((16 * a + b) * 16 + c) * 16 + d, r)
  | _ => none

/-- The character behind `\u`, for which two code units stand outside the basic plane. -/
def unicodeEscape (t : List Char) : Option (Char × List Char) := do
  let (high, r) ← codeUnit t
  if high < 0xD800 ∨ 0xE000 ≤ high then some (Char.ofNat high, r)
  else if 0xDC00 ≤ high then none
  else match r with
    | '\\' :: 'u' :: r => do
      let (low, r) ← codeUnit r
      if 0xDC00 ≤ low ∧ low < 0xE000 then
        some (Char.ofNat (0x10000 + (high - 0xD800) * 0x400 + (low - 0xDC00)), r)
      else none
    | _ => none

/-- The character behind a backslash. -/
def escape : List Char → Option (Char × List Char)
  | [] => none
  | c :: r =>
    if c = '"' ∨ c = '\\' ∨ c = '/' then some (c, r)
    else if c = 'b' then some ('\x08', r)
    else if c = 'f' then some ('\x0c', r)
    else if c = 'n' then some ('\n', r)
    else if c = 'r' then some ('\r', r)
    else if c = 't' then some ('\t', r)
    else if c = 'u' then unicodeEscape r
    else none

/-- The characters of a string, from behind its first quote. -/
def parseChars : Nat → List Char → Option (List Char × List Char)
  | 0, _ => none
  | _ + 1, [] => none
  | n + 1, c :: r =>
    if c = '"' then some ([], r)
    else if c = '\\' then do
      let (d, r) ← escape r
      let (s, r) ← parseChars n r
      some (d :: s, r)
    else if c.toNat < 32 then none
    else do
      let (s, r) ← parseChars n r
      some (c :: s, r)

def parseString (t : List Char) : Option (List Char × List Char) := parseChars t.length t

/-- The digits at the start of a text, at least one. -/
def digits (t : List Char) : Option (List Char × List Char) :=
  if t.takeWhile Char.isDigit = [] then none
  else some (t.takeWhile Char.isDigit, t.dropWhile Char.isDigit)

/-- The digits after the point, none where there is no point. -/
def fraction : List Char → Option (List Char × List Char)
  | '.' :: r => digits r
  | r => some ([], r)

def exponentSign : List Char → Bool × List Char
  | '-' :: r => (true, r)
  | '+' :: r => (false, r)
  | r => (false, r)

def exponent (t : List Char) : Option (ℤ × List Char) :=
  match t with
  | [] => some (0, [])
  | c :: r =>
    if c = 'e' ∨ c = 'E' then do
      let (ds, rest) ← digits (exponentSign r).2
      let e : ℤ := Nat.ofDigitChars 10 ds 0
      some (if (exponentSign r).1 then -e else e, rest)
    else some (0, t)

def minus : List Char → Bool × List Char
  | '-' :: r => (true, r)
  | r => (false, r)

/-- Integer part, fraction and exponent; a zero starts no longer number. -/
def parseNumber (t : List Char) : Option (ℚ × List Char) := do
  let (ds, r) ← digits (minus t).2
  if ds.head? = some '0' ∧ 1 < ds.length then none
  else do
    let (fs, r) ← fraction r
    let (e, r) ← exponent r
    let m : ℚ := Nat.ofDigitChars 10 (ds ++ fs) 0 * 10 ^ (e - fs.length)
    some (if (minus t).1 then -m else m, r)

def literal (word : List Char) (v : Value) (t : List Char) : Option (Value × List Char) :=
  if word.isPrefixOf t then some (v, t.drop word.length) else none

mutual

/-- A recursive descent; the fuel bounds its depth and the lengths of its lists. -/
def parseValue : Nat → List Char → Option (Value × List Char)
  | 0, _ => none
  | n + 1, t =>
    match skipWs t with
    | [] => none
    | c :: r =>
      if c = '{' then
        match expect '}' r with
        | some r => some (.object [], r)
        | none => do
          let (ms, r) ← parseMembers n r
          some (.object ms, r)
      else if c = '[' then
        match expect ']' r with
        | some r => some (.array [], r)
        | none => do
          let (vs, r) ← parseElements n r
          some (.array vs, r)
      else if c = '"' then do
        let (s, r) ← parseString r
        some (.string s, r)
      else if c = 't' then literal ['r', 'u', 'e'] (.bool true) r
      else if c = 'f' then literal ['a', 'l', 's', 'e'] (.bool false) r
      else if c = 'n' then literal ['u', 'l', 'l'] .null r
      else do
        let (q, r) ← parseNumber (c :: r)
        some (.number q, r)

/-- The members of an object up to its brace. -/
def parseMembers : Nat → List Char → Option (List (List Char × Value) × List Char)
  | 0, _ => none
  | n + 1, t => do
    let r ← expect '"' t
    let (name, r) ← parseString r
    let r ← expect ':' r
    let (v, r) ← parseValue n r
    match expect ',' r with
    | some r => do
      let (ms, r) ← parseMembers n r
      some ((name, v) :: ms, r)
    | none => do
      let r ← expect '}' r
      some ([(name, v)], r)

/-- The elements of an array up to its bracket. -/
def parseElements : Nat → List Char → Option (List Value × List Char)
  | 0, _ => none
  | n + 1, t => do
    let (v, r) ← parseValue n t
    match expect ',' r with
    | some r => do
      let (vs, r) ← parseElements n r
      some (v :: vs, r)
    | none => do
      let r ← expect ']' r
      some ([v], r)

end

/-- A text is one value, with white space around it. -/
def parse (t : List Char) : Option Value := do
  let (v, r) ← parseValue (t.length + 1) t
  if skipWs r = [] then some v else none

end Jellybean.Json
