import LowPrecision.Tensor.Basic

namespace LowPrecision.Json

inductive ReadError where
  | malformed
  | tensor (error : TensorError)
  deriving DecidableEq

abbrev Reader (β : Type) := StateT (List Char) (Attempt ReadError) β

inductive RecordForm where
  | named | listed
  deriving DecidableEq

namespace Reader

variable {β γ σ : Type}

def malformed : Reader β := throw .malformed

def required : Option β → Reader β
  | some x => return x
  | none => malformed

def isBlank (c : Char) : Bool := c = ' ' || c = '\t' || c = '\n' || c = '\r'

def peek : Reader (Option Char) := do
  let rest := (← get).dropWhile isBlank
  set rest
  return rest.head?

def next : Reader Char := do
  match ← get with
  | c :: rest => set rest; return c
  | [] => malformed

def accept (c : Char) : Reader Bool := do
  if (← peek) = some c then
    let _ ← next
    return true
  else return false

def token (c : Char) : Reader Unit := do
  unless ← accept c do malformed

def word (w : String) : Reader Unit := do
  let _ ← peek
  for c in w.toList do
    unless (← next) = c do malformed

def repeatWithin (step : σ → Reader (σ ⊕ β)) : Nat → σ → Reader β
  | 0, _ => malformed
  | bound + 1, s => do
    match ← step s with
    | .inl s => repeatWithin step bound s
    | .inr x => return x

def iterate (step : σ → Reader (σ ⊕ β)) (start : σ) : Reader β := do
  repeatWithin step ((← get).length + 1) start

def foldItems (close : Char) (item : σ → Reader σ) (start : σ) : Reader σ := do
  if ← accept close then return start
  iterate (fun s => do
    let s ← item s
    if ← accept close then return .inr s
    token ','
    return .inl s) start

def list (item : Reader β) : Reader (List β) := do
  token '['
  List.reverse <$> foldItems ']' (fun xs => (· :: xs) <$> item) []

section Strings

def hexDigit (c : Char) : Reader Nat :=
  if c.isDigit then return c.toNat - '0'.toNat
  else if 'a' ≤ c && c ≤ 'f' then return c.toNat - 'a'.toNat + 10
  else if 'A' ≤ c && c ≤ 'F' then return c.toNat - 'A'.toNat + 10
  else malformed

def codeUnit : Reader Nat := do
  let digits ← (List.range 4).mapM fun _ => do hexDigit (← next)
  return digits.foldl (16 * · + ·) 0

def isLeading (unit : Nat) : Bool := 0xd800 ≤ unit && unit ≤ 0xdbff

def isTrailing (unit : Nat) : Bool := 0xdc00 ≤ unit && unit ≤ 0xdfff

def character : Reader Char := do
  let unit ← codeUnit
  if isTrailing unit then malformed
  else if isLeading unit then
    unless (← next) = '\\' do malformed
    unless (← next) = 'u' do malformed
    let second ← codeUnit
    unless isTrailing second do malformed
    return Char.ofNat (0x10000 + (unit - 0xd800) * 0x400 + (second - 0xdc00))
  else return Char.ofNat unit

def escape (unicode : Reader Char) : Reader Char := do
  match ← next with
  | '"' => return '"'
  | '\\' => return '\\'
  | '/' => return '/'
  | 'b' => return '\x08'
  | 'f' => return '\x0c'
  | 'n' => return '\n'
  | 'r' => return '\r'
  | 't' => return '\t'
  | 'u' => unicode
  | _ => malformed

def quoted (unicode : Reader Char) : Reader String := do
  token '"'
  iterate (fun cs => do
    match ← next with
    | '"' => return .inr (String.ofList cs.reverse)
    | '\\' => return .inl ((← escape unicode) :: cs)
    | c => if c.toNat < 0x20 then malformed else return .inl (c :: cs)) []

def string : Reader String := quoted character

end Strings

section Skipping

def takeDigits : Reader (List Char) := do
  let text ← get
  set (text.dropWhile Char.isDigit)
  return text.takeWhile Char.isDigit

def someDigits : Reader (List Char) := do
  let digits ← takeDigits
  if digits.isEmpty then malformed else return digits

def wholeDigits : Reader (List Char) := do
  let digits ← someDigits
  if digits.head? = some '0' && 1 < digits.length then malformed else return digits

def acceptAny (choices : List Char) : Reader (Option Char) := do
  match ← get with
  | c :: rest => if c ∈ choices then set rest; return some c else return none
  | [] => return none

def fractionDigits : Reader (List Char) := do
  if (← acceptAny ['.']).isSome then someDigits else return []

def exponentDigits : Reader (Option (Bool × List Char)) := do
  if (← acceptAny ['e', 'E']).isSome then
    let sign ← acceptAny ['+', '-']
    return some (sign = some '-', ← someDigits)
  else return none

def skipNumber : Reader Unit := do
  let _ ← accept '-'
  let _ ← wholeDigits
  let _ ← fractionDigits
  let _ ← exponentDigits

def skipString : Reader Unit := do
  let _ ← quoted (Char.ofNat <$> codeUnit)

def skipWithin : Nat → Reader Unit
  | 0 => malformed
  | depth + 1 => do
    match ← peek with
    | some 'n' => word "null"
    | some 't' => word "true"
    | some 'f' => word "false"
    | some '"' => skipString
    | some '[' =>
      token '['
      foldItems ']' (fun _ => skipWithin depth) ()
    | some '\x7b' =>
      token '\x7b'
      foldItems '\x7d' (fun _ => do skipString; token ':'; skipWithin depth) ()
    | _ => skipNumber

def skip : Reader Unit := do skipWithin ((← get).length + 1)

end Skipping

section Records

structure Field (σ : Type) where
  name : String
  isPresent : σ → Bool
  read : σ → Reader σ

def member (fields : List (Field σ)) (parts : σ) : Reader σ := do
  let name ← string
  token ':'
  match fields.find? (·.name = name) with
  | none => skip; return parts
  | some field => if field.isPresent parts then malformed else field.read parts

def inOrder : List (Field σ) → Bool → σ → Reader σ
  | [], _, parts => do token ']'; return parts
  | field :: fields, isFirst, parts => do
    if ← accept ']' then return parts
    unless isFirst do token ','
    inOrder fields false (← field.read parts)

def record (fields : List (Field σ)) (start : σ) : Reader (RecordForm × σ) := do
  if ← accept '[' then return (.listed, ← inOrder fields true start)
  token '\x7b'
  return (.named, ← foldItems '\x7d' (member fields) start)

def single (name : String) (value : Reader β) : Reader β := do
  let (_, part) ← record [⟨name, Option.isSome, fun _ => some <$> value⟩] none
  required part

def twoParts (first second : String) (x : Reader β) (y : Reader γ) :
    Reader (RecordForm × Option β × Option γ) :=
  record [⟨first, fun parts => parts.1.isSome, fun parts => do return (some (← x), parts.2)⟩,
    ⟨second, fun parts => parts.2.isSome, fun parts => do return (parts.1, some (← y))⟩]
    (none, none)

def pair (first second : String) (x : Reader β) (y : Reader γ) : Reader (β × γ) := do
  let (_, x, y) ← twoParts first second x y
  return (← required x, ← required y)

end Records

def choice (plain : String → Option β) (contents : String → Reader β) : Reader β := do
  if ← accept '\x7b' then
    let name ← string
    token ':'
    let value ← match plain name with
      | some value => do word "null"; pure value
      | none => contents name
    token '\x7d'
    return value
  else required (plain (← string))

def named (plain : String → Option β) : Reader β := choice plain fun _ => malformed

def bool : Reader Bool := do
  match ← peek with
  | some 't' => word "true"; return true
  | _ => word "false"; return false

def orNull (value : Reader β) : Reader (Option β) := do
  if (← peek) = some 'n' then word "null"; return none
  else some <$> value

def parse (value : Reader β) (text : String) : Attempt ReadError β := do
  let (x, rest) ← (do let x ← value; let _ ← peek; return x : Reader β).run text.toList
  if rest.isEmpty then return x else throw .malformed

end Reader

end LowPrecision.Json
