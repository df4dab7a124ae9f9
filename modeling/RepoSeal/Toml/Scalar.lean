import RepoSeal.Toml.Text
import RepoSeal.Toml.Value

/-!
# RepoSeal — TOML scalars without quotes

Numbers, truth values and points in time are words of letters, digits and a few signs, and a word
ends where no such character follows. A point in time may have a blank between its day and its hour.
-/

namespace RepoSeal.Toml

/-- Whether a character may stand in a scalar without quotes. -/
def isWordChar (c : Char) : Bool :=
  c.isAlphanum || c == '+' || c == '-' || c == '_' || c == '.' || c == ':'

/-! ## Numbers -/

/-- The digits of a number that may have a single underscore between two of its digits. -/
def digitRun (isDigit : Char → Bool) : List Char → Option (List Char)
  | [] => none
  | [c] => if isDigit c then some [c] else none
  | c :: '_' :: rest => if isDigit c then (digitRun isDigit rest).map (c :: ·) else none
  | c :: rest => if isDigit c then (digitRun isDigit rest).map (c :: ·) else none

/-- The digits of a decimal number, which begins with a zero only if it is zero. -/
def decimalRun (cs : List Char) : Option (List Char) :=
  match cs with
  | '0' :: _ :: _ => none
  | _ => digitRun Char.isDigit cs

def maxInteger : Nat := 0x7fffffffffffffff

/-- The integer with the given digits, if it is not too great. -/
def unsigned? (base : Nat) (isDigit : Char → Bool) (cs : List Char) : Option Int :=
  (digitRun isDigit cs).bind fun digits =>
    let n := ofDigits base digits
    if n ≤ maxInteger then some n else none

/-- The integer that a word writes: decimal with or without a sign, or without one in another base. -/
def integer? : List Char → Option Int
  | '0' :: 'x' :: rest => unsigned? 16 isHexDigit rest
  | '0' :: 'o' :: rest => unsigned? 8 (fun c => '0' ≤ c && c ≤ '7') rest
  | '0' :: 'b' :: rest => unsigned? 2 (fun c => c == '0' || c == '1') rest
  | '-' :: rest => (decimalRun rest).bind fun digits =>
      let n := ofDigits 10 digits
      if n ≤ maxInteger + 1 then some (-n) else none
  | '+' :: rest => positive rest
  | cs => positive cs
where
  positive (cs : List Char) : Option Int :=
    (decimalRun cs).bind fun digits =>
      let n := ofDigits 10 digits
      if n ≤ maxInteger then some n else none

/-- Whether `m * 10 ^ e` is nearer to `2 ^ 1024` than to any smaller number with a mantissa of
fifty-three bits, or as near: there is then no finite number for it. -/
def isOverflow (digits : List Char) (e : Int) : Bool :=
  let significant := digits.dropWhile (· == '0')
  let magnitude := significant.length + e
  if significant.isEmpty || magnitude < 309 then false
  else if 310 < magnitude then true
  else
    let m := ofDigits 10 significant
    let limit := Nat.pow 2 1024 - Nat.pow 2 970
    if 0 ≤ e then decide (limit ≤ m * Nat.pow 10 e.toNat)
    else decide (limit * Nat.pow 10 (-e).toNat ≤ m)

/-- A word without its sign, and whether that is a minus. -/
def unsign : List Char → Bool × List Char
  | '-' :: rest => (true, rest)
  | '+' :: rest => (false, rest)
  | cs => (false, cs)

/-- The exponent that a word writes, if it is one. -/
def exponent? (cs : List Char) : Option Int :=
  let (minus, digits) := unsign cs
  (digitRun Char.isDigit digits).map fun ds =>
    let n : Int := ofDigits 10 ds
    if minus then -n else n

def isExponentMark (c : Char) : Bool := c == 'e' || c == 'E'

/-- Whether a word is a floating-point number. No number may be too great for a finite one, but
one below zero may be too small. -/
def isFloat (cs : List Char) : Bool :=
  let (minus, cs) := unsign cs
  if cs = ['i', 'n', 'f'] || cs = ['n', 'a', 'n'] then true
  else
    let mantissa := cs.takeWhile (!isExponentMark ·)
    let whole := mantissa.takeWhile (· != '.')
    let fraction? : Option (List Char) := match mantissa.drop whole.length with
      | [] => some []
      | _ :: rest => digitRun Char.isDigit rest
    let exponent? : Option Int := match cs.drop mantissa.length with
      | [] => some 0
      | _ :: rest => Toml.exponent? rest
    match decimalRun whole, fraction?, exponent? with
    | some whole', some fraction, some e =>
      whole.length < cs.length && (minus || !isOverflow (whole' ++ fraction) (e - fraction.length))
    | _, _, _ => false

/-! ## Points in time -/

/-- The number that two digits write, if it is in a range. -/
def twoDigits? (least greatest : Nat) (a b : Char) : Option Nat :=
  if a.isDigit && b.isDigit then
    let n := ofDigits 10 [a, b]
    if least ≤ n && n ≤ greatest then some n else none
  else none

def daysOf (year month : Nat) : Nat :=
  if month = 2 then
    if year % 4 = 0 && (year % 100 ≠ 0 || year % 400 = 0) then 29 else 28
  else if month ∈ [4, 6, 9, 11] then 30
  else 31

/-- Leaves out a day at the front of a word. -/
def afterDay? : List Char → Option (List Char)
  | y₁ :: y₂ :: y₃ :: y₄ :: '-' :: m₁ :: m₂ :: '-' :: d₁ :: d₂ :: rest =>
    if [y₁, y₂, y₃, y₄].all Char.isDigit then do
      let month ← twoDigits? 1 12 m₁ m₂
      let _ ← twoDigits? 1 (daysOf (ofDigits 10 [y₁, y₂, y₃, y₄]) month) d₁ d₂
      return rest
    else none
  | _ => none

/-- Leaves out a time of day, to the second or finer, at the front of a word. -/
def afterTime? : List Char → Option (List Char)
  | h₁ :: h₂ :: ':' :: m₁ :: m₂ :: ':' :: s₁ :: s₂ :: rest => do
    let _ ← twoDigits? 0 23 h₁ h₂
    let _ ← twoDigits? 0 59 m₁ m₂
    let _ ← twoDigits? 0 60 s₁ s₂
    match rest with
    | '.' :: c :: rest' => if c.isDigit then some (rest'.dropWhile Char.isDigit) else none
    | rest => some rest
  | _ => none

/-- Whether a word is the distance of a local time from the universal one. -/
def isOffset : List Char → Bool
  | [c] => c == 'Z' || c == 'z'
  | [sign, h₁, h₂, ':', m₁, m₂] =>
    (sign == '+' || sign == '-') && (twoDigits? 0 23 h₁ h₂).isSome && (twoDigits? 0 59 m₁ m₂).isSome
  | _ => false

/-- Whether a word is a time of day, with or without an offset. -/
def isZonedTime (cs : List Char) : Bool :=
  match afterTime? cs with
  | some [] => true
  | some rest => isOffset rest
  | none => false

/-- Whether a word is a day, a time of day or both. -/
def isMoment (cs : List Char) : Bool :=
  match afterDay? cs with
  | some [] => true
  | some (c :: rest) => (c == 'T' || c == 't') && isZonedTime rest
  | none => afterTime? cs == some []

/-! ## Reading -/

def ofWord? (cs : List Char) : Option Value :=
  if cs = ['t', 'r', 'u', 'e'] then some (.boolean true)
  else if cs = ['f', 'a', 'l', 's', 'e'] then some (.boolean false)
  else
    match integer? cs with
    | some n => some (.integer n)
    | none =>
      if isFloat cs then some (.float cs)
      else if isMoment cs then some (.moment cs)
      else none

/-- Reads a scalar without quotes. -/
def readScalar (cs : List Char) : Option (Value × List Char) :=
  let word := cs.takeWhile isWordChar
  let rest := cs.dropWhile isWordChar
  let time := (rest.drop 1).takeWhile isWordChar
  if afterDay? word = some [] && rest.head? == some ' ' && !time.isEmpty then
    if isZonedTime time then
      some (.moment (word ++ ' ' :: time), (rest.drop 1).dropWhile isWordChar)
    else none
  else (ofWord? word).map fun v => (v, rest)

end RepoSeal.Toml
