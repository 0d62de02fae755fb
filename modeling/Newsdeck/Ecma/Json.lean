import Newsdeck.Ecma.Text
import Mathlib.Data.ENat.Basic
import Mathlib.Data.Int.Log
import Mathlib.Data.Rat.Floor
import Mathlib.Algebra.Order.Field.Rat

/-!
# JSON values, `JSON.parse` and `JSON.stringify`

A value tree, the ECMA-404 recursive-descent reader with the number semantics of `JSON.parse`
(`doubleOf`: a numeral denotes the binary64 number nearest to it), and the writer
`JSON.stringify(value, null, gap)` with its well-formed escaping of lone surrogates.

The reader carries a fuel argument, which `parse` sets to the length of the text: every nested call
has consumed at least one unit.
-/

namespace Ecma

/-- What `JSON.parse` returns.  Of an overflowing numeral only its being infinite is kept. -/
inductive Json where
  | null : Json
  | bool : Bool → Json
  | num : ℚ → Json
  | infinite : Json
  | str : Text → Json
  | arr : List Json → Json
  | obj : List (Text × Json) → Json

namespace Json

/-- `value[key]` on an object: of several members with one key the last one counts. -/
def get? (members : List (Text × Json)) (key : Text) : Option Json :=
  (members.reverse.find? fun m => m.1 = key).map Prod.snd

@[simp] theorem get?_nil (key : Text) : get? [] key = none := rfl

@[simp] theorem get?_cons (k : Text) (v : Json) (ms : List (Text × Json)) (key : Text) :
    get? ((k, v) :: ms) key = (get? ms key).or (if k = key then some v else none) := by
  unfold get?
  rw [List.reverse_cons, List.find?_append]
  by_cases h : k = key <;> cases List.find? (fun m => decide (m.1 = key)) ms.reverse <;> simp [h]

/-! ### Numbers -/

/-- Round a non-negative rational to an integer, ties to even. -/
def roundHalfEven (q : ℚ) : ℤ :=
  let f := ⌊q⌋
  let r := q - f
  if r < 1 / 2 then f else if 1 / 2 < r then f + 1 else if f % 2 = 0 then f else f + 1

/-- The binary64 number nearest to `q`, `none` when it overflows. -/
def doubleOf (q : ℚ) : Option ℚ :=
  let ulp : ℤ := max (-1074) (Int.log 2 |q| - 52)
  let v := (roundHalfEven (|q| / 2 ^ ulp) : ℚ) * 2 ^ ulp
  if 2 ^ 1024 ≤ v then none else some (if q < 0 then -v else v)

def isDigit (c : ℕ) : Bool := 48 ≤ c && c < 58

/-- The number a run of decimal digits denotes. -/
def digitsValue (ds : Text) : ℕ := ds.foldl (fun v c => 10 * v + (c - 48)) 0

/-- `Number(digits)` for a run of decimal digits: the nearest double, or infinity. -/
def numberOfDigits (ds : Text) : ℕ∞ :=
  match doubleOf (digitsValue ds) with
  | some v => (v.num.toNat : ℕ)
  | none => ⊤

/-- `-?(0|[1-9][0-9]*)`, without the sign: the digits and what follows. -/
def parseInt (t : Text) : Option (Text × Text) :=
  let ds := t.takeWhile isDigit
  if ds = [] || (ds.head? = some 48 && 1 < ds.length) then none
  else some (ds, t.dropWhile isDigit)

/-- The optional fraction `.[0-9]+`. -/
def parseFraction : Text → Option (Text × Text)
  | 46 :: t =>
      let ds := t.takeWhile isDigit
      if ds = [] then none else some (ds, t.dropWhile isDigit)
  | t => some ([], t)

/-- The optional exponent `[eE][+-]?[0-9]+`. -/
def parseExponent : Text → Option (ℤ × Text)
  | c :: t =>
      if c = 101 || c = 69 then
        let neg := t.head? = some 45
        let u := if t.head? = some 45 || t.head? = some 43 then t.tail else t
        let ds := u.takeWhile isDigit
        if ds = [] then none
        else some (if neg then -(digitsValue ds : ℤ) else digitsValue ds, u.dropWhile isDigit)
      else some (0, c :: t)
  | [] => some (0, [])

def ofDouble : Option ℚ → Json
  | some v => .num v
  | none => .infinite

/-- A numeral, read as the double nearest to it. -/
def parseNumber (t : Text) : Option (Json × Text) := do
  let neg := t.head? = some 45
  let (int, t) ← parseInt (if neg then t.tail else t)
  let (frac, t) ← parseFraction t
  let (exp, t) ← parseExponent t
  let value : ℚ := (digitsValue (int ++ frac) : ℚ) * 10 ^ (exp - frac.length)
  some (ofDouble (doubleOf (if neg then -value else value)), t)

/-! ### Strings -/

def hexValue (c : ℕ) : Option ℕ :=
  if 48 ≤ c && c < 58 then some (c - 48)
  else if 97 ≤ c && c < 103 then some (c - 87)
  else if 65 ≤ c && c < 71 then some (c - 55)
  else none

/-- The unit a two-character escape stands for. -/
def unescape (c : ℕ) : Option ℕ :=
  if c = 34 then some 34
  else if c = 92 then some 92
  else if c = 47 then some 47
  else if c = 98 then some 8
  else if c = 102 then some 12
  else if c = 110 then some 10
  else if c = 114 then some 13
  else if c = 116 then some 9
  else none

/-- The body of a string literal, up to its closing quotation mark. -/
def parseChars : Text → Option (Text × Text)
  | [] => none
  | c :: t =>
      if c = 34 then some ([], t)
      else if c = 92 then
        match t with
        | [] => none
        | e :: u =>
            if e = 117 then
              match u with
              | a :: b :: c :: d :: rest => do
                  let a ← hexValue a
                  let b ← hexValue b
                  let c ← hexValue c
                  let d ← hexValue d
                  let (s, r) ← parseChars rest
                  some ((4096 * a + 256 * b + 16 * c + d) :: s, r)
              | _ => none
            else do
              let v ← unescape e
              let (s, r) ← parseChars u
              some (v :: s, r)
      else if c < 32 then none
      else do
        let (s, r) ← parseChars t
        some (c :: s, r)

/-! ### Values -/

def isSpace (c : ℕ) : Bool := c = 32 || c = 9 || c = 10 || c = 13

def skipSpace (t : Text) : Text := t.dropWhile isSpace

mutual

/-- One value. -/
def parseValue : ℕ → Text → Option (Json × Text)
  | 0, _ => none
  | n + 1, t =>
      match skipSpace t with
      | [] => none
      | c :: r =>
          if c = 123 then
            match skipSpace r with
            | 125 :: u => some (.obj [], u)
            | u => (parseMembers n u).map fun p => (.obj p.1, p.2)
          else if c = 91 then
            match skipSpace r with
            | 93 :: u => some (.arr [], u)
            | u => (parseItems n u).map fun p => (.arr p.1, p.2)
          else if c = 34 then (parseChars r).map fun p => (.str p.1, p.2)
          else if (lit "true").isPrefixOf (c :: r) then some (.bool true, r.drop 3)
          else if (lit "false").isPrefixOf (c :: r) then some (.bool false, r.drop 4)
          else if (lit "null").isPrefixOf (c :: r) then some (.null, r.drop 3)
          else parseNumber (c :: r)

/-- The items of a non-empty array, and its closing bracket. -/
def parseItems : ℕ → Text → Option (List Json × Text)
  | 0, _ => none
  | n + 1, t => do
      let (v, t) ← parseValue n t
      match skipSpace t with
      | 44 :: u => do
          let (vs, u) ← parseItems n u
          some (v :: vs, u)
      | 93 :: u => some ([v], u)
      | _ => none

/-- The members of a non-empty object, and its closing brace. -/
def parseMembers : ℕ → Text → Option (List (Text × Json) × Text)
  | 0, _ => none
  | n + 1, t =>
      match skipSpace t with
      | 34 :: u => do
          let (k, u) ← parseChars u
          match skipSpace u with
          | 58 :: u => do
              let (v, u) ← parseValue n u
              match skipSpace u with
              | 44 :: w => do
                  let (ms, w) ← parseMembers n w
                  some ((k, v) :: ms, w)
              | 125 :: w => some ([(k, v)], w)
              | _ => none
          | _ => none
      | _ => none

end

/-- `JSON.parse(text)`; `none` is its `SyntaxError`. -/
def parse (t : Text) : Option Json :=
  match parseValue (t.length + 1) t with
  | some (v, rest) => if skipSpace rest = [] then some v else none
  | none => none

/-! ### Writing -/

def hexDigit (d : ℕ) : ℕ := if d < 10 then 48 + d else 87 + d

/-- The escape of a unit by number, `\uXXXX`. -/
def unicodeEscape (c : ℕ) : Text :=
  [92, 117, hexDigit (c / 4096 % 16), hexDigit (c / 256 % 16), hexDigit (c / 16 % 16),
    hexDigit (c % 16)]

/-- One unit that is not a surrogate. -/
def escapeUnit (c : ℕ) : Text :=
  if c = 34 then [92, 34]
  else if c = 92 then [92, 92]
  else if c = 8 then [92, 98]
  else if c = 12 then [92, 102]
  else if c = 10 then [92, 110]
  else if c = 13 then [92, 114]
  else if c = 9 then [92, 116]
  else if c < 32 then unicodeEscape c
  else [c]

def isHighSurrogate (c : ℕ) : Bool := 55296 ≤ c && c < 56320

def isLowSurrogate (c : ℕ) : Bool := 56320 ≤ c && c < 57344

/-- The body of a string literal: a surrogate pair is kept, a lone surrogate is escaped. -/
def quoteUnits : Text → Text
  | [] => []
  | c :: t =>
      if isHighSurrogate c then
        match t with
        | d :: u =>
            if isLowSurrogate d then c :: d :: quoteUnits u
            else unicodeEscape c ++ quoteUnits (d :: u)
        | [] => unicodeEscape c
      else if isLowSurrogate c then unicodeEscape c ++ quoteUnits t
      else escapeUnit c ++ quoteUnits t

def quote (t : Text) : Text := 34 :: quoteUnits t ++ [34]

/-- `String(v)` for a finite number. -/
def numeral [Host] (v : ℚ) : Text :=
  if v.den = 1 ∧ v.num.natAbs < 10 ^ 21 then
    if v.num < 0 then 45 :: decimal v.num.natAbs else decimal v.num.natAbs
  else Host.numberToString v

/-- The line break and indentation of depth `depth`; nothing when there is no gap. -/
def newlineAt (gap depth : ℕ) : Text :=
  if gap = 0 then [] else 10 :: List.replicate (gap * depth) 32

/-- The colon after a key. -/
def colon (gap : ℕ) : Text := if gap = 0 then [58] else [58, 32]

mutual

/-- The value at nesting depth `depth`. -/
def write [Host] (gap depth : ℕ) : Json → Text
  | .null => lit "null"
  | .bool true => lit "true"
  | .bool false => lit "false"
  | .num v => numeral v
  | .infinite => lit "null"
  | .str t => quote t
  | .arr [] => lit "[]"
  | .arr (v :: vs) =>
      91 :: newlineAt gap (depth + 1) ++ write gap (depth + 1) v ++ writeItems gap (depth + 1) vs
        ++ newlineAt gap depth ++ [93]
  | .obj [] => [123, 125]
  | .obj ((k, v) :: ms) =>
      123 :: newlineAt gap (depth + 1) ++ quote k ++ colon gap ++ write gap (depth + 1) v
        ++ writeMembers gap (depth + 1) ms ++ newlineAt gap depth ++ [125]

def writeItems [Host] (gap depth : ℕ) : List Json → Text
  | [] => []
  | v :: vs => 44 :: newlineAt gap depth ++ write gap depth v ++ writeItems gap depth vs

def writeMembers [Host] (gap depth : ℕ) : List (Text × Json) → Text
  | [] => []
  | (k, v) :: ms =>
      44 :: newlineAt gap depth ++ quote k ++ colon gap ++ write gap depth v
        ++ writeMembers gap depth ms

end

/-- `JSON.stringify(value, null, gap)`. -/
def stringify [Host] (gap : ℕ) (v : Json) : Text := write gap 0 v

end Json

end Ecma
