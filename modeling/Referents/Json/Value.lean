import Referents.Decimal.Shortest

/-!
# JSON text

Values with named fields in the order in which they are written, and their
compact text: no blanks, the shortest form of every number, and escapes only
where JSON asks for them.
-/

namespace Referents

/-- A JSON value whose fields keep their order. -/
inductive JsonValue where
  | null
  | bool (b : Bool)
  | int (i : Int)
  | double (x : Float)
  | str (s : String)
  | array (items : List JsonValue)
  | object (fields : List (String × JsonValue))

namespace JsonValue

/-- A natural number. -/
def nat (n : Nat) : JsonValue := .int n

/-- The two hexadecimal digits of a small code. -/
def hexPair (n : Nat) : String :=
  String.ofList [Nat.digitChar (n / 16), Nat.digitChar (n % 16)]

/-- A character inside a quoted string. -/
def escape (c : Char) : String :=
  match c with
  | '"' => "\\\""
  | '\\' => "\\\\"
  | '\n' => "\\n"
  | '\r' => "\\r"
  | '\t' => "\\t"
  | '\x08' => "\\b"
  | '\x0c' => "\\f"
  | c => if c.toNat < 32 then "\\u00" ++ hexPair c.toNat else c.toString

/-- A quoted string. -/
def quote (s : String) : String := "\"" ++ String.join (s.toList.map escape) ++ "\""

/-- How numbers are laid out: those whose first digit stands between these
powers of ten are written without an exponent. -/
structure NumberLayout where
  leastPositional : Int
  greatestPositional : Int

/-- Numbers from `10^-5` up to but not including `10^16` have no exponent. -/
def numberLayout : NumberLayout := ⟨-5, 15⟩

/-- Lays out the shortest decimal of a magnitude; a number without an exponent
has at least one digit on either side of the point, and an exponent always has
a sign. -/
def NumberLayout.text (layout : NumberLayout) (d : Decimal.Scaled) : String :=
  let digits := Nat.toDigits 10 d.digits
  let point : Int := digits.length + d.exponent
  let leading := point - 1
  let zeros (n : Int) : List Char := List.replicate n.toNat '0'
  if d.digits = 0 then "0.0"
  else if layout.leastPositional ≤ leading && leading ≤ layout.greatestPositional then
    if 0 ≤ d.exponent then String.ofList (digits ++ zeros d.exponent) ++ ".0"
    else if 0 < point then
      String.ofList (digits.take point.toNat ++ '.' :: digits.drop point.toNat)
    else "0." ++ String.ofList (zeros (-point) ++ digits)
  else
    let mantissa :=
      match digits with
      | [c] => c.toString
      | c :: rest => String.ofList (c :: '.' :: rest)
      | [] => "0"
    let sign := if 0 < leading then "+" else ""
    s!"{mantissa}e{sign}{leading}"

/-- The text of a double; JSON has none for infinities and for what is not a number. -/
def doubleText (x : Float) : String :=
  match Decimal.Double.of x with
  | .finite negative b => (if negative then "-" else "") ++ numberLayout.text b.shortest
  | _ => "null"

mutual

/-- The compact text of a value. -/
def text : JsonValue → String
  | .null => "null"
  | .bool b => if b then "true" else "false"
  | .int i => toString i
  | .double x => doubleText x
  | .str s => quote s
  | .array items => "[" ++ ",".intercalate (texts items) ++ "]"
  | .object fields => "\x7b" ++ ",".intercalate (fieldTexts fields) ++ "\x7d"

/-- The texts of the items of an array. -/
def texts : List JsonValue → List String
  | [] => []
  | v :: rest => v.text :: texts rest

/-- The texts of the fields of an object. -/
def fieldTexts : List (String × JsonValue) → List String
  | [] => []
  | (name, v) :: rest => (quote name ++ ":" ++ v.text) :: fieldTexts rest

end

end JsonValue

end Referents
