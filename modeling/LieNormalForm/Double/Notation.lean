import LieNormalForm.Double.Shortest

/-!
# Written doubles

`Layout` collects what a written form decides: whether whole numbers show a point and
which decimal exponents leave the positional form. `write` lays the shortest digits out,
`read?` accepts a sign, digits with at most one point and an optional exponent, and the
words for infinity and for no number at all.
-/

namespace LieNormalForm.Double

/-- The decisions of a written form. -/
structure Layout where
  /-- Whole numbers end in `.0`. -/
  pointZero : Bool
  /-- Leading digits at `10^e` with `lowest ≤ e < highest` are written positionally;
  without bounds all are. -/
  positional : Option (Int × Int)

/-- Positional for every exponent, whole numbers without a point. -/
def plainLayout : Layout := ⟨false, none⟩

/-- Positional from `10⁻⁴` to below `10¹⁶`, whole numbers with a point. -/
def markedLayout : Layout := ⟨true, some (-4, 16)⟩

def zeros (n : Nat) : List Char := List.replicate n '0'

theorem zeros_length (n : Nat) : (zeros n).length = n := List.length_replicate

/-- Digits with the point after `point` of them, which may lie outside the digits. -/
def positionalText (pointZero : Bool) (digits : List Char) (point : Int) : List Char :=
  if point ≤ 0 then ['0', '.'] ++ zeros (-point).toNat ++ digits
  else if digits.length ≤ point.toNat then
    digits ++ zeros (point.toNat - digits.length) ++ (if pointZero then ['.', '0'] else [])
  else digits.take point.toNat ++ ['.'] ++ digits.drop point.toNat

/-- One digit, the others behind a point, and the exponent of the first. -/
def exponentText (digits : List Char) (e : Int) : List Char :=
  let tail := if digits.length ≤ 1 then [] else '.' :: digits.drop 1
  digits.take 1 ++ tail ++ ['e'] ++ (toString e).toList

def Layout.ofDecimal (layout : Layout) (d : Decimal) : List Char :=
  let digits := Nat.toDigits 10 d.digits
  let point := d.exponent + digits.length
  let inside := match layout.positional with
    | none => true
    | some (lowest, highest) => decide (lowest ≤ point - 1) && decide (point - 1 < highest)
  if inside then positionalText layout.pointZero digits point else exponentText digits (point - 1)

/-- The text of a double: the shortest digits that read back, laid out. -/
def write (layout : Layout) (x : Float) : String :=
  if x.isNaN then "NaN"
  else
    let sign := if x.toBits >>> 63 == 1 then "-" else ""
    if x.isInf then sign ++ "inf"
    else if x == 0.0 then sign ++ (if layout.pointZero then "0.0" else "0")
    else sign ++ String.ofList (layout.ofDecimal (shortest (Dyadic.ofBits x.toBits)))

def isDecimalDigit (c : Char) : Bool := '0' ≤ c && c ≤ '9'

/-- The number a row of digits stands for. -/
def digitsValue (ds : List Char) : Nat := ds.foldl (fun n c => 10 * n + (c.toNat - '0'.toNat)) 0

/-- The double nearest to `m·10^e`; exponents beyond all doubles are not expanded. -/
def ofDecimal (m : Nat) (e : Int) : Float :=
  if m = 0 then 0.0
  else
    let point := e + (Nat.toDigits 10 m).length
    if point < -330 then 0.0
    else if 320 < point then 1.0 / 0.0
    else Float.ofScientific m (e < 0) e.natAbs

/-- A signed row of digits; nothing if there are no digits or something follows them. -/
def readExponent? (cs : List Char) : Option Int :=
  let (negative, ds) := match cs with
    | '-' :: ds => (true, ds)
    | '+' :: ds => (false, ds)
    | ds => (false, ds)
  if ds.isEmpty || !ds.all isDecimalDigit then none
  else some (if negative then -(digitsValue ds : Int) else digitsValue ds)

/-- Digits with at most one point, at least one digit, and an optional exponent. -/
def readMagnitude? (cs : List Char) : Option Float :=
  let whole := cs.takeWhile isDecimalDigit
  let afterWhole := cs.dropWhile isDecimalDigit
  let (fraction, rest) := match afterWhole with
    | '.' :: r => (r.takeWhile isDecimalDigit, r.dropWhile isDecimalDigit)
    | r => ([], r)
  if whole.isEmpty && fraction.isEmpty then none
  else
    let m := digitsValue (whole ++ fraction)
    match rest with
    | [] => some (ofDecimal m (-(fraction.length : Int)))
    | c :: r =>
      if c == 'e' || c == 'E' then
        (readExponent? r).map fun e => ofDecimal m (e - fraction.length)
      else none

/-- The words that stand for infinity and for no number, in lower case. -/
def readWord? (cs : List Char) : Option Float :=
  let word := String.ofList (cs.map Char.toLower)
  if word == "inf" || word == "infinity" then some (1.0 / 0.0)
  else if word == "nan" then some (0.0 / 0.0)
  else none

/-- Reads a written double; the whole text has to be used. -/
def read? (text : String) : Option Float :=
  match text.toList with
  | '-' :: cs => ((readWord? cs).orElse fun _ => readMagnitude? cs).map (-·)
  | '+' :: cs => (readWord? cs).orElse fun _ => readMagnitude? cs
  | cs => (readWord? cs).orElse fun _ => readMagnitude? cs

theorem write_third : write plainLayout (1.0 / 3.0) = "0.3333333333333333" := by decide +kernel

theorem write_large_marked : write markedLayout 1e16 = "1e16" := by decide +kernel

theorem write_large_plain : write plainLayout 1e16 = "10000000000000000" := by decide +kernel

theorem read?_point_only : (read? ".").isNone = true := by decide +kernel

end LieNormalForm.Double
