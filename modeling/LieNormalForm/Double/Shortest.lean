/-!
# The shortest decimal that reads back

A finite double is `m·2^q`. The reals that round to it form an interval around it, from
half way to the neighbour below to half way to the neighbour above, ends included exactly
when `m` is even. `shortest` takes the fewest digits of a decimal in that interval and, of
two such decimals next to the value, the nearer one. All arithmetic is on natural numbers.
-/

namespace LieNormalForm.Double

/-- The power `2^k`. -/
def twoTo (k : Nat) : Nat := Nat.pow 2 k

/-- The power `10^k`. -/
def tenTo (k : Nat) : Nat := Nat.pow 10 k

/-- A finite non-negative double `m·2^q`. -/
structure Dyadic where
  m : Nat
  q : Int
  /-- The gap below the value is half the gap above it. -/
  narrowBelow : Bool

/-- The magnitude that finite bits stand for; the sign bit is ignored. -/
def Dyadic.ofBits (bits : UInt64) : Dyadic :=
  let exponent := ((bits >>> 52) &&& 0x7FF).toNat
  let fraction := (bits &&& 0xFFFFFFFFFFFFF).toNat
  if exponent = 0 then ⟨fraction, -1074, false⟩
  else ⟨twoTo 52 + fraction, (exponent : Int) - 1075, fraction == 0 && exponent > 1⟩

/-- The natural number that the dyadic is exactly, if it is one. -/
def Dyadic.natValue? (x : Dyadic) : Option Nat :=
  let scale := twoTo (-x.q).toNat
  if x.m % scale = 0 then some (x.m / scale * twoTo x.q.toNat) else none

/-- The decimal `digits·10^exponent`. -/
structure Decimal where
  digits : Nat
  exponent : Int
deriving DecidableEq

/-- Compares `a·10^i` with `n·2^j`. -/
def compareScaled (a : Nat) (i : Int) (n : Nat) (j : Int) : Ordering :=
  compare (a * tenTo i.toNat * twoTo (-j).toNat) (n * twoTo j.toNat * tenTo (-i).toNat)

/-- The decimal lies among the reals that round to the dyadic. -/
def Dyadic.readsBack (x : Dyadic) (d : Decimal) : Bool :=
  let low := compareScaled d.digits d.exponent (if x.narrowBelow then 4 * x.m - 1 else 4 * x.m - 2) (x.q - 2)
  let high := compareScaled d.digits d.exponent (4 * x.m + 2) (x.q - 2)
  let ends := x.m % 2 == 0
  (low == .gt || (ends && low == .eq)) && (high == .lt || (ends && high == .eq))

/-- The whole part of `m·2^q / 10^k`. -/
def Dyadic.gridFloor (x : Dyadic) (k : Int) : Nat :=
  (x.m * twoTo x.q.toNat * tenTo (-k).toNat) / (twoTo (-x.q).toNat * tenTo k.toNat)

/-- Of the two neighbours of the value on the grid `10^k`, the nearer one that reads back;
of two equally near ones, the upper. -/
def Dyadic.onGrid? (x : Dyadic) (k : Int) : Option Decimal :=
  let below := x.gridFloor k
  match x.readsBack ⟨below, k⟩, x.readsBack ⟨below + 1, k⟩ with
  | false, false => none
  | true, false => some ⟨below, k⟩
  | false, true => some ⟨below + 1, k⟩
  | true, true =>
    if compareScaled (2 * below + 1) k (2 * x.m) x.q == .gt then some ⟨below, k⟩
    else some ⟨below + 1, k⟩

theorem twoTo_succ (k : Nat) : twoTo (k + 1) = twoTo k * 2 := rfl

theorem tenTo_succ (k : Nat) : tenTo (k + 1) = tenTo k * 10 := rfl

theorem onGrid?_readsBack {x : Dyadic} {k : Int} {d : Decimal} (h : x.onGrid? k = some d) :
    x.readsBack d = true := by
  simp only [Dyadic.onGrid?] at h
  split at h
  · cases h
  · cases h; assumption
  · cases h; assumption
  · split at h <;> (cases h; assumption)

/-- The value lies below `10^s`. -/
def Dyadic.isBelow (x : Dyadic) (s : Int) : Bool := compareScaled 1 s x.m x.q == .gt

/-- The least `s` with the value below `10^s`: the whole part of `1233/4096` of the binary
logarithm, or one of the two numbers after it. -/
def Dyadic.scale (x : Dyadic) : Int :=
  let estimate := ((Nat.log2 x.m : Int) + x.q) * 1233 / 4096
  if x.isBelow estimate then estimate
  else if x.isBelow (estimate + 1) then estimate + 1
  else estimate + 2

/-- Moves trailing zeros of the digits into the exponent. -/
def Decimal.strip : Nat → Decimal → Decimal
  | 0, d => d
  | budget + 1, d =>
    if d.digits ≠ 0 ∧ d.digits % 10 = 0 then strip budget ⟨d.digits / 10, d.exponent + 1⟩ else d

/-- The exact decimal value of a dyadic. -/
def Dyadic.exactDecimal (x : Dyadic) : Decimal :=
  if 0 ≤ x.q then ⟨x.m * twoTo x.q.toNat, 0⟩ else ⟨x.m * Nat.pow 5 (-x.q).toNat, x.q⟩

/-- The first hit among the grids of one to seventeen digits. -/
def shortest (x : Dyadic) : Decimal :=
  let found := (List.range 17).findSome? fun n => x.onGrid? (x.scale - ((n + 1 : Nat) : Int))
  (found.getD x.exactDecimal).strip 20

theorem strip_zero (d : Decimal) : d.strip 0 = d := rfl

theorem shortest_one_tenth : shortest (Dyadic.ofBits (0.1 : Float).toBits) = ⟨1, -1⟩ := by decide +kernel

theorem shortest_tie : shortest (Dyadic.ofBits 0x3E60000000000000) = ⟨29802322387695313, -24⟩ := by
  decide +kernel

theorem shortest_least : shortest (Dyadic.ofBits 1) = ⟨5, -324⟩ := by decide +kernel

end LieNormalForm.Double
