import Mathlib.Tactic.Ring
import LieNormalForm.Double.Complex
import LieNormalForm.Expression.Expand
import LieNormalForm.Proofs.Support.Poly

/-!
# Expansion in 32 bits

Degrees and exponents are natural numbers in the expansion of expressions. Here the expansion runs
once more with every sum and product of degrees and exponents held to 32 bits, and every polynomial
on the way, partial products and squares included, held to the largest degree. Both runs agree: no
guard is ever met, whatever the coefficients and whether or not the expansion succeeds.
-/

namespace LieNormalForm

/-- No term has a total degree above `d`. -/
abbrev Poly.DegreeAtMost {C : Type} (p : Poly C) (d : ℕ) : Prop :=
  p.Supported fun m => m.degree ≤ d

namespace Guarded

open Expression (maxDegree)

/-- A number, as long as it fits in 32 bits. -/
def word (n : ℕ) : Option ℕ := if n < UInt32.size then some n else none

/-- The total degree, added up from the first exponent on. -/
def degree (m : Monomial) : Option ℕ := m.foldlM (fun d e => word (d + e)) 0

def product (m k : Monomial) : Option Monomial :=
  (List.zip m k).mapM fun ab => word (ab.1 + ab.2)

/-- Goes on with the result of a check that has passed. -/
def onOk {A B : Type} (x : Except ParseFault A) (f : A → Option (Except ParseFault B)) :
    Option (Except ParseFault B) :=
  match x with
  | .error fault => some (.error fault)
  | .ok a => f a

section Numbers

theorem word_eq {n : ℕ} (h : n < UInt32.size) : word n = some n := if_pos h

example : word (65536 * 65536) = none := by decide

theorem degree_eq {m : Monomial} (h : m.degree < UInt32.size) : degree m = some m.degree := by
  have hfrom : ∀ (m : Monomial) (d : ℕ), d + m.degree < UInt32.size →
      m.foldlM (fun d e => word (d + e)) d = some (d + m.degree) := by
    intro m
    induction m with
    | nil => simp [Monomial.degree]
    | cons a m ih =>
      intro d hd
      rw [Monomial.degree_cons, ← Nat.add_assoc] at hd ⊢
      simp [List.foldlM_cons, word_eq (Nat.lt_of_le_of_lt (Nat.le_add_right _ _) hd), ih _ hd]
  simpa [degree] using hfrom m 0 (by simpa using h)

theorem product_eq {m k : Monomial} (h : m.degree + k.degree < UInt32.size) :
    product m k = some (m.product k) := by
  unfold product Monomial.product
  induction m generalizing k with
  | nil => simp
  | cons a m ih =>
    cases k with
    | nil => simp
    | cons b k =>
      simp only [Monomial.degree_cons] at h
      have hrest := ih (k := k) (by omega)
      simp [List.mapM_cons, word_eq (show a + b < UInt32.size by omega), hrest]

end Numbers

section Definitions

variable {C W : Type} [Coefficient C W]

/-- A polynomial, as long as its terms stay within the largest degree. -/
def formed (p : Poly C) : Option (Poly C) :=
  if ∀ t ∈ p.terms, t.1.degree ≤ maxDegree then some p else none

def row (x : Term C) (ts : List (Term C)) : Option (List (Term C)) :=
  ts.mapM fun y => (product x.1 y.1).map fun m => (m, x.2 * y.2)

def addRow (q out : Poly C) (x : Term C) : Option (Poly C) := do
  formed ⟨out.nvars, mergeTerms out.terms (← row x q.terms)⟩

def mul (p q : Poly C) : Option (Poly C) := p.terms.foldlM (addRow q) (.zero p.nvars)

def powLoop : ℕ → ℕ → Poly C → Poly C → Option (Poly C)
  | 0, _, result, _ => some result
  | budget + 1, e, result, base =>
    if e = 0 then some result
    else do
      let result' ← (if e % 2 = 1 then mul result base else some result)
      if e / 2 = 0 then some result' else powLoop budget (e / 2) result' (← mul base base)

def pow (p : Poly C) (e : ℕ) : Option (Poly C) := do
  powLoop e e (← formed (.constant p.nvars 1)) p

def degree? (p : Poly C) : Option (Option ℕ) :=
  (p.terms.mapM fun t => degree t.1).map List.max?

def degreeOf (p : Poly C) : Option ℕ := (degree? p).map (Option.getD · 0)

end Definitions

section Polynomials

variable {C W : Type} [Coefficient C W] {p q : Poly C} {d e : ℕ}

theorem formed_eq (h : p.DegreeAtMost maxDegree) : formed p = some p := if_pos h

theorem lt_size_of_le (h : d ≤ maxDegree) : d < UInt32.size :=
  Nat.lt_of_le_of_lt h (by decide)

theorem row_eq {x : Term C} {ts : List (Term C)} (hx : x.1.degree ≤ d)
    (hts : ∀ t ∈ ts, t.1.degree ≤ e) (h : d + e ≤ maxDegree) :
    row x ts = some (Poly.row x none ts) := by
  have hproduct : ∀ y ∈ ts, (product x.1 y.1).map (fun m => (m, x.2 * y.2)) =
      some (x.1.product y.1, x.2 * y.2) := by
    intro y hy
    have hyd := hts y hy
    rw [product_eq (lt_size_of_le (by omega)), Option.map_some]
  simp [row, Poly.row_none, mapM_eq_pure hproduct]

theorem addRow_eq {out : Poly C} {x : Term C} (hx : x.1.degree ≤ d) (hq : q.DegreeAtMost e)
    (h : d + e ≤ maxDegree) (hout : out.DegreeAtMost maxDegree) :
    addRow q out x = some ⟨out.nvars, mergeTerms out.terms (Poly.row x none q.terms)⟩ ∧
      (⟨out.nvars, mergeTerms out.terms (Poly.row x none q.terms)⟩ : Poly C).DegreeAtMost
        maxDegree := by
  have hrow : ∀ t ∈ Poly.row x none q.terms, t.1.degree ≤ maxDegree := by
    intro t ht
    obtain ⟨y, hy, rfl⟩ := List.mem_map.1 ht
    have hyd := hq y (List.mem_of_mem_filter hy)
    have hle := Monomial.degree_product_le x.1 y.1
    exact hle.trans ((Nat.add_le_add hx hyd).trans h)
  have hmerged := forall_mergeTerms (P := fun m => m.degree ≤ maxDegree) hout hrow
  refine ⟨?_, hmerged⟩
  rw [addRow, row_eq hx hq h]
  exact formed_eq hmerged

theorem mul_eq (hp : p.DegreeAtMost d) (hq : q.DegreeAtMost e) (h : d + e ≤ maxDegree) :
    mul p q = some (p * q) := by
  have hfold : ∀ (xs : List (Term C)) (out : Poly C), (∀ x ∈ xs, x.1.degree ≤ d) →
      out.DegreeAtMost maxDegree → xs.foldlM (addRow q) out =
        some ⟨out.nvars,
          xs.foldl (fun acc x => mergeTerms acc (Poly.row x none q.terms)) out.terms⟩ := by
    intro xs
    induction xs with
    | nil => exact fun _ _ _ => rfl
    | cons x xs ih =>
      intro out hxs hout
      obtain ⟨hx, hxs⟩ := List.forall_mem_cons.1 hxs
      obtain ⟨hstep, hmerged⟩ := addRow_eq hx hq h hout
      simp [List.foldlM_cons, hstep, ih _ hxs hmerged]
  rw [mul, hfold p.terms _ hp (.zero _), Poly.zero_terms, ← Poly.mulWithin_terms]
  rfl

theorem mul_degreeAtMost (hp : p.DegreeAtMost d) (hq : q.DegreeAtMost e) :
    (p * q).DegreeAtMost (d + e) :=
  hp.mul hq fun m k hm hk => (Monomial.degree_product_le m k).trans (Nat.add_le_add hm hk)

/-- While powers are multiplied together, the factor still to come has room below the limit. -/
theorem powLoop_eq {budget r b : ℕ} {result base : Poly C} (hresult : result.DegreeAtMost r)
    (hbase : base.DegreeAtMost b) (h : r + b * e ≤ maxDegree) :
    powLoop budget e result base = some (Poly.powLoop budget e result base) ∧
      (Poly.powLoop budget e result base).DegreeAtMost (r + b * e) := by
  induction budget generalizing e r b result base with
  | zero => exact ⟨rfl, hresult.imp fun m hm => by omega⟩
  | succ budget ih =>
    have hdigits : b * e = b * (e % 2) + (b + b) * (e / 2) := by
      calc b * e = b * (2 * (e / 2) + e % 2) := by rw [Nat.div_add_mod]
        _ = _ := by ring
    have hnext : (if e % 2 = 1 then mul result base else some result) =
          some (if e % 2 = 1 then result * base else result) ∧
        (if e % 2 = 1 then result * base else result).DegreeAtMost (r + b * (e % 2)) := by
      split
      · rename_i hodd
        rw [hodd, Nat.mul_one] at hdigits ⊢
        exact ⟨mul_eq hresult hbase (by omega), mul_degreeAtMost hresult hbase⟩
      · exact ⟨rfl, hresult.imp fun m hm => by omega⟩
    simp only [powLoop, Poly.powLoop, hnext.1, Option.bind_eq_bind, Option.bind_some]
    split
    · exact ⟨rfl, hresult.imp fun m hm => by omega⟩
    · split
      · exact ⟨rfl, hnext.2.imp fun m hm => by omega⟩
      · rename_i hhalf
        have hone : b + b ≤ (b + b) * (e / 2) := Nat.le_mul_of_pos_right _ (by omega)
        rw [mul_eq hbase hbase (by omega), Option.bind_some, hdigits, ← Nat.add_assoc]
        exact ih hnext.2 (mul_degreeAtMost hbase hbase) (by omega)

theorem constant_degreeAtMost (n : ℕ) (c : C) : (Poly.constant n c).DegreeAtMost 0 :=
  .ofTerm (Nat.le_of_eq (Monomial.degree_one n)) c

theorem pow_eq (hp : p.DegreeAtMost d) (h : d * e ≤ maxDegree) :
    pow p e = some (p.pow e) ∧ (p.pow e).DegreeAtMost maxDegree := by
  have hone := constant_degreeAtMost p.nvars (1 : C)
  obtain ⟨hloop, hdegree⟩ := powLoop_eq (b := d) hone hp (by rwa [Nat.zero_add])
  refine ⟨?_, hdegree.imp fun m hm => by omega⟩
  rw [pow, formed_eq (hone.imp fun m hm => by omega)]
  exact hloop

theorem degree?_eq (hp : p.DegreeAtMost maxDegree) : degree? p = some p.degree? := by
  rw [degree?, mapM_eq_pure fun t ht => degree_eq (lt_size_of_le (hp t ht))]
  rfl

theorem degreeOf_eq (hp : p.DegreeAtMost maxDegree) :
    degreeOf p = some (Expression.degreeOf p) := by
  rw [degreeOf, degree?_eq hp]
  rfl

theorem degreeAtMost_degreeOf (p : Poly C) : p.DegreeAtMost (Expression.degreeOf p) := by
  unfold Expression.degreeOf
  cases h : p.degree? with
  | none => simp [Poly.DegreeAtMost, Poly.Supported, Poly.terms_eq_nil_of_degree? h]
  | some d => exact Poly.supported_of_degree? h

theorem degreeOf_le (hp : p.DegreeAtMost d) : Expression.degreeOf p ≤ d := by
  unfold Expression.degreeOf
  cases h : p.degree? with
  | none => exact Nat.zero_le d
  | some e =>
    obtain ⟨t, ht, rfl⟩ := List.mem_map.1 (List.max?_mem h)
    exact hp t ht

end Polynomials

variable {C R : Type} [RealNumber R] [Numeral R] [ComplexNumber C R]

/-- Two expanded operands put together. A constant is read off by way of its degree. -/
def combine (op : Operator) (p q : Poly C) : Option (Except ParseFault (Poly C)) :=
  match op with
  | .add => (formed (p + q)).map .ok
  | .sub => (formed (p - q)).map .ok
  | .mul => do
    let d ← word ((← degreeOf p) + (← degreeOf q))
    onOk (Expression.checkDegree d) fun _ => (mul p q).map .ok
  | .div => do
    let _ ← degree? q
    onOk (Expression.divide p q) fun r => (formed r).map .ok
  | .pow => do
    let _ ← degree? q
    onOk (Expression.exponentOf q) fun e => do
      let d ← word ((← degreeOf p) * (← word e))
      onOk (Expression.checkDegree d) fun _ => (pow p e).map .ok
  | .other symbol => some (.error (.unknownOperator symbol))

def expand (vars : Variables) : Expression R → Option (Except ParseFault (Poly C))
  | .number value => (formed (.constant vars.size (ComplexNumber.ofReal value))).map .ok
  | .identifier name => onOk (Expression.expandName vars name) fun p => (formed p).map .ok
  | .negate inner => do
    onOk (← expand vars inner) fun p => (formed (-p)).map .ok
  | .call function _ => some (.error (.notPolynomial function))
  | .binary op left right => do
    onOk (← expand vars left) fun p => do
      onOk (← expand vars right) fun q => combine op p q

/-- A guarded computation that runs to the end of the plain one and forms nothing too large. -/
structure Agrees (x : Option (Except ParseFault (Poly C))) (y : Except ParseFault (Poly C)) :
    Prop where
  eq : x = some y
  degreeAtMost : ∀ p, y = .ok p → p.DegreeAtMost maxDegree

section Expansion

variable {p q : Poly C} {vars : Variables}

theorem Agrees.error (fault : ParseFault) :
    Agrees (some (.error fault : Except ParseFault (Poly C))) (.error fault) :=
  ⟨rfl, fun _ h => nomatch h⟩

theorem Agrees.ok {x : Option (Poly C)} (hx : x = some p) (hp : p.DegreeAtMost maxDegree) :
    Agrees (x.map .ok) (.ok p) :=
  ⟨by rw [hx, Option.map_some], fun _ h => Except.ok.inj h ▸ hp⟩

theorem Agrees.formed (hp : p.DegreeAtMost maxDegree) : Agrees ((formed p).map .ok) (.ok p) :=
  .ok (formed_eq hp) hp

theorem combine_agrees (hp : p.DegreeAtMost maxDegree) (hq : q.DegreeAtMost maxDegree)
    (op : Operator) : Agrees (combine op p q) (Expression.combine op p q) := by
  have hdp := degreeOf_le hp
  have hdq := degreeOf_le hq
  cases op with
  | add => exact .formed (hp.add hq)
  | sub => exact .formed (hp.sub hq)
  | mul =>
    have hsum : Expression.degreeOf p + Expression.degreeOf q < UInt32.size :=
      Nat.lt_of_le_of_lt (Nat.add_le_add hdp hdq) (by decide)
    simp only [combine, Expression.combine, degreeOf_eq hp, degreeOf_eq hq, word_eq hsum,
      Option.bind_eq_bind, Option.bind_some]
    cases hcheck : Expression.checkDegree (Expression.degreeOf p + Expression.degreeOf q) with
    | error fault => exact .error fault
    | ok _ =>
      have hle := Expression.checkDegree_ok hcheck
      have hmul := mul_degreeAtMost (degreeAtMost_degreeOf p) (degreeAtMost_degreeOf q)
      exact .ok (mul_eq (degreeAtMost_degreeOf p) (degreeAtMost_degreeOf q) hle)
        (hmul.imp fun m hm => hm.trans hle)
  | div =>
    simp only [combine, Expression.combine, degree?_eq hq, Option.bind_eq_bind, Option.bind_some]
    cases hdivide : Expression.divide p q with
    | error fault => exact .error fault
    | ok r =>
      obtain ⟨c, -, -, rfl⟩ := Expression.divide_eq_ok hdivide
      exact .formed (hp.scale _)
  | pow =>
    simp only [combine, Expression.combine, degree?_eq hq, degreeOf_eq hp, Option.bind_eq_bind,
      Option.bind_some]
    cases hexponent : Expression.exponentOf q with
    | error fault => exact .error fault
    | ok e =>
      obtain ⟨-, -, -, he⟩ := Expression.exponentOf_eq_ok hexponent
      have hproduct : Expression.degreeOf p * e < UInt32.size :=
        Nat.lt_of_le_of_lt (Nat.mul_le_mul hdp he) (by decide)
      simp only [onOk, word_eq (lt_size_of_le he), word_eq hproduct, Option.bind_some]
      cases hcheck : Expression.checkDegree (Expression.degreeOf p * e) with
      | error fault => exact .error fault
      | ok _ =>
        have hle := Expression.checkDegree_ok hcheck
        obtain ⟨hpow, hdegree⟩ := pow_eq (degreeAtMost_degreeOf p) hle
        exact .ok hpow hdegree
  | other symbol => exact .error _

omit [Numeral R] in
theorem expandName_degreeAtMost {name : String} (h : Expression.expandName vars name = .ok p) :
    p.DegreeAtMost 1 := by
  unfold Expression.expandName at h
  split at h
  · rename_i k hk
    obtain rfl := Except.ok.inj h
    exact .ofTerm (Nat.le_of_eq (Monomial.degree_coordinate (Variables.lt_of_indexOf? hk))) 1
  · split at h
    · obtain rfl := Except.ok.inj h
      exact (constant_degreeAtMost _ _).imp fun m hm => by omega
    · cases h

theorem expand_agrees (vars : Variables) (e : Expression R) :
    Agrees (expand vars e) (e.expand vars : Except ParseFault (Poly C)) := by
  induction e with
  | number value => exact .formed ((constant_degreeAtMost _ _).imp fun m hm => hm.trans (by decide))
  | identifier name =>
    simp only [expand, Expression.expand]
    cases hname : Expression.expandName (C := C) vars name with
    | error fault => exact .error fault
    | ok p => exact .formed ((expandName_degreeAtMost hname).imp fun m hm => hm.trans (by decide))
  | negate inner ih =>
    simp only [expand, Expression.expand, ih.eq, Option.bind_eq_bind, Option.bind_some]
    cases hinner : inner.expand (C := C) vars with
    | error fault => exact .error fault
    | ok p => exact .formed (ih.degreeAtMost p hinner).neg
  | call function argument => exact .error _
  | binary op left right ihl ihr =>
    simp only [expand, Expression.expand, ihl.eq, ihr.eq, Option.bind_eq_bind, Option.bind_some]
    cases hleft : left.expand (C := C) vars with
    | error fault => exact .error fault
    | ok p =>
      cases hright : right.expand (C := C) vars with
      | error fault => exact .error fault
      | ok q => exact combine_agrees (ihl.degreeAtMost p hleft) (ihr.degreeAtMost q hright) op

end Expansion

/-- Expansion stays within 32 bits: the guarded run comes to the same result as the plain one, and
a polynomial that comes out has no term above the largest degree. -/
theorem expand_meets_no_guard (vars : Variables) (e : Expression R) :
    expand vars e = some (e.expand vars : Except ParseFault (Poly C)) ∧
      ∀ p : Poly C, e.expand vars = .ok p → ∀ t ∈ p.terms, t.1.degree ≤ maxDegree :=
  ⟨(expand_agrees vars e).eq, (expand_agrees vars e).degreeAtMost⟩

/-- The tree of `(x ^ 32) ^ 32` over doubles. -/
def tower : Expression Float :=
  .binary .pow (.binary .pow (.identifier "x") (.number 32.0)) (.number 32.0)

theorem expand_meets_no_guard_tower :
    ∃ p : Poly FloatComplex, tower.expand ⟨["x"]⟩ = .ok p ∧ p.degree? = some 1024 ∧
      expand ⟨["x"]⟩ tower = some (.ok p) ∧ ∀ t ∈ p.terms, t.1.degree ≤ maxDegree := by
  have hdegree : ((tower.expand ⟨["x"]⟩ : Except ParseFault (Poly FloatComplex)).map
      Poly.degree?).toOption = some (some 1024) := by decide +kernel
  obtain ⟨hrun, hsmall⟩ := expand_meets_no_guard (C := FloatComplex) ⟨["x"]⟩ tower
  cases hp : (tower.expand ⟨["x"]⟩ : Except ParseFault (Poly FloatComplex)) with
  | error fault =>
    rw [hp] at hdegree
    cases hdegree
  | ok p =>
    rw [hp] at hdegree hrun
    exact ⟨p, rfl, Option.some.inj hdegree, hrun, hsmall p hp⟩

end Guarded

end LieNormalForm
