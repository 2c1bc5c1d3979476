import LieNormalForm.Poly.Basic

/-!
# Substitution

Variable `k` of a polynomial is replaced by the `k`-th image and the result expanded, term
by term: each term starts as its coefficient and is multiplied by the powers of the images
that it asks for. Products drop the terms above the limit as they arise. Powers are computed
when a term first asks for them and kept for the terms after it; a product that has become
zero asks for none. `substituteWithin_eq` says that the result is the plain expansion.
-/

namespace LieNormalForm

variable {C W : Type} [Coefficient C W]

namespace Poly

/-- `((1·p)·p)·…` with `e` factors `p`, without the terms above the limit. -/
def powerWithin (p : Poly C) (limit : Option Nat) : Nat → Poly C
  | 0 => constant p.nvars 1
  | e + 1 => (p.powerWithin limit e).mulWithin p limit

theorem mulWithin_of_isZero {p : Poly C} (h : p.isZero = true) (q : Poly C)
    (limit : Option Nat) : p.mulWithin q limit = p := by
  rcases p with ⟨n, ts⟩
  cases (isZero_iff _).1 h
  rfl

end Poly

/-- The powers of an image that are known so far. -/
structure PowerTable (C : Type) where
  base : Poly C
  highest : Poly C
  /-- The powers below the highest, in falling order. -/
  lower : List (Poly C)

namespace PowerTable

/-- The table that knows the power zero only. -/
def ofImage (g : Poly C) : PowerTable C := ⟨g, .constant g.nvars 1, []⟩

/-- The exponent of the highest power. -/
def reach (t : PowerTable C) : Nat := t.lower.length

/-- Computes further powers. -/
def grow (limit : Option Nat) : Nat → PowerTable C → PowerTable C
  | 0, t => t
  | count + 1, t =>
    grow limit count ⟨t.base, t.highest.mulWithin t.base limit, t.highest :: t.lower⟩

/-- Computes what is missing up to an exponent. -/
def upTo (limit : Option Nat) (e : Nat) (t : PowerTable C) : PowerTable C :=
  grow limit (e - t.reach) t

/-- The power with exponent `e`, which has to be within reach. -/
def power (t : PowerTable C) (e : Nat) : Poly C :=
  (t.highest :: t.lower).getD (t.reach - e) (.zero t.base.nvars)

/-- Every power in the table is the one that it stands for. -/
def Correct (limit : Option Nat) (t : PowerTable C) : Prop :=
  ∀ e ≤ t.reach, t.power e = t.base.powerWithin limit e

theorem ofImage_correct (limit : Option Nat) (g : Poly C) : (ofImage g).Correct limit := by
  intro e he
  cases Nat.le_zero.1 he
  rfl

theorem power_reach (t : PowerTable C) : t.power t.reach = t.highest := by simp [power]

theorem grow_base (limit : Option Nat) (count : Nat) (t : PowerTable C) :
    (grow limit count t).base = t.base := by
  induction count generalizing t with
  | zero => rfl
  | succ count ih => rw [grow, ih]

theorem grow_reach (limit : Option Nat) (count : Nat) (t : PowerTable C) :
    (grow limit count t).reach = t.reach + count := by
  induction count generalizing t with
  | zero => rfl
  | succ count ih =>
    rw [grow, ih]
    simp only [reach, List.length_cons]
    omega

theorem grow_correct {limit : Option Nat} {t : PowerTable C} (count : Nat)
    (h : t.Correct limit) : (grow limit count t).Correct limit := by
  induction count generalizing t with
  | zero => exact h
  | succ count ih =>
    refine ih fun e he => ?_
    simp only [reach, List.length_cons] at he
    rcases Nat.lt_or_ge t.lower.length e with hlt | hle
    · obtain rfl : e = t.lower.length + 1 := by omega
      have := h t.lower.length (Nat.le_refl _)
      rw [show t.lower.length = t.reach from rfl, power_reach] at this
      simp [power, reach, Poly.powerWithin, this]
    · have := h e hle
      rw [← this]
      simp only [power, reach, List.length_cons]
      rw [show t.lower.length + 1 - e = t.lower.length - e + 1 from by omega]
      rfl

theorem upTo_base (limit : Option Nat) (e : Nat) (t : PowerTable C) :
    (t.upTo limit e).base = t.base := grow_base ..

theorem upTo_correct {limit : Option Nat} {t : PowerTable C} (e : Nat) (h : t.Correct limit) :
    (t.upTo limit e).Correct limit := grow_correct _ h

theorem upTo_power {limit : Option Nat} {t : PowerTable C} (e : Nat) (h : t.Correct limit) :
    (t.upTo limit e).power e = t.base.powerWithin limit e := by
  rw [upTo_correct e h e (by rw [upTo, grow_reach]; omega), upTo_base]

end PowerTable

/-- A product of powers with the tables that served it. -/
structure Expansion (C : Type) where
  value : Poly C
  tables : List (PowerTable C)

namespace Expansion

/-- Multiplies the powers that a monomial asks for onto a polynomial. -/
def multiply (limit : Option Nat) : Monomial → List (PowerTable C) → Poly C → Expansion C
  | [], ts, p => ⟨p, ts⟩
  | _, [], p => ⟨p, []⟩
  | e :: es, t :: ts, p =>
    if p.isZero then ⟨p, t :: ts⟩
    else if e = 0 then
      let rest := multiply limit es ts p
      ⟨rest.value, t :: rest.tables⟩
    else
      let t' := t.upTo limit e
      let rest := multiply limit es ts (p.mulWithin (t'.power e) limit)
      ⟨rest.value, t' :: rest.tables⟩

/-- Adds a term with its variables replaced. -/
def addTerm (target : Nat) (limit : Option Nat) (s : Expansion C) (t : Term C) : Expansion C :=
  let product := multiply limit t.1 s.tables (.constant target t.2)
  ⟨s.value + product.value, product.tables⟩

end Expansion

namespace Poly

/-- Replaces the variables by images, without the terms above the limit. -/
def substituteWithin (p : Poly C) (images : List (Poly C)) (limit : Option Nat) :
    Except Error (Poly C) :=
  if images.length ≠ p.nvars then
    .error (.shape .substitutionImages p.nvars images.length)
  else
    let target := (images.head?.map Poly.nvars).getD 0
    match images.find? fun g => g.nvars != target with
    | some bad => .error (.shape .imageVariables target bad.nvars)
    | none =>
      .ok (p.terms.foldl (Expansion.addTerm target limit)
        ⟨zero target, images.map PowerTable.ofImage⟩).value

def substitute (p : Poly C) (images : List (Poly C)) : Except Error (Poly C) :=
  p.substituteWithin images none

/-- The product of a polynomial and the powers of the images that a monomial asks for. -/
def timesPowers (limit : Option Nat) (p : Poly C) (m : Monomial) (images : List (Poly C)) :
    Poly C :=
  (List.zip m images).foldl
    (fun acc eg => if eg.1 = 0 then acc else acc.mulWithin (eg.2.powerWithin limit eg.1) limit) p

theorem timesPowers_isZero {p : Poly C} (h : p.isZero = true) (limit : Option Nat) (m : Monomial)
    (images : List (Poly C)) : p.timesPowers limit m images = p := by
  unfold timesPowers
  induction List.zip m images with
  | nil => rfl
  | cons eg rest ih =>
    rw [List.foldl_cons, mulWithin_of_isZero h]
    simpa using ih

end Poly

namespace Expansion

/-- All tables are correct and stand for the given images. -/
def Serves (limit : Option Nat) (images : List (Poly C)) (ts : List (PowerTable C)) : Prop :=
  ts.map PowerTable.base = images ∧ ∀ t ∈ ts, t.Correct limit

theorem Serves.ofImages (limit : Option Nat) (images : List (Poly C)) :
    Serves limit images (images.map PowerTable.ofImage) := by
  refine ⟨?_, ?_⟩
  · rw [List.map_map]
    exact List.map_id _
  · intro t ht
    obtain ⟨g, _, rfl⟩ := List.mem_map.1 ht
    exact PowerTable.ofImage_correct limit g

theorem multiply_serves {limit : Option Nat} (m : Monomial) {images : List (Poly C)}
    {ts : List (PowerTable C)} (h : Serves limit images ts) (p : Poly C) :
    Serves limit images (multiply limit m ts p).tables := by
  induction m generalizing images ts p with
  | nil => cases ts <;> exact h
  | cons e es ih =>
    cases ts with
    | nil => exact h
    | cons t ts =>
      obtain ⟨rfl, ht⟩ := h
      have htail : Serves limit (ts.map PowerTable.base) ts :=
        ⟨rfl, fun t' h' => ht t' (List.mem_cons_of_mem _ h')⟩
      simp only [multiply]
      split
      · exact ⟨rfl, ht⟩
      · split
        · obtain ⟨hbase, hcorrect⟩ := ih htail p
          exact ⟨by simp [hbase], List.forall_mem_cons.2 ⟨ht t (List.mem_cons_self ..), hcorrect⟩⟩
        · obtain ⟨hbase, hcorrect⟩ := ih htail (p.mulWithin ((t.upTo limit e).power e) limit)
          exact ⟨by simp [hbase, PowerTable.upTo_base], List.forall_mem_cons.2
            ⟨PowerTable.upTo_correct e (ht t (List.mem_cons_self ..)), hcorrect⟩⟩

theorem multiply_value {limit : Option Nat} (m : Monomial) {images : List (Poly C)}
    {ts : List (PowerTable C)} (h : Serves limit images ts) (p : Poly C) :
    (multiply limit m ts p).value = p.timesPowers limit m images := by
  induction m generalizing images ts p with
  | nil => cases ts <;> rfl
  | cons e es ih =>
    cases ts with
    | nil =>
      obtain ⟨rfl, _⟩ := h
      rfl
    | cons t ts =>
      obtain ⟨rfl, ht⟩ := h
      have htail : Serves limit (ts.map PowerTable.base) ts :=
        ⟨rfl, fun t' h' => ht t' (List.mem_cons_of_mem _ h')⟩
      simp only [multiply]
      split
      · rename_i hp
        rw [Poly.timesPowers_isZero hp]
      · split
        · rename_i he
          simp [ih htail, Poly.timesPowers, he]
        · rename_i he
          simp [ih htail, Poly.timesPowers, he,
            PowerTable.upTo_power e (ht t (List.mem_cons_self ..))]

theorem foldl_addTerm_value (target : Nat) {limit : Option Nat} (ts : List (Term C))
    {images : List (Poly C)} {s : Expansion C} (h : Serves limit images s.tables) :
    (ts.foldl (addTerm target limit) s).value =
      ts.foldl (fun out t => out + (Poly.constant target t.2).timesPowers limit t.1 images)
        s.value := by
  induction ts generalizing s with
  | nil => rfl
  | cons t ts ih =>
    have hserves : Serves limit images (addTerm target limit s t).tables := multiply_serves _ h _
    rw [List.foldl_cons, List.foldl_cons, ih hserves]
    simp only [addTerm, multiply_value _ h]

/-- The sum of all terms, from nothing. -/
theorem expand_value (target : Nat) (limit : Option Nat) (ts : List (Term C))
    (images : List (Poly C)) :
    (ts.foldl (addTerm target limit) ⟨.zero target, images.map PowerTable.ofImage⟩).value =
      ts.foldl (fun out t => out + (Poly.constant target t.2).timesPowers limit t.1 images)
        (.zero target) :=
  foldl_addTerm_value target ts (Serves.ofImages limit images)

end Expansion

namespace Poly

/-- Substitution multiplies out every term on its own and adds up the results. -/
theorem substituteWithin_eq {p : Poly C} {images : List (Poly C)} {limit : Option Nat} {n : Nat}
    (hcount : images.length = p.nvars) (hhead : (images.head?.map Poly.nvars).getD 0 = n)
    (hvars : ∀ g ∈ images, g.nvars = n) :
    p.substituteWithin images limit = .ok (p.terms.foldl
      (fun out t => out + (constant n t.2).timesPowers limit t.1 images) (zero n)) := by
  have hfind : (images.find? fun g => g.nvars != n) = none := by
    rw [List.find?_eq_none]
    intro g hg
    simp [hvars g hg]
  simp only [substituteWithin, hcount, hhead, hfind, ne_eq, not_true_eq_false, if_false,
    Expansion.expand_value]

theorem substituteWithin_count {p : Poly C} {images : List (Poly C)} {limit : Option Nat}
    (h : images.length ≠ p.nvars) :
    p.substituteWithin images limit = .error (.shape .substitutionImages p.nvars images.length) := by
  simp [substituteWithin, h]

theorem foldl_nvars {α : Type} {step : Poly C → α → Poly C}
    (hstep : ∀ p x, (step p x).nvars = p.nvars) (xs : List α) (p : Poly C) :
    (xs.foldl step p).nvars = p.nvars := by
  induction xs generalizing p with
  | nil => rfl
  | cons x xs ih => rw [List.foldl_cons, ih, hstep]

theorem foldl_add_nvars {α : Type} (f : α → Poly C) (xs : List α) (p : Poly C) :
    (xs.foldl (fun out x => out + f x) p).nvars = p.nvars :=
  foldl_nvars (fun p x => add_nvars p (f x)) xs p

theorem substituteWithin_nvars {p q : Poly C} {images : List (Poly C)} {limit : Option Nat}
    (h : p.substituteWithin images limit = .ok q) :
    q.nvars = (images.head?.map Poly.nvars).getD 0 := by
  unfold substituteWithin at h
  split at h
  · cases h
  · dsimp only at h
    split at h
    · cases h
    · cases h
      rw [Expansion.expand_value, foldl_add_nvars]
      rfl

end Poly

end LieNormalForm
