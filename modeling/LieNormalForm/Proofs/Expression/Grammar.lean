import LieNormalForm.Expression.Expand

/-!
# The grammar of expressions

Sums and products are grouped to the left, powers to the right, and a sign stands between the two:
it binds looser than a power and tighter than a product. The parser reads exactly the trees of this
grammar. What it has read is derived by the tokens that it used; and the tree of a derivation is
read off any list that starts with the derived tokens and does not go on with a sign that the
level would take too. A tree can so be computed from its tokens, and there is at most one.
-/

namespace LieNormalForm

namespace Expression

variable {R : Type}

/-- The levels of the grammar, from the loosest to the tightest. -/
inductive Level
  | sum | product | signed | power | primary

/-- The trees that a list of tokens has at a level. -/
inductive Derives : Level → List (Token R) → Expression R → Prop
  | ofProduct {ts e} : Derives .product ts e → Derives .sum ts e
  | add {ts us left right} : Derives .sum ts left → Derives .product us right →
      Derives .sum (ts ++ .plus :: us) (.binary .add left right)
  | sub {ts us left right} : Derives .sum ts left → Derives .product us right →
      Derives .sum (ts ++ .minus :: us) (.binary .sub left right)
  | ofSigned {ts e} : Derives .signed ts e → Derives .product ts e
  | mul {ts us left right} : Derives .product ts left → Derives .signed us right →
      Derives .product (ts ++ .star :: us) (.binary .mul left right)
  | div {ts us left right} : Derives .product ts left → Derives .signed us right →
      Derives .product (ts ++ .slash :: us) (.binary .div left right)
  | negate {ts e} : Derives .signed ts e → Derives .signed (.minus :: ts) (.negate e)
  | positive {ts e} : Derives .signed ts e → Derives .signed (.plus :: ts) e
  | ofPower {ts e} : Derives .power ts e → Derives .signed ts e
  | ofPrimary {ts e} : Derives .primary ts e → Derives .power ts e
  | pow {ts us base exponent} : Derives .primary ts base → Derives .signed us exponent →
      Derives .power (ts ++ .caret :: us) (.binary .pow base exponent)
  | number (value : R) : Derives .primary [.number value] (.number value)
  | identifier (text : String) : Derives .primary [.name text] (.identifier text)
  | call (text : String) {ts argument} : Derives .sum ts argument →
      Derives .primary (.name text :: .openParen :: ts ++ [.closeParen]) (.call text argument)
  | parentheses {ts e} : Derives .sum ts e →
      Derives .primary (.openParen :: ts ++ [.closeParen]) e

/-- The operators between the products of a sum. -/
def termSign? : Token R → Option Operator
  | .plus => some .add
  | .minus => some .sub
  | _ => none

/-- The operators between the factors of a product. -/
def factorSign? : Token R → Option Operator
  | .star => some .mul
  | .slash => some .div
  | _ => none

/-- No power starts with a sign. -/
theorem Derives.power_head {level : Level} {ts : List (Token R)} {e : Expression R}
    (h : Derives level ts e) (hlevel : level = .power ∨ level = .primary) :
    ∃ t us, ts = t :: us ∧ termSign? t = none := by
  induction h with
  | ofPrimary _ ih => exact ih (.inr rfl)
  | pow _ _ ih _ =>
    obtain ⟨t, us, rfl, ht⟩ := ih (.inr rfl)
    exact ⟨t, _, rfl, ht⟩
  | number | identifier | call | parentheses => exact ⟨_, _, rfl, rfl⟩
  -- the trees of the looser levels
  | _ => cases hlevel <;> contradiction

/-- Whether a token would go on with a tree of the level. -/
def Level.extends : Level → Token R → Bool
  | _, .openParen => true
  | .primary, _ => false
  | _, .caret => true
  | .sum, t => (termSign? t).isSome || (factorSign? t).isSome
  | .product, t => (factorSign? t).isSome
  | _, _ => false

/-- The rest of a list of tokens does not go on with a tree of the level. -/
def Level.Ends (level : Level) (rest : List (Token R)) : Prop :=
  ∀ t, rest.head? = some t → level.extends t = false

/-- The level of the operands that a chain starts with. -/
def Level.operand : Level → Level
  | .sum => .product
  | .product => .signed
  | level => level

theorem ends_cons {level : Level} {t : Token R} (h : level.extends t = false)
    (us : List (Token R)) : level.Ends (t :: us) := by
  intro t' ht'
  cases ht'
  exact h

theorem Level.Ends.operand {level : Level} {rest : List (Token R)} (h : level.Ends rest) :
    level.operand.Ends rest := by
  intro t ht
  have hextends := h t ht
  cases level <;> cases t <;> first | rfl | cases hextends

/-- A power goes on with the same tokens as a signed operand. -/
theorem ends_power_iff {rest : List (Token R)} :
    Level.power.Ends rest ↔ Level.signed.Ends rest := by
  constructor
  all_goals
    intro h t ht
    have hextends := h t ht
    cases t <;> first | rfl | cases hextends

theorem Level.Ends.primary {rest : List (Token R)} (h : Level.power.Ends rest) :
    Level.primary.Ends rest := by
  intro t ht
  have hextends := h t ht
  cases t <;> first | rfl | cases hextends

/-- What is found, and the tokens behind it. -/
abbrev Found (R : Type) : Type := Except ParseFault (Expression R × List (Token R))

/-- Goes on behind what was found. -/
def Found.next (found : Found R) (go : Expression R → List (Token R) → Found R) : Found R :=
  match found with
  | .error fault => .error fault
  | .ok (e, rest) => go e rest

theorem Found.next_eq_ok {found : Found R} {go : Expression R → List (Token R) → Found R}
    {e : Expression R} {rest : List (Token R)} (h : found.next go = .ok (e, rest)) :
    ∃ left middle, found = .ok (left, middle) ∧ go left middle = .ok (e, rest) := by
  match found, h with
  | .ok (left, middle), h => exact ⟨left, middle, rfl, h⟩

/-- What a reader found, without the proof that its rest is short. -/
def bare {P : List (Token R) → Prop} :
    Except ParseFault (Expression R × { rest : List (Token R) // P rest }) → Found R
  | .error fault => .error fault
  | .ok (e, rest) => .ok (e, rest.1)

theorem bare_eq_ok {P : List (Token R) → Prop} {e : Expression R} {rest : List (Token R)}
    {r : Except ParseFault (Expression R × { rest : List (Token R) // P rest })} :
    bare r = .ok (e, rest) ↔ ∃ h, r = .ok (e, ⟨rest, h⟩) := by
  constructor
  · intro h
    match r, h with
    | .ok (_, ⟨_, hrest⟩), rfl => exact ⟨hrest, rfl⟩
  · rintro ⟨h, rfl⟩
    rfl

/-- A closing parenthesis behind a sum. -/
def close (wrap : Expression R → Expression R) (e : Expression R) : List (Token R) → Found R
  | .closeParen :: ts => .ok (wrap e, ts)
  | _ => .error .missingParenthesis

theorem close_eq_ok {wrap : Expression R → Expression R} {e e' : Expression R}
    {us rest : List (Token R)} (h : close wrap e us = .ok (e', rest)) :
    us = .closeParen :: rest ∧ e' = wrap e := by
  match us, h with
  | .closeParen :: _, rfl => exact ⟨rfl, rfl⟩

variable [Numeral R]

/-- The reader of a level. -/
def Level.read : Level → List (Token R) → Found R
  | .sum, ts => bare (parseSum ts)
  | .product, ts => bare (parseProduct ts)
  | .signed, ts => bare (parseSigned ts)
  | .power, ts => bare (parsePower ts)
  | .primary, ts => bare (parsePrimary ts)

theorem read_length {level : Level} {ts rest : List (Token R)} {e : Expression R}
    (h : level.read ts = .ok (e, rest)) : rest.length < ts.length := by
  cases level <;> exact (bare_eq_ok.1 h).1

section Equations

/-! Every reader in terms of the ones that it calls. -/

theorem read_signed_minus (ts : List (Token R)) :
    Level.signed.read (.minus :: ts) =
      (Level.signed.read ts).next fun e rest => .ok (.negate e, rest) := by
  simp only [Level.read]
  rw [parseSigned]
  cases parseSigned ts <;> rfl

theorem read_signed_plus (ts : List (Token R)) :
    Level.signed.read (.plus :: ts) = Level.signed.read ts := by
  simp only [Level.read]
  rw [parseSigned]
  cases parseSigned ts <;> rfl

theorem read_signed {ts : List (Token R)} (hminus : ∀ us, ts ≠ .minus :: us)
    (hplus : ∀ us, ts ≠ .plus :: us) : Level.signed.read ts = Level.power.read ts := by
  simp only [Level.read]
  rw [parseSigned]
  · exact hminus
  · exact hplus

/-- What a power does behind its base. -/
def exponent (base : Expression R) : List (Token R) → Found R
  | .caret :: ts => (Level.signed.read ts).next fun e rest => .ok (.binary .pow base e, rest)
  | ts => .ok (base, ts)

theorem exponent_done (base : Expression R) {ts : List (Token R)} (h : ∀ us, ts ≠ .caret :: us) :
    exponent base ts = .ok (base, ts) := by
  rw [exponent]
  exact h

theorem read_power (ts : List (Token R)) :
    Level.power.read ts = (Level.primary.read ts).next exponent := by
  simp only [Level.read]
  rw [parsePower]
  cases parsePrimary ts with
  | error fault => rfl
  | ok r =>
    obtain ⟨base, rest, h⟩ := r
    rcases rest with _ | ⟨_ | _ | _ | _ | _ | _ | _ | _ | _, rest⟩
    case cons.caret =>
      simp only [bare, Found.next, exponent, Level.read]
      cases parseSigned rest <;> rfl
    all_goals rfl

theorem read_primary_call (text : String) (ts : List (Token R)) :
    Level.primary.read (.name text :: .openParen :: ts) =
      (Level.sum.read ts).next (close (.call text)) := by
  simp only [Level.read]
  rw [parsePrimary]
  cases parseSum ts with
  | error fault => rfl
  | ok r =>
    obtain ⟨e, rest, h⟩ := r
    rcases rest with _ | ⟨_ | _ | _ | _ | _ | _ | _ | _ | _, rest⟩ <;> rfl

theorem read_primary_parentheses (ts : List (Token R)) :
    Level.primary.read (.openParen :: ts) = (Level.sum.read ts).next (close id) := by
  simp only [Level.read]
  rw [parsePrimary]
  cases parseSum ts with
  | error fault => rfl
  | ok r =>
    obtain ⟨e, rest, h⟩ := r
    rcases rest with _ | ⟨_ | _ | _ | _ | _ | _ | _ | _ | _, rest⟩ <;> rfl

theorem read_primary_number (value : R) (ts : List (Token R)) :
    Level.primary.read (.number value :: ts) = .ok (.number value, ts) := by
  simp only [Level.read]
  rw [parsePrimary]
  rfl

theorem read_primary_identifier (text : String) {ts : List (Token R)}
    (h : ∀ us, ts ≠ .openParen :: us) :
    Level.primary.read (.name text :: ts) = .ok (.identifier text, ts) := by
  simp only [Level.read]
  rw [parsePrimary]
  · rfl
  · exact h

/-- The tail of a sum, without the proof about its rest. -/
def moreTerms (left : Expression R) (ts : List (Token R)) : Found R := bare (sumTail left ts)

/-- The tail of a product, without the proof about its rest. -/
def moreFactors (left : Expression R) (ts : List (Token R)) : Found R := bare (productTail left ts)

theorem moreTerms_next {t : Token R} {op : Operator} (h : termSign? t = some op)
    (left : Expression R) (ts : List (Token R)) :
    moreTerms left (t :: ts) =
      (Level.product.read ts).next fun right => moreTerms (.binary op left right) := by
  simp only [Level.read]
  cases t <;> cases h <;> rw [moreTerms, sumTail]
  all_goals
    cases parseProduct ts with
    | error fault => rfl
    | ok r =>
      obtain ⟨right, rest, hrest⟩ := r
      simp only [bare, Found.next, moreTerms]
      generalize sumTail _ rest = found
      cases found <;> rfl

theorem moreFactors_next {t : Token R} {op : Operator} (h : factorSign? t = some op)
    (left : Expression R) (ts : List (Token R)) :
    moreFactors left (t :: ts) =
      (Level.signed.read ts).next fun right => moreFactors (.binary op left right) := by
  simp only [Level.read]
  cases t <;> cases h <;> rw [moreFactors, productTail]
  all_goals
    cases parseSigned ts with
    | error fault => rfl
    | ok r =>
      obtain ⟨right, rest, hrest⟩ := r
      simp only [bare, Found.next, moreFactors]
      generalize productTail _ rest = found
      cases found <;> rfl

theorem moreTerms_done (left : Expression R) {ts : List (Token R)}
    (h : ∀ t, ts.head? = some t → termSign? t = none) : moreTerms left ts = .ok (left, ts) := by
  rw [moreTerms, sumTail]
  · rfl
  · rintro us rfl
    cases h _ rfl
  · rintro us rfl
    cases h _ rfl

theorem moreFactors_done (left : Expression R) {ts : List (Token R)}
    (h : ∀ t, ts.head? = some t → factorSign? t = none) : moreFactors left ts = .ok (left, ts) := by
  rw [moreFactors, productTail]
  · rfl
  · rintro us rfl
    cases h _ rfl
  · rintro us rfl
    cases h _ rfl

theorem read_sum (ts : List (Token R)) :
    Level.sum.read ts = (Level.product.read ts).next moreTerms := by
  simp only [Level.read]
  rw [parseSum]
  cases parseProduct ts with
  | error fault => rfl
  | ok r =>
    obtain ⟨left, rest, h⟩ := r
    simp only [bare, Found.next, moreTerms]
    cases sumTail left rest <;> rfl

theorem read_product (ts : List (Token R)) :
    Level.product.read ts = (Level.signed.read ts).next moreFactors := by
  simp only [Level.read]
  rw [parseProduct]
  cases parseSigned ts with
  | error fault => rfl
  | ok r =>
    obtain ⟨left, rest, h⟩ := r
    simp only [bare, Found.next, moreFactors]
    cases productTail left rest <;> rfl

/-- A level that reads operands of the next level one after the other, as long as a sign follows,
and groups them to the left. -/
structure Chain (whole operand : Level) (sign? : Token R → Option Operator)
    (tail : Expression R → List (Token R) → Found R) : Prop where
  read (ts) : whole.read ts = (operand.read ts).next tail
  next {t op} : sign? t = some op → ∀ left ts,
    tail left (t :: ts) = (operand.read ts).next fun right => tail (.binary op left right)
  done (left) {ts} : (∀ t, ts.head? = some t → sign? t = none) → tail left ts = .ok (left, ts)
  first {ts : List (Token R)} {e} : Derives operand ts e → Derives whole ts e
  more {t op} {ts us : List (Token R)} {left right} : sign? t = some op → Derives whole ts left →
    Derives operand us right → Derives whole (ts ++ t :: us) (.binary op left right)

theorem sum_chain : Chain (R := R) .sum .product termSign? moreTerms where
  read := read_sum
  next := moreTerms_next
  done := moreTerms_done
  first := .ofProduct
  more {t} _ _ _ _ _ h hleft hright := by
    cases t <;> cases h
    · exact .add hleft hright
    · exact .sub hleft hright

theorem product_chain : Chain (R := R) .product .signed factorSign? moreFactors where
  read := read_product
  next := moreFactors_next
  done := moreFactors_done
  first := .ofSigned
  more {t} _ _ _ _ _ h hleft hright := by
    cases t <;> cases h
    · exact .mul hleft hright
    · exact .div hleft hright

end Equations

section Soundness

/-- Whatever a level reads off the tokens is derived by the tokens that are gone. -/
def Level.Sound (level : Level) (ts : List (Token R)) : Prop :=
  ∀ e rest, level.read ts = .ok (e, rest) → ∃ used, ts = used ++ rest ∧ Derives level used e

/-- Every level is sound on shorter lists. -/
def SoundBelow (ts : List (Token R)) : Prop :=
  ∀ level (us : List (Token R)), us.length < ts.length → Level.Sound level us

variable {ts : List (Token R)}

theorem SoundBelow.primary (ih : SoundBelow ts) : Level.primary.Sound ts := by
  intro e rest h
  cases ts with
  | nil =>
    simp only [Level.read] at h
    rw [parsePrimary] at h
    cases h
  | cons t us =>
    have hshort : us.length < (t :: us).length := Nat.lt_succ_self _
    cases t with
    | number value =>
      rw [read_primary_number] at h
      cases h
      exact ⟨[.number value], rfl, .number value⟩
    | name text =>
      by_cases hcall : ∃ vs, us = .openParen :: vs
      · obtain ⟨vs, rfl⟩ := hcall
        rw [read_primary_call] at h
        obtain ⟨argument, middle, hsum, hclose⟩ := Found.next_eq_ok h
        obtain ⟨rfl, rfl⟩ := close_eq_ok hclose
        obtain ⟨used, rfl, hused⟩ := ih .sum vs (Nat.lt_of_succ_lt hshort) argument _ hsum
        exact ⟨.name text :: .openParen :: used ++ [.closeParen], by simp, .call text hused⟩
      · rw [read_primary_identifier text fun vs hvs => hcall ⟨vs, hvs⟩] at h
        cases h
        exact ⟨[.name text], rfl, .identifier text⟩
    | openParen =>
      rw [read_primary_parentheses] at h
      obtain ⟨e, middle, hsum, hclose⟩ := Found.next_eq_ok h
      obtain ⟨rfl, rfl⟩ := close_eq_ok hclose
      obtain ⟨used, rfl, hused⟩ := ih .sum us hshort e _ hsum
      exact ⟨.openParen :: used ++ [.closeParen], by simp, .parentheses hused⟩
    | plus | minus | star | slash | caret | closeParen =>
      simp only [Level.read] at h
      rw [parsePrimary] at h
      · cases h
      all_goals simp

theorem SoundBelow.power (ih : SoundBelow ts) : Level.power.Sound ts := by
  intro e rest h
  rw [read_power] at h
  obtain ⟨base, middle, hbase, hexponent⟩ := Found.next_eq_ok h
  have hshort := read_length hbase
  obtain ⟨used, rfl, hused⟩ := ih.primary base middle hbase
  by_cases hcaret : ∃ us, middle = .caret :: us
  · obtain ⟨us, rfl⟩ := hcaret
    obtain ⟨e', rest', hsigned, hpow⟩ := Found.next_eq_ok hexponent
    cases hpow
    obtain ⟨used', rfl, hused'⟩ := ih .signed us (Nat.lt_of_succ_lt hshort) e' rest hsigned
    exact ⟨used ++ .caret :: used', by simp, .pow hused hused'⟩
  · rw [exponent_done base fun us hus => hcaret ⟨us, hus⟩] at hexponent
    cases hexponent
    exact ⟨used, rfl, .ofPrimary hused⟩

theorem SoundBelow.signed (ih : SoundBelow ts) : Level.signed.Sound ts := by
  intro e rest h
  by_cases hminus : ∃ us, ts = .minus :: us
  · obtain ⟨us, rfl⟩ := hminus
    rw [read_signed_minus] at h
    obtain ⟨e', rest', hsigned, hnegate⟩ := Found.next_eq_ok h
    cases hnegate
    obtain ⟨used, rfl, hused⟩ := ih .signed us (Nat.lt_succ_self _) e' rest hsigned
    exact ⟨.minus :: used, rfl, .negate hused⟩
  by_cases hplus : ∃ us, ts = .plus :: us
  · obtain ⟨us, rfl⟩ := hplus
    rw [read_signed_plus] at h
    obtain ⟨used, rfl, hused⟩ := ih .signed us (Nat.lt_succ_self _) e rest h
    exact ⟨.plus :: used, rfl, .positive hused⟩
  rw [read_signed (fun us hus => hminus ⟨us, hus⟩) fun us hus => hplus ⟨us, hus⟩] at h
  obtain ⟨used, rfl, hused⟩ := ih.power e rest h
  exact ⟨used, rfl, .ofPower hused⟩

section Chain

variable {whole operand : Level} {sign? : Token R → Option Operator}
  {tail : Expression R → List (Token R) → Found R}

/-- A tail adds operands to a tree that the tokens before it derive. -/
theorem Chain.tail_sound (hchain : Chain whole operand sign? tail) (ih : SoundBelow ts)
    {us : List (Token R)} (hus : us.length < ts.length) {before : List (Token R)}
    {left e : Expression R} {rest : List (Token R)} (hleft : Derives whole before left)
    (h : tail left us = .ok (e, rest)) :
    ∃ used, us = used ++ rest ∧ Derives whole (before ++ used) e := by
  induction hlength : us.length using Nat.strongRecOn generalizing us before left with
  | ind n hrec =>
    -- the tail takes nothing more, at the end or before a token of another level
    have hdone : (∀ t, us.head? = some t → sign? t = none) →
        ∃ used, us = used ++ rest ∧ Derives whole (before ++ used) e := by
      intro hnone
      rw [hchain.done left hnone] at h
      cases h
      exact ⟨[], rfl, by rwa [List.append_nil]⟩
    cases us with
    | nil => exact hdone nofun
    | cons t vs =>
      cases hsign : sign? t with
      | none =>
        refine hdone fun t' ht' => ?_
        cases ht'
        exact hsign
      | some op =>
        rw [hchain.next hsign] at h
        obtain ⟨right, middle, hread, htail⟩ := Found.next_eq_ok h
        have hshort := read_length hread
        simp only [List.length_cons] at hlength hus
        obtain ⟨used, rfl, hright⟩ := ih operand vs (by omega) right middle hread
        obtain ⟨used', rfl, hused'⟩ := hrec middle.length (by omega) (by omega)
          (hchain.more hsign hleft hright) htail rfl
        exact ⟨t :: used ++ used', by simp, by simpa using hused'⟩

theorem Chain.sound (hchain : Chain whole operand sign? tail) (ih : SoundBelow ts)
    (hoperand : operand.Sound ts) : whole.Sound ts := by
  intro e rest h
  rw [hchain.read] at h
  obtain ⟨left, middle, hread, htail⟩ := Found.next_eq_ok h
  have hshort := read_length hread
  obtain ⟨used, hsplit, hused⟩ := hoperand left middle hread
  obtain ⟨used', rfl, hused'⟩ := hchain.tail_sound ih hshort (hchain.first hused) htail
  exact ⟨used ++ used', by rw [hsplit, List.append_assoc], hused'⟩

end Chain

theorem read_sound (level : Level) (ts : List (Token R)) : level.Sound ts := by
  induction hlength : ts.length using Nat.strongRecOn generalizing level ts with
  | ind n hrec =>
    have ih : SoundBelow ts := fun level us hus => hrec us.length (hlength ▸ hus) level us rfl
    have hproduct := product_chain.sound ih ih.signed
    cases level with
    | sum => exact sum_chain.sound ih hproduct
    | product => exact hproduct
    | signed => exact ih.signed
    | power => exact ih.power
    | primary => exact ih.primary

end Soundness

section Completeness

/-- What a level does behind the tokens of a tree. -/
def Level.resume : Level → Expression R → List (Token R) → Found R
  | .sum => moreTerms
  | .product => moreFactors
  | _ => fun e rest => .ok (e, rest)

theorem resume_of_ends {level : Level} {rest : List (Token R)} (h : level.Ends rest)
    (e : Expression R) : level.resume e rest = .ok (e, rest) := by
  cases level with
  | sum =>
    refine moreTerms_done e fun t ht => ?_
    have hextends := h t ht
    cases t <;> first | rfl | cases hextends
  | product =>
    refine moreFactors_done e fun t ht => ?_
    have hextends := h t ht
    cases t <;> first | rfl | cases hextends
  | signed | power | primary => rfl

theorem read_to_end {level : Level} {ts : List (Token R)} {e : Expression R}
    (h : ∀ {rest}, level.operand.Ends rest → level.read (ts ++ rest) = level.resume e rest)
    {rest : List (Token R)} (hrest : level.Ends rest) :
    level.read (ts ++ rest) = .ok (e, rest) :=
  (h hrest.operand).trans (resume_of_ends hrest e)

theorem Chain.read_first {whole operand : Level} {sign? : Token R → Option Operator}
    {tail : Expression R → List (Token R) → Found R} (hchain : Chain whole operand sign? tail)
    {ts rest : List (Token R)} {e : Expression R} (h : operand.read ts = .ok (e, rest)) :
    whole.read ts = tail e rest := by
  rw [hchain.read, h]
  rfl

theorem Chain.read_more {whole operand : Level} {sign? : Token R → Option Operator}
    {tail : Expression R → List (Token R) → Found R} (hchain : Chain whole operand sign? tail)
    {t : Token R} {op : Operator} (hsign : sign? t = some op) {ts us rest : List (Token R)}
    {left right : Expression R} (hleft : whole.read (ts ++ t :: us) = tail left (t :: us))
    (hright : operand.read us = .ok (right, rest)) :
    whole.read (ts ++ t :: us) = tail (.binary op left right) rest := by
  rw [hleft, hchain.next hsign, hright]
  rfl

/-- The tree that tokens derive is read off any list that starts with them and does not go on with
the operand that they end with. -/
theorem read_append {level : Level} {ts : List (Token R)} {e : Expression R}
    (h : Derives level ts e) {rest : List (Token R)} (hrest : level.operand.Ends rest) :
    level.read (ts ++ rest) = level.resume e rest := by
  induction h generalizing rest with
  | ofProduct _ ih =>
    exact sum_chain.read_first (read_to_end ih hrest)
  | add _ _ ihleft ihright =>
    rw [List.append_assoc]
    exact sum_chain.read_more rfl (ihleft (ends_cons rfl _)) (read_to_end ihright hrest)
  | sub _ _ ihleft ihright =>
    rw [List.append_assoc]
    exact sum_chain.read_more rfl (ihleft (ends_cons rfl _)) (read_to_end ihright hrest)
  | ofSigned _ ih =>
    exact product_chain.read_first (read_to_end ih hrest)
  | mul _ _ ihleft ihright =>
    rw [List.append_assoc]
    exact product_chain.read_more rfl (ihleft (ends_cons rfl _)) (read_to_end ihright hrest)
  | div _ _ ihleft ihright =>
    rw [List.append_assoc]
    exact product_chain.read_more rfl (ihleft (ends_cons rfl _)) (read_to_end ihright hrest)
  | negate _ ih =>
    rw [List.cons_append, read_signed_minus, ih hrest]
    rfl
  | positive _ ih => rw [List.cons_append, read_signed_plus, ih hrest]
  | ofPower h ih =>
    -- the signed level would take a leading sign, but a power has none
    obtain ⟨t, us, rfl, hsign⟩ := h.power_head (.inl rfl)
    rw [read_signed, ih (ends_power_iff.2 hrest)]
    · rfl
    · rintro vs hvs
      cases hvs
      cases hsign
    · rintro vs hvs
      cases hvs
      cases hsign
  | ofPrimary _ ih =>
    rw [read_power, ih hrest.primary]
    refine exponent_done _ ?_
    rintro us rfl
    cases hrest _ rfl
  | pow _ _ ihbase ihexponent =>
    rw [List.append_assoc, List.cons_append, read_power, ihbase (ends_cons rfl _)]
    change (Level.signed.read (_ ++ rest)).next _ = _
    rw [ihexponent (ends_power_iff.1 hrest)]
    rfl
  | number value => exact read_primary_number value rest
  | identifier text =>
    refine read_primary_identifier text ?_
    rintro us rfl
    cases hrest _ rfl
  | call text _ ih =>
    have hsum := read_to_end ih (ends_cons rfl rest : Level.sum.Ends (.closeParen :: rest))
    rw [List.append_assoc]
    refine (read_primary_call text _).trans ?_
    change (Level.sum.read (_ ++ .closeParen :: rest)).next _ = _
    rw [hsum]
    rfl
  | parentheses _ ih =>
    have hsum := read_to_end ih (ends_cons rfl rest : Level.sum.Ends (.closeParen :: rest))
    rw [List.append_assoc]
    refine (read_primary_parentheses _).trans ?_
    change (Level.sum.read (_ ++ .closeParen :: rest)).next _ = _
    rw [hsum]
    rfl

theorem ofTokens_of_derives (input : String) {ts : List (Token R)} {e : Expression R}
    (h : Derives .sum ts e) : ofTokens input ts = .ok e := by
  have hends : Level.sum.Ends ([] : List (Token R)) := nofun
  have hread := read_to_end (read_append h) hends
  rw [List.append_nil] at hread
  obtain ⟨hrest, hsum⟩ := bare_eq_ok.1 hread
  rw [ofTokens, hsum]

end Completeness

theorem derives_of_ofTokens {input : String} {ts : List (Token R)} {e : Expression R}
    (h : ofTokens input ts = .ok e) : Derives .sum ts e := by
  unfold ofTokens at h
  split at h
  · cases h
  · rename_i e' hrest hsum
    cases h
    obtain ⟨used, rfl, hused⟩ := read_sound .sum ts e [] (bare_eq_ok.2 ⟨hrest, hsum⟩)
    rwa [List.append_nil]
  · cases h

section Text

variable {C : Type} [RealNumber R] [ComplexNumber C R]

/-- The parser accepts exactly the lists of tokens that the grammar derives, and reads their one
tree; any other list is a parse error. What is read before the end of a list is derived by the
tokens that are used up. -/
theorem ofTokens_grammar (input : String) (ts : List (Token R)) :
    (∀ e, ofTokens input ts = .ok e ↔ Derives .sum ts e) ∧
    (∀ e e', Derives .sum ts e → Derives .sum ts e' → e = e') ∧
    ((∀ e, ¬Derives .sum ts e) → ∃ fault, ofTokens input ts = .error fault ∧
      ∀ vars, Token.scan input.toList = .ok ts →
        (Poly.parse vars input : Except Error (Poly C)) = .error (.parse fault)) ∧
    ∀ e rest h, parseSum ts = .ok (e, ⟨rest, h⟩) →
      ∃ used, used ≠ [] ∧ ts = used ++ rest ∧ Derives .sum used e := by
  refine ⟨fun e => ⟨derives_of_ofTokens, ofTokens_of_derives input⟩, fun e e' h h' => ?_,
    fun hnone => ?_, fun e rest h hsum => ?_⟩
  · have hsame := (ofTokens_of_derives input h).symm.trans (ofTokens_of_derives input h')
    exact Except.ok.inj hsame
  · cases hread : ofTokens input ts with
    | ok e => exact absurd (derives_of_ofTokens hread) (hnone e)
    | error fault =>
      refine ⟨fault, rfl, fun vars hscan => ?_⟩
      simp only [Poly.parse, Expression.parse, hscan, hread]
  · obtain ⟨used, rfl, hused⟩ := read_sound .sum ts e rest (bare_eq_ok.2 ⟨h, hsum⟩)
    refine ⟨used, ?_, rfl, hused⟩
    rintro rfl
    exact absurd h (Nat.lt_irrefl _)

end Text

end Expression

end LieNormalForm
