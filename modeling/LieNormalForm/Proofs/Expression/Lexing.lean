import LieNormalForm.Proofs.Expression.Grammar

/-!
# The tokens of a composed text

Numbers and names run as far as they can, so what a text is cut into may change when something
is written behind it. Before a sign or a blank it does not: there a text keeps its tokens, and the
tokens of a composed text are those of its pieces.
-/

namespace LieNormalForm

namespace Token

variable {R : Type} [Numeral R]

/-- Nothing that a number or a name would take in stands in front. -/
def Separated (rest : List Char) : Prop :=
  ∀ c, rest.head? = some c → isNumberChar c = false ∧ continuesName c = false

/-- The text has these tokens, whatever separated text comes behind it. -/
def Lexes (text : String) (ts : List (Token R)) : Prop :=
  ∀ rest, Separated rest → scan (text.toList ++ rest) = (scan rest).map (ts ++ ·)

/-- The text starts with a sign or a blank. -/
def Opens (text : String) : Prop := ∀ rest, Separated (text.toList ++ rest)

theorem exists_of_map_eq_ok {A B : Type} {f : A → B} {r : Except ParseFault A} {b : B}
    (h : r.map f = .ok b) : ∃ a, r = .ok a ∧ b = f a := by
  cases r with
  | error fault => cases h
  | ok a =>
    cases h
    exact ⟨a, rfl, rfl⟩

theorem separated_nil : Separated [] := by
  intro c hc
  cases hc

theorem separated_cons {c : Char} (hnumber : isNumberChar c = false)
    (hname : continuesName c = false) (rest : List Char) : Separated (c :: rest) := by
  intro d hd
  obtain rfl := Option.some.inj hd
  exact ⟨hnumber, hname⟩

section Runs

variable {cs rest : List Char} {keep : Char → Bool} (hcs : ∀ c ∈ cs, keep c = true)
  (hrest : ∀ c, rest.head? = some c → keep c = false)
include hcs hrest

theorem takeWhile_append_separated : (cs ++ rest).takeWhile keep = cs := by
  rw [List.takeWhile_append_of_pos hcs]
  cases rest with
  | nil => rw [List.takeWhile_nil, List.append_nil]
  | cons c rest => rw [List.takeWhile_cons_of_neg (by simp [hrest c rfl]), List.append_nil]

theorem dropWhile_append_separated : (cs ++ rest).dropWhile keep = rest := by
  rw [List.dropWhile_append_of_pos hcs]
  cases rest with
  | nil => rw [List.dropWhile_nil]
  | cons c rest => rw [List.dropWhile_cons_of_neg (by simp [hrest c rfl])]

end Runs

theorem isNumberChar_of_mem_toDigits {n : Nat} {c : Char} (hc : c ∈ Nat.toDigits 10 n) :
    isNumberChar c = true :=
  Bool.or_eq_true_iff.2 (.inl (Nat.isDigit_of_mem_toDigits (by decide) (by decide) hc))

theorem isBlank_of_isNumberChar {c : Char} (h : isNumberChar c = true) :
    Text.isBlank c = false := by
  have hc : c.toNat = 46 ∨ 48 ≤ c.toNat ∧ c.toNat ≤ 57 := by
    rw [isNumberChar, Bool.or_eq_true, Bool.and_eq_true, decide_eq_true_eq, decide_eq_true_eq,
      beq_iff_eq] at h
    rcases h with h | rfl
    · exact .inr h
    · exact .inl rfl
  refine Bool.eq_false_iff.2 fun hblank => ?_
  obtain ⟨r, hr, hrange⟩ := Text.inRanges_mem hblank
  simp only [Text.blankRanges, List.mem_cons, List.not_mem_nil, or_false] at hr
  rcases hr with rfl | rfl | rfl | rfl | rfl | rfl | rfl | rfl | rfl | rfl <;> omega

omit [Numeral R] in
theorem sign_chars {c : Char} {sign : Token R} (h : ofSign? c = some sign) :
    Text.isBlank c = false ∧ isNumberChar c = false ∧ startsName c = false ∧
      continuesName c = false := by
  unfold ofSign? at h
  split at h
  all_goals cases h
  all_goals decide +kernel

omit [Numeral R] in
theorem ofSign?_ne_name {c : Char} {text : String} : ofSign? c ≠ some (name text : Token R) := by
  intro h
  unfold ofSign? at h
  split at h
  all_goals cases h

theorem scan_sign {c : Char} {sign : Token R} (h : ofSign? c = some sign) (cs : List Char) :
    scan (c :: cs) = (scan cs).map (sign :: ·) := by
  obtain ⟨hblank, hnumber, hname, -⟩ := sign_chars h
  rw [scan, if_neg (by simp [hblank]), if_neg (by simp [hnumber]), if_neg (by simp [hname]), h]

namespace Lexes

variable {t u : String} {ts us : List (Token R)}

theorem scan_eq (h : Lexes t ts) : (scan t.toList : Except _ (List (Token R))) = .ok ts := by
  have hscan := h [] separated_nil
  rwa [List.append_nil, scan_nil, Except.map, List.append_nil] at hscan

theorem append (ht : Lexes t ts) (hopens : Opens u) (hu : Lexes u us) :
    Lexes (t ++ u) (ts ++ us) := by
  intro rest hrest
  rw [String.toList_append, List.append_assoc, ht _ (hopens rest), hu rest hrest]
  cases (scan rest : Except ParseFault (List (Token R))) with
  | error fault => rfl
  | ok vs => exact congrArg Except.ok (List.append_assoc ts us vs).symm

theorem number {x : R} (hne : t ≠ "") (hdigits : ∀ c ∈ t.toList, isNumberChar c = true)
    (hread : Numeral.read? t = some x) : Lexes t [.number x] := by
  intro rest hrest
  obtain ⟨c, cs, hcs⟩ := List.exists_cons_of_ne_nil (mt String.toList_eq_nil_iff.1 hne)
  obtain ⟨hc, hdigits⟩ := List.forall_mem_cons.1 (hcs ▸ hdigits)
  have hstop := fun d hd => (hrest d hd).1
  have htext : String.ofList (c :: cs) = t := by rw [← hcs, String.ofList_toList]
  rw [hcs, List.cons_append, scan, if_neg (by simp [isBlank_of_isNumberChar hc]), if_pos hc]
  dsimp only
  rw [takeWhile_append_separated hdigits hstop, dropWhile_append_separated hdigits hstop, htext,
    hread]
  rfl

end Lexes

/-- The names of a scan are no longer than the text. -/
theorem length_le_of_scan {cs : List Char} {ts : List (Token R)} (h : scan cs = .ok ts)
    {text : String} (htext : .name text ∈ ts) : text.toList.length ≤ cs.length := by
  fun_induction scan (R := R) cs generalizing ts with
  | case1 =>
    cases h
    cases htext
  | case2 c cs hblank ih => exact Nat.le_succ_of_le (ih h htext)
  | case3 => cases h
  | case4 c cs =>
    rename_i ih
    obtain ⟨us, hus, rfl⟩ := exists_of_map_eq_ok h
    have hlength := ih hus (List.mem_of_ne_of_mem (fun heq => by cases heq) htext)
    exact Nat.le_succ_of_le (Nat.le_trans hlength (length_dropWhile_le _ cs))
  | case5 c cs =>
    rename_i ih
    obtain ⟨us, hus, rfl⟩ := exists_of_map_eq_ok h
    rcases List.mem_cons.1 htext with heq | htext
    · injection heq with heq
      rw [heq, String.toList_ofList, List.length_cons, List.length_cons]
      exact Nat.succ_le_succ (List.takeWhile_sublist _).length_le
    · exact Nat.le_succ_of_le (Nat.le_trans (ih hus htext) (length_dropWhile_le _ cs))
  | case6 c cs _ _ _ sign hsign ih =>
    obtain ⟨us, hus, rfl⟩ := exists_of_map_eq_ok h
    have hne : name text ≠ sign := by
      rintro rfl
      exact ofSign?_ne_name hsign
    exact Nat.le_succ_of_le (ih hus (List.mem_of_ne_of_mem hne htext))
  | case7 => cases h

/-- A character that starts a name, and further ones that go on with it. -/
def IsName (name : String) : Prop :=
  ∃ c cs, name.toList = c :: cs ∧ Text.isBlank c = false ∧ isNumberChar c = false ∧
    startsName c = true ∧ ∀ d ∈ cs, continuesName d = true

/-- A text that is scanned into itself as a name. -/
theorem isName_of_scan {text : String}
    (h : (scan text.toList : Except ParseFault (List (Token R))) = .ok [.name text]) :
    IsName text := by
  cases htext : text.toList with
  | nil =>
    rw [htext, scan] at h
    cases h
  | cons c cs =>
    rw [htext, scan] at h
    split at h
    · -- behind a blank only a shorter name can come
      have hlength := length_le_of_scan h (List.mem_singleton.2 rfl)
      rw [htext, List.length_cons] at hlength
      omega
    · rename_i hblank
      split at h
      · dsimp only at h
        split at h
        · cases h
        · obtain ⟨us, -, heq⟩ := exists_of_map_eq_ok h
          cases heq
      · rename_i hnumber
        split at h
        · rename_i hstart
          obtain ⟨us, -, heq⟩ := exists_of_map_eq_ok h
          injection heq with hname
          injection hname with hname
          rw [hname, String.toList_ofList, List.cons.injEq] at htext
          have hall := List.all_takeWhile (l := cs) (p := continuesName)
          rw [htext.2, List.all_eq_true] at hall
          exact ⟨c, cs, by rw [hname, String.toList_ofList, htext.2], eq_false_of_ne_true hblank,
            eq_false_of_ne_true hnumber, hstart, hall⟩
        · split at h
          · rename_i sign hsign
            obtain ⟨us, -, heq⟩ := exists_of_map_eq_ok h
            injection heq with hname
            exact absurd (hname ▸ hsign) ofSign?_ne_name
          · cases h

theorem Lexes.name {name : String} (h : IsName name) : Lexes (R := R) name [.name name] := by
  intro rest hrest
  obtain ⟨c, cs, hcs, hblank, hnumber, hstart, hcontinues⟩ := h
  have hstop := fun d hd => (hrest d hd).2
  have htext : String.ofList (c :: cs) = name := by rw [← hcs, String.ofList_toList]
  rw [hcs, List.cons_append, scan, if_neg (by simp [hblank]), if_neg (by simp [hnumber]),
    if_pos hstart]
  dsimp only
  rw [takeWhile_append_separated hcontinues hstop, dropWhile_append_separated hcontinues hstop,
    htext]
  rfl

/-- A text of signs and blanks, which are tokens of their own wherever they stand. -/
structure Marks (text : String) (ts : List (Token R)) : Prop where
  opens : Opens text
  scan_append : ∀ rest, scan (text.toList ++ rest) = (scan rest).map (ts ++ ·)

theorem marks_sign {c : Char} {sign : Token R} (h : ofSign? c = some sign) :
    Marks (String.singleton c) [sign] := by
  refine ⟨fun rest => ?_, fun rest => ?_⟩
  · obtain ⟨-, hnumber, -, hname⟩ := sign_chars h
    rw [String.toList_singleton]
    exact separated_cons hnumber hname _
  · rw [String.toList_singleton]
    exact scan_sign h rest

/-- A sign between blanks. -/
theorem marks_spaced {c : Char} {sign : Token R} (h : ofSign? c = some sign) :
    Marks (" " ++ String.singleton c ++ " ") [sign] := by
  have htext : (" " ++ String.singleton c ++ " ").toList = [' ', c, ' '] := by
    rw [String.toList_append, String.toList_append, String.toList_singleton]
    rfl
  have hblank : Text.isBlank ' ' = true := by decide
  refine ⟨fun rest => ?_, fun rest => ?_⟩
  · rw [htext]
    exact separated_cons (by decide) (by decide +kernel) _
  · rw [htext, List.cons_append, scan_blank hblank, List.cons_append, scan_sign h, List.cons_append,
      scan_blank hblank]
    rfl

namespace Lexes

variable {t u op : String} {ts us os : List (Token R)}

theorem marked (hop : Marks op os) (hu : Lexes u us) : Lexes (op ++ u) (os ++ us) := by
  intro rest hrest
  rw [String.toList_append, List.append_assoc, hop.scan_append, hu rest hrest]
  cases (scan rest : Except ParseFault (List (Token R))) with
  | error fault => rfl
  | ok vs => exact congrArg Except.ok (List.append_assoc os us vs).symm

theorem between (ht : Lexes t ts) (hop : Marks op os) (hu : Lexes u us) :
    Lexes (t ++ op ++ u) (ts ++ (os ++ us)) := by
  have hopens : Opens (op ++ u) := by
    intro rest
    rw [String.toList_append, List.append_assoc]
    exact hop.opens _
  rw [String.append_assoc]
  exact ht.append hopens (hu.marked hop)

theorem enclosed (ht : Lexes t ts) :
    Lexes ("(" ++ t ++ ")") (.openParen :: ts ++ [.closeParen]) := by
  have hopen : Marks (R := R) "(" [.openParen] := marks_sign (c := '(') rfl
  have hclose : Marks (R := R) ")" [.closeParen] := marks_sign (c := ')') rfl
  exact (ht.marked hopen).append hclose.opens fun rest _ => hclose.scan_append rest

end Lexes

end Token

end LieNormalForm
