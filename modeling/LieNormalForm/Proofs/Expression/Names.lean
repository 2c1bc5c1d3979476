import LieNormalForm.Proofs.Expression.Expansion
import LieNormalForm.Double.Complex
import LieNormalForm.Stored.Write

/-!
# Which variable a name stands for

A name is looked up from the first variable on, so that every variable is found by its own name
exactly if no name appears twice. The constructor checks this. Stored names are taken as they are:
with a repeated name the later variable can be written, but what is written is read as the earlier
one.
-/

namespace LieNormalForm

namespace Variables

variable {vars : Variables}

theorem ofNames_eq_ok_iff {names : List String} :
    ofNames names = .ok vars ↔ vars.names = names ∧ names.Nodup := by
  constructor
  · intro h
    obtain ⟨rfl, hnodup⟩ := ofNames_nodup h
    exact ⟨rfl, hnodup⟩
  · rintro ⟨rfl, hnodup⟩
    have hnone : firstRepeated? [] vars.names = none :=
      (firstRepeated?_eq_none_iff [] vars.names).2 ⟨hnodup, by simp⟩
    simp only [ofNames, hnone]

/-- The variables are told apart by their names. -/
theorem nodup_iff_indexOf? :
    vars.names.Nodup ↔ ∀ k < vars.size, vars.indexOf? (vars.nameOf k) = some k := by
  refine ⟨fun h k hk => indexOf?_nameOf h hk, fun h => ?_⟩
  rw [List.nodup_iff_injective_getElem]
  rintro ⟨j, hj⟩ ⟨k, hk⟩ hname
  have hnames : vars.nameOf j = vars.nameOf k := by
    rw [nameOf, nameOf, List.getD_eq_getElem _ _ hj, List.getD_eq_getElem _ _ hk]
    exact hname
  have hfound := h j hj
  rw [hnames, h k hk] at hfound
  exact Fin.ext (Option.some.inj hfound).symm

end Variables

namespace Stored

variable {R : Type}

/-- The names are what is stored: a list of texts, by itself or in the record of the variables. -/
def StoresNames (v : Stored R) (names : List String) : Prop :=
  v = list [list (names.map text)] ∨
    ∃ fields, v = record fields ∧ field? "names" fields = some (list (names.map text))

theorem readText_eq_ok_iff {v : Stored R} {s : String} : readText v = .ok s ↔ v = text s := by
  cases v <;> simp [readText]

theorem readItems_readText_iff {vs : List (Stored R)} {names : List String} :
    readItems readText vs = .ok names ↔ vs = names.map text := by
  refine ⟨fun h => ?_, fun h => h ▸ readItems_map fun _ _ => rfl⟩
  induction vs generalizing names with
  | nil =>
    cases h
    rfl
  | cons v vs ih =>
    simp only [readItems] at h
    split at h
    · cases h
    · rename_i s hs
      split at h
      · cases h
      · rename_i rest hrest
        cases h
        rw [readText_eq_ok_iff.1 hs, ih hrest, List.map_cons]

theorem readList_readText_iff {v : Stored R} {names : List String} :
    readList readText v = .ok names ↔ v = list (names.map text) := by
  cases v <;> simp [readList, readItems_readText_iff]

/-- Any stored list of names is taken as it is. -/
theorem readVariables_eq_ok_iff {v : Stored R} {vars : Variables} :
    readVariables v = .ok vars ↔ v.StoresNames vars.names := by
  have hmap : ∀ r : Except StoredError (List String),
      r.map Variables.mk = .ok vars ↔ r = .ok vars.names := by
    rintro (e | names)
    · simp [Except.map]
    · cases vars
      simp [Except.map]
  unfold StoresNames
  constructor
  · intro h
    unfold readVariables at h
    split at h
    · exact .inl (by rw [readList_readText_iff.1 ((hmap _).1 h)])
    · rename_i fields
      have hnames := (hmap _).1 h
      cases hfield : field? "names" fields with
      | none => rw [hfield] at hnames; cases hnames
      | some w =>
        rw [hfield] at hnames
        exact .inr ⟨fields, rfl, by rw [hfield, readList_readText_iff.1 hnames]⟩
    · cases h
  · rintro (rfl | ⟨fields, rfl, hfield⟩)
    · exact (hmap _).2 (readList_readText_iff.2 rfl)
    · refine (hmap _).2 ?_
      rw [hfield]
      exact readList_readText_iff.2 rfl

end Stored

namespace Expression

variable {C R : Type} [RealNumber R] [Numeral R] [ComplexNumber C R] {vars : Variables}

omit [Numeral R] in
theorem expandName_nameOf (hnodup : vars.names.Nodup) {k : ℕ} (hk : k < vars.size) :
    expandName vars (vars.nameOf k) = .ok (Poly.coordinate vars.size k : Poly C) := by
  simp only [expandName, Variables.indexOf?_nameOf hnodup hk]

/-- A name alone is read as the variable it stands for. -/
theorem parse_name {name : String} (h : Token.IsName name) {k : ℕ}
    (hindex : vars.indexOf? name = some k) :
    Poly.parse vars name = .ok (Poly.coordinate vars.size k : Poly C) := by
  have hderives : Derives .sum [Token.name name] (identifier name : Expression R) :=
    .ofProduct (.ofSigned (.ofPower (.ofPrimary (.identifier name))))
  have hlexes : Token.Lexes (R := R) name [.name name] := .name h
  simp only [Poly.parse, Expression.parse, hlexes.scan_eq, ofTokens_of_derives name hderives, expand,
    expandName, hindex]

/-- Names are accepted by the constructor if none appears twice, and then every variable is found
by its name, as an identifier in a tree and as a text. Stored names are accepted in any case, so
for them this holds if none of the stored names appears twice. -/
theorem names_identify_variables (vars : Variables) :
    (∀ names, Variables.ofNames names = .ok vars ↔ vars.names = names ∧ names.Nodup) ∧
    (∀ v : Stored R, v.readVariables = .ok vars ↔ v.StoresNames vars.names) ∧
    (vars.names.Nodup ↔ ∀ k < vars.size, vars.indexOf? (vars.nameOf k) = some k) ∧
    (vars.names.Nodup → ∀ k < vars.size,
      (identifier (vars.nameOf k) : Expression R).expand vars =
        .ok (Poly.coordinate vars.size k : Poly C) ∧
      (Token.IsName (vars.nameOf k) →
        Poly.parse vars (vars.nameOf k) = .ok (Poly.coordinate vars.size k : Poly C))) :=
  ⟨fun _ => Variables.ofNames_eq_ok_iff, fun _ => Stored.readVariables_eq_ok_iff,
    Variables.nodup_iff_indexOf?, fun hnodup _ hk => ⟨expandName_nameOf hnodup hk, fun hname =>
      parse_name hname (Variables.indexOf?_nameOf hnodup hk)⟩⟩

/-- Stored names that repeat are accepted, and the second variable is read as the first. -/
theorem readVariables_repeated :
    ∃ vars, (Stored.record [("names", .list [.text "x", .text "x"])] : Stored Float).readVariables =
        .ok vars ∧
      ¬vars.names.Nodup ∧ vars.indexOf? (vars.nameOf 1) = some 0 ∧
      (Poly.coordinate vars.size 1 : Poly FloatComplex).render vars = "x" ∧
      Poly.parse vars "x" = .ok (Poly.coordinate vars.size 0 : Poly FloatComplex) := by
  have hname : Token.IsName "x" := ⟨'x', [], rfl, by decide, by decide, by decide +kernel, by simp⟩
  refine ⟨⟨["x", "x"]⟩, rfl, by decide, rfl, ?_, parse_name hname rfl⟩
  have hterms : (Poly.coordinate 2 1 : Poly FloatComplex).terms = [([0, 1], ⟨1, 0⟩)] := by
    rfl
  rw [show (Variables.size ⟨["x", "x"]⟩) = 2 from rfl, Poly.render, hterms, List.mergeSort_singleton]
  decide +kernel

end Expression

end LieNormalForm
