import LieNormalForm.Error
import LieNormalForm.Scalar
import LieNormalForm.Text.Alphabetic
import LieNormalForm.Text.Blank
import LieNormalForm.Text.Extending
import LieNormalForm.Text.Ignorable
import LieNormalForm.Text.Numeric

/-!
# Tokens

White space separates tokens and is dropped. Digits and points run together into a number,
a letter or an underscore starts a name that runs on through letters, number characters and
underscores, and seven signs stand for themselves.
-/

namespace LieNormalForm

inductive Token (R : Type)
  | number (value : R)
  | name (text : String)
  | plus | minus | star | slash | caret | openParen | closeParen
deriving DecidableEq

namespace Token

/-- A character of a name as it is shown: characters that attach to the one before them or
leave no mark of their own appear by their code point. -/
def shownChar (c : Char) : String :=
  if Text.isExtending c || Text.isIgnorable c then
    "\\u\x7b" ++ String.ofList (Nat.toDigits 16 c.toNat) ++ "\x7d"
  else String.singleton c

/-- A token as error messages show it. -/
def shown {R : Type} [Numeral R] : Token R → String
  | number value => "Number(" ++ Numeral.marked value ++ ")"
  | name text => "Identifier(\"" ++ String.join (text.toList.map shownChar) ++ "\")"
  | plus => "Plus"
  | minus => "Minus"
  | star => "Star"
  | slash => "Slash"
  | caret => "Caret"
  | openParen => "LParen"
  | closeParen => "RParen"

def isNumberChar (c : Char) : Bool := ('0' ≤ c && c ≤ '9') || c == '.'

def startsName (c : Char) : Bool := Text.isAlphabetic c || c == '_'

def continuesName (c : Char) : Bool := Text.isAlphabetic c || Text.isNumeric c || c == '_'

/-- The token of a sign that stands for itself. -/
def ofSign? {R : Type} : Char → Option (Token R)
  | '+' => some plus
  | '-' => some minus
  | '*' => some star
  | '/' => some slash
  | '^' => some caret
  | '(' => some openParen
  | ')' => some closeParen
  | _ => none

theorem length_dropWhile_le (keep : Char → Bool) (cs : List Char) :
    (cs.dropWhile keep).length ≤ cs.length := by
  induction cs with
  | nil => simp
  | cons c cs ih =>
    rw [List.dropWhile_cons]
    split
    · exact Nat.le_succ_of_le ih
    · exact Nat.le_refl _

/-- The tokens of a text. -/
def scan {R : Type} [Numeral R] : List Char → Except ParseFault (List (Token R))
  | [] => .ok []
  | c :: cs =>
    if Text.isBlank c then scan cs
    else if isNumberChar c then
      let text := String.ofList (c :: cs.takeWhile isNumberChar)
      match Numeral.read? text with
      | none => .error (.malformedNumber text)
      | some value => (scan (cs.dropWhile isNumberChar)).map (number value :: ·)
    else if startsName c then
      let text := String.ofList (c :: cs.takeWhile continuesName)
      (scan (cs.dropWhile continuesName)).map (name text :: ·)
    else
      match ofSign? c with
      | some sign => (scan cs).map (sign :: ·)
      | none => .error (.unexpectedCharacter c)
termination_by cs => cs.length
decreasing_by
  all_goals simp_wf
  all_goals have := length_dropWhile_le isNumberChar cs
  all_goals have := length_dropWhile_le continuesName cs
  all_goals omega

theorem scan_nil {R : Type} [Numeral R] : scan ([] : List Char) = (.ok [] : Except _ (List (Token R))) := by
  simp [scan]

theorem scan_blank {R : Type} [Numeral R] {c : Char} (h : Text.isBlank c = true) (cs : List Char) :
    (scan (c :: cs) : Except _ (List (Token R))) = scan cs := by
  rw [scan, if_pos h]

end Token

end LieNormalForm
