import HtmlTemplate.Text.CaseData

/-!
# Small letters

The full lower-case mapping of texts. A character maps on its own, with two exceptions: `İ` gives
two characters, and `Σ` gives `ς` at the end of a word and `σ` elsewhere. Names of elements are
matched after this mapping.
-/

namespace HtmlTemplate.Text

def CapitalRun.contains (run : CapitalRun) (n : Nat) : Bool :=
  run.first ≤ n && n ≤ run.last && (n - run.first) % run.step == 0

/-- The small form of one character, with no regard to its neighbours. -/
def smallForm (c : Char) : List Char :=
  if c.toNat < 128 then [c.toLower]
  else if c == 'İ' then ['i', '\u0307']
  else if c == 'Σ' then ['σ']
  else match capitalRuns.find? (·.contains c.toNat) with
    | some run => [Char.ofNat (c.toNat + run.shift).toNat]
    | none => [c]

def isWithin (runs : List (Nat × Nat)) (c : Char) : Bool :=
  runs.any fun run => run.1 ≤ c.toNat && c.toNat ≤ run.2

/-- Whether the first character that case rules do not ignore is a cased one. -/
def beginsCased (s : List Char) : Bool :=
  match s.dropWhile (isWithin caseIgnorableRuns) with
  | [] => false
  | c :: _ => isWithin casedRuns c

/-- The small form of a character with what stands before it, nearest first, and after it. -/
def smallFormBetween (before : List Char) (c : Char) (after : List Char) : List Char :=
  if c == 'Σ' then if beginsCased before && !beginsCased after then ['ς'] else ['σ']
  else smallForm c

def lowercaseFrom (before done : List Char) : List Char → List Char
  | [] => done.reverse
  | c :: after =>
    lowercaseFrom (c :: before) ((smallFormBetween before c after).reverse ++ done) after

def lowercase (s : String) : String := String.ofList (lowercaseFrom [] [] s.toList)

/-- Equality of texts up to the case of ASCII letters. -/
def eqIgnoringAsciiCase (s t : List Char) : Bool := s.map Char.toLower == t.map Char.toLower

end HtmlTemplate.Text
