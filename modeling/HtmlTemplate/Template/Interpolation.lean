import HtmlTemplate.Text.Blank
import HtmlTemplate.Text.Search

/-!
# Interpolation

Text is split on a pair of delimiters into fixed runs and expressions. An opening delimiter that
nothing closes is text, and so is a pair with nothing between. Fixed runs that meet become one.
-/

namespace HtmlTemplate.Template

open Text

structure Delimiters where
  opening : String
  closing : String
  deriving DecidableEq, Repr, Inhabited

/-- Double braces. -/
def Delimiters.braces : Delimiters := ⟨"\x7b\x7b", "\x7d\x7d"⟩

def Delimiters.display (d : Delimiters) : String := d.opening ++ "," ++ d.closing

inductive Part where
  | fixed (text : String)
  /-- An expression without the blanks at its ends. -/
  | expression (code : String)
  deriving DecidableEq, Repr, Inhabited

def Part.isFixed : Part → Bool
  | .fixed _ => true
  | .expression _ => false

/-- A fixed run, if there is anything in it. -/
def fixedRun (s : List Char) : List Part :=
  if s.isEmpty then [] else [.fixed (String.ofList s)]

/-- Splits a text whose first fixed run continues one begun before it, kept in reverse. -/
def splitFrom (opening closing : List Char) (nonempty : opening ≠ []) (begun s : List Char) :
    List Part :=
  match h : cut? opening s with
  | none => fixedRun (begun.reverse ++ s)
  | some (before, inner) =>
    match h' : cut? closing inner with
    | none => fixedRun (begun.reverse ++ s)
    | some ([], rest) =>
      have := length_lt_of_cut? nonempty h
      have : rest.length ≤ inner.length := by simp [← cut?_append h']
      splitFrom opening closing nonempty
        (closing.reverse ++ (opening.reverse ++ (before.reverse ++ begun))) rest
    | some (c :: code, rest) =>
      have := length_lt_of_cut? nonempty h
      have : rest.length ≤ inner.length := by simp [← cut?_append h']; omega
      fixedRun (begun.reverse ++ before) ++
        .expression (String.ofList (trimChars (c :: code))) ::
          splitFrom opening closing nonempty [] rest
termination_by s.length

/-- The parts of a text. Without a delimiter at either side there is nothing to split on. -/
def Delimiters.split (d : Delimiters) (text : String) : List Part :=
  if h : d.opening.toList = [] then fixedRun text.toList
  else if d.closing.toList = [] then fixedRun text.toList
  else splitFrom d.opening.toList d.closing.toList h [] text.toList

def Delimiters.interpolates (d : Delimiters) (text : String) : Bool :=
  (d.split text).any fun part => !part.isFixed

end HtmlTemplate.Template
