/-!
# Positions in a template

A span is a stretch of the template's bytes; a locus is the position that a report carries,
of which either end may be unknown.
-/

namespace HtmlTemplate

/-- A stretch of bytes, given by where it begins and how many bytes it has. -/
structure Span where
  start : Nat
  length : Nat
  deriving DecidableEq, Repr, Inhabited

namespace Span

/-- The first byte after the span. -/
def stop (s : Span) : Nat := s.start + s.length

/-- The empty span at a position. -/
def empty (position : Nat) : Span := ⟨position, 0⟩

/-- The span between two positions. -/
def between (start stop : Nat) : Span := ⟨start, stop - start⟩

def isEmpty (s : Span) : Bool := s.length == 0

def shift (s : Span) (n : Nat) : Span := { s with start := s.start + n }

theorem stop_between {start stop : Nat} (h : start ≤ stop) : (between start stop).stop = stop := by
  simp [between, Span.stop]
  omega

theorem between_start_stop (s : Span) : between s.start s.stop = s := by
  rw [between, stop, Nat.add_sub_cancel_left]

theorem stop_shift (s : Span) (n : Nat) : (s.shift n).stop = s.stop + n := by
  simp [shift, stop]
  omega

end Span

/-- The position of a report; either end may be unknown. -/
structure Locus where
  start : Option Nat
  stop : Option Nat
  deriving DecidableEq, Repr, Inhabited

namespace Locus

/-- The locus of a report that has no position. -/
def unknown : Locus := ⟨none, none⟩

/-- The locus that begins at a position and has no known end. -/
def startingAt (position : Nat) : Locus := ⟨some position, none⟩

def ofSpan (s : Span) : Locus := ⟨some s.start, some s.stop⟩

def ofSpan? (s : Option Span) : Locus := s.elim unknown ofSpan

def isUnknown (r : Locus) : Bool := r.start.isNone && r.stop.isNone

def shift (r : Locus) (n : Nat) : Locus := ⟨r.start.map (· + n), r.stop.map (· + n)⟩

theorem shift_ofSpan (s : Span) (n : Nat) : (ofSpan s).shift n = ofSpan (s.shift n) := by
  simp [ofSpan, shift, Span.shift, Span.stop]
  omega

end Locus

end HtmlTemplate
