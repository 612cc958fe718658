/-
Source locations. A span is a range of byte offsets given by its two ends; nothing forces the ends into order, so
its length is the truncated difference and an inverted span is empty.
-/

namespace DualInference

/-- the byte range of a node: it starts at `start` and ends before `stop` -/
structure Span where
  start : Nat := 0
  stop : Nat := 0
deriving DecidableEq, Inhabited

/-- where a report puts its mark: an offset and a number of bytes -/
structure Region where
  offset : Nat
  length : Nat
deriving DecidableEq

namespace Span

/-- the least span that covers both -/
def merge (a b : Span) : Span :=
  ⟨min a.start b.start, max a.stop b.stop⟩

/-- number of bytes covered; zero if the ends are inverted -/
def length (s : Span) : Nat :=
  s.stop - s.start

def isEmpty (s : Span) : Bool :=
  s.length == 0

def region (s : Span) : Region :=
  ⟨s.start, s.length⟩

end Span

end DualInference
