/-! Half-open byte ranges. -/
namespace Phrasebook

/-- The bytes from `start` up to and without `stop`. A span may be given backwards. -/
structure Span where
  start : Nat
  stop : Nat
deriving DecidableEq, Repr, Inhabited

namespace Span

/-- The least span that covers both. -/
def hull (a b : Span) : Span := ⟨min a.start b.start, max a.stop b.stop⟩

def contains (a b : Span) : Bool := a.start ≤ b.start && b.stop ≤ a.stop

def overlaps (a b : Span) : Bool := a.start < b.stop && b.start < a.stop

def isEmpty (a : Span) : Bool := a.start == a.stop

/-- The number of bytes. Offsets are 64-bit words, so a backward span wraps around. -/
def size (a : Span) : Nat :=
  if a.start ≤ a.stop then a.stop - a.start else UInt64.size - (a.start - a.stop)

theorem size_eq {a : Span} (h : a.start ≤ a.stop) : a.size = a.stop - a.start := by
  simp [size, h]

theorem contains_iff {a b : Span} :
    a.contains b = true ↔ a.start ≤ b.start ∧ b.stop ≤ a.stop := by
  simp [contains]

theorem overlaps_iff {a b : Span} :
    a.overlaps b = true ↔ a.start < b.stop ∧ b.start < a.stop := by
  simp [overlaps]

end Span

end Phrasebook
