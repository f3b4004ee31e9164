/-!
# Spans

A span is a half-open range of byte offsets into the text of one file. Tokens, tree nodes and
diagnostics carry one; the span of a composite node is the smallest one around its parts.
-/

namespace C1Lang

/-- The bytes from `start` up to, and without, `stop`. -/
structure Span where
  start : Nat
  stop : Nat
deriving DecidableEq, Repr, Inhabited

namespace Span

def merge (a b : Span) : Span := ⟨min a.start b.start, max a.stop b.stop⟩

def text (s : Span) : String := toString s.start ++ ".." ++ toString s.stop

def shift (n : Nat) (s : Span) : Span := ⟨s.start + n, s.stop + n⟩

/-- The span in offsets of 32 bits, which begin again at zero in longer texts. -/
def wrap (s : Span) : Span := ⟨s.start % 0x100000000, s.stop % 0x100000000⟩

theorem wrap_of_lt {s : Span} (hstart : s.start < 0x100000000) (hstop : s.stop < 0x100000000) :
    s.wrap = s := by
  simp [wrap, Nat.mod_eq_of_lt hstart, Nat.mod_eq_of_lt hstop]

theorem wrap_shift_wrap (n : Nat) (s : Span) :
    (s.wrap.shift n).wrap = (s.shift n).wrap := by
  simp [wrap, shift]

theorem merge_self (a : Span) : a.merge a = a := by
  simp [merge]

end Span

end C1Lang
