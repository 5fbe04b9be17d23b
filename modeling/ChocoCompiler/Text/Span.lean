/-!
# Spans of a source text

A span is a stretch of the source, counted in bytes of its UTF-8 form. Syntax trees only ever
join spans (`Span.cover`); the checked forms (`Span.ofBounds?`, `Span.cover?`, `Span.shift?`) also
refuse a stretch longer than a 32-bit length can say. The characters of a span are found by cutting
the text at its two ends (`cutAt`), which fails inside a character.
-/

namespace ChocoCompiler

/-- A stretch of the source: its first byte and the number of its bytes. -/
structure Span where
  lo : Nat
  len : Nat
  deriving DecidableEq, Repr, Inhabited

/-- Something that stands at a place of the source. -/
structure Located (α : Type) where
  span : Span
  value : α
  deriving DecidableEq, Repr

namespace Span

/-- The offset right after the last byte. -/
def hi (s : Span) : Nat := s.lo + s.len

/-- The empty span at an offset. -/
def point (lo : Nat) : Span := ⟨lo, 0⟩

/-- The span between two offsets. -/
def ofBounds (lo hi : Nat) : Span := ⟨lo, hi - lo⟩

/-- The smallest span that holds both. -/
def cover (s t : Span) : Span := ofBounds (min s.lo t.lo) (max s.hi t.hi)

@[simp] theorem hi_point (lo : Nat) : (point lo).hi = lo := rfl

@[simp] theorem lo_point (lo : Nat) : (point lo).lo = lo := rfl

@[simp] theorem lo_ofBounds (lo hi : Nat) : (ofBounds lo hi).lo = lo := rfl

theorem hi_ofBounds {lo hi : Nat} (h : lo ≤ hi) : (ofBounds lo hi).hi = hi := by
  simp only [ofBounds, Span.hi]; omega

theorem lo_le_hi (s : Span) : s.lo ≤ s.hi := Nat.le_add_right _ _

@[simp] theorem lo_cover (s t : Span) : (s.cover t).lo = min s.lo t.lo := rfl

@[simp] theorem hi_cover (s t : Span) : (s.cover t).hi = max s.hi t.hi := by
  have := s.lo_le_hi
  exact hi_ofBounds (by omega)

/-- The longest span that can be written down. -/
def maxLength : Nat := 0xffffffff

/-- The last offset there is. -/
def maxOffset : Nat := 0xffffffffffffffff

/-- The span itself, unless it is too long. -/
def checked (s : Span) : Option Span := if s.len ≤ maxLength then some s else none

def ofBounds? (lo hi : Nat) : Option Span := (ofBounds lo hi).checked

def cover? (s t : Span) : Option Span := (s.cover t).checked

/-- Moves an offset by a signed distance, stopping at the ends of the range of offsets. -/
def moveOffset (n : Nat) (d : Int) : Nat := min (n + d).toNat maxOffset

/-- Moves both ends; an end that would come to lie before the start stops there. -/
def shift? (s : Span) (dlo dhi : Int) : Option Span :=
  let lo := moveOffset s.lo dlo
  ofBounds? lo (max (moveOffset s.hi dhi) lo)

def display (s : Span) : String := s!"{s.lo}..{s.hi}"

/-- The display together with the length. -/
def describe (s : Span) : String := s!"Span({s.display}, len: {s.len})"

end Span

/-! ## Texts and byte offsets -/

/-- The length of a text in bytes. -/
def byteLength : List Char → Nat
  | [] => 0
  | c :: cs => c.utf8Size + byteLength cs

/-- Cuts a text at a byte offset; there is no cut past the end or inside a character. -/
def cutAt : List Char → Nat → Option (List Char × List Char)
  | cs, 0 => some ([], cs)
  | [], _ + 1 => none
  | c :: cs, n + 1 =>
    if c.utf8Size ≤ n + 1 then
      (cutAt cs (n + 1 - c.utf8Size)).map fun (front, rest) => (c :: front, rest)
    else none

/-- The characters a span covers. -/
def Span.slice? (s : Span) (cs : List Char) : Option (List Char) := do
  let (_, rest) ← cutAt cs s.lo
  let (inner, _) ← cutAt rest s.len
  return inner

end ChocoCompiler
