import RouteNotation.Error

/-!
A place in a byte string: what was passed, what is left, and the position between them. Every
reader moves a cursor forward by some bytes, which `Reaches` says.
-/

namespace RouteNotation.Xml

structure Cursor where
  /-- The bytes before the place, the nearest first. -/
  passed : List UInt8
  /-- The bytes from the place on. -/
  rest : List UInt8
  position : Position
  deriving DecidableEq, Repr

/-- The white space of markup, which is less than what is blank. -/
def isSpace (b : UInt8) : Bool := b == 32 || b == 9 || b == 10 || b == 13

namespace Cursor

def ofBytes (bytes : List UInt8) : Cursor := ⟨[], bytes, .start⟩

def atEnd (c : Cursor) : Bool := c.rest.isEmpty

/-- The byte `ahead` places further on. -/
def peek? (c : Cursor) (ahead : Nat) : Option UInt8 := c.rest[ahead]?

def current? (c : Cursor) : Option UInt8 := c.rest.head?

def startsWith (c : Cursor) (bytes : List UInt8) : Bool := bytes.isPrefixOf c.rest

/-- Passes `n` bytes, or what is left. -/
def advanceBy : Nat → Cursor → Cursor
  | n + 1, ⟨passed, b :: rest, position⟩ => advanceBy n ⟨b :: passed, rest, position.next b⟩
  | _, c => c

def advance (c : Cursor) : Cursor := c.advanceBy 1

def skipSpace (c : Cursor) : Cursor := c.advanceBy (c.rest.takeWhile isSpace).length

/-- Passes the byte if it comes next. -/
def consume? (c : Cursor) (b : UInt8) : Option Cursor :=
  if c.current? = some b then some c.advance else none

/-- The bytes from an earlier offset up to the place; none when the offset lies behind it. -/
def sliceFrom (c : Cursor) (start : Nat) : List UInt8 :=
  (c.passed.take (c.position.offset - start)).reverse

/-- The cursor at the end of the input. -/
def toEnd (c : Cursor) : Cursor := c.advanceBy c.rest.length

@[simp] theorem advanceBy_zero (c : Cursor) : c.advanceBy 0 = c := by
  simp [advanceBy]

@[simp] theorem advanceBy_at_end (n : Nat) (passed : List UInt8) (p : Position) :
    advanceBy n ⟨passed, [], p⟩ = ⟨passed, [], p⟩ := by
  cases n <;> simp [advanceBy]

theorem rest_advanceBy (n : Nat) (c : Cursor) : (c.advanceBy n).rest = c.rest.drop n := by
  induction n generalizing c with
  | zero => simp
  | succ n ih =>
    obtain ⟨passed, rest, p⟩ := c
    cases rest with
    | nil => simp
    | cons b rest => simp [advanceBy, ih]

@[simp] theorem rest_toEnd (c : Cursor) : c.toEnd.rest = [] := by
  rw [toEnd, rest_advanceBy, List.drop_length]

theorem advanceBy_add (m n : Nat) (c : Cursor) :
    c.advanceBy (m + n) = (c.advanceBy m).advanceBy n := by
  induction m generalizing c with
  | zero => simp
  | succ m ih =>
    obtain ⟨passed, rest, p⟩ := c
    cases rest with
    | nil => simp
    | cons b rest => simp [Nat.succ_add, advanceBy, ih]

/-- `d` is `c` after some more bytes. -/
def Reaches (c d : Cursor) : Prop := ∃ n, d = c.advanceBy n

namespace Reaches

theorem refl (c : Cursor) : Reaches c c := ⟨0, by simp⟩

theorem trans {c d e : Cursor} : Reaches c d → Reaches d e → Reaches c e
  | ⟨m, hm⟩, ⟨n, hn⟩ => ⟨m + n, by rw [advanceBy_add, ← hm, hn]⟩

theorem advanceBy (c : Cursor) (n : Nat) : Reaches c (c.advanceBy n) := ⟨n, rfl⟩

theorem advance (c : Cursor) : Reaches c c.advance := ⟨1, rfl⟩

theorem skipSpace (c : Cursor) : Reaches c c.skipSpace := ⟨_, rfl⟩

theorem length_le {c d : Cursor} : Reaches c d → d.rest.length ≤ c.rest.length
  | ⟨n, h⟩ => by rw [h, rest_advanceBy, List.length_drop]; omega

end Reaches

theorem length_advanceBy_lt {c : Cursor} {n : Nat} (hn : 0 < n) (hc : c.rest ≠ []) :
    (c.advanceBy n).rest.length < c.rest.length := by
  have := List.length_pos_iff.2 hc
  rw [rest_advanceBy, List.length_drop]
  omega

theorem of_consume? {c d : Cursor} {b : UInt8} (h : c.consume? b = some d) :
    Reaches c d ∧ d.rest.length < c.rest.length := by
  simp only [consume?] at h
  split at h
  · rename_i hb
    cases h
    refine ⟨.advance c, length_advanceBy_lt (by omega) ?_⟩
    rintro hr
    simp [current?, hr] at hb
  · cases h

end Cursor
end RouteNotation.Xml
