import Netlist.Source.Span

/-!
References that do not belong to the session they are used in. Values made by one session never
give rise to them; values taken from elsewhere may.
-/
namespace Netlist

inductive Misuse where
  /-- No file with this number. -/
  | unknownFile (file : Nat)
  /-- A range that is reversed, reaches past the text or cuts a character. -/
  | badSlice (span : Span)
  /-- No name with this index. -/
  | unknownName (index : Nat)
  /-- Spans of two files have no common cover. -/
  | differentFiles (first second : Span)
  /-- A range that ends before it starts has no length. -/
  | reversed (span : Span)
  /-- The place of this offset needs more than 32 bits. -/
  | farPlace (offset : Nat)
  /-- No line is known for this offset, or its text cannot be cut out. -/
  | noLine (offset : Nat)
  /-- No token at this position. -/
  | noToken (position : Nat)
  deriving DecidableEq

end Netlist
