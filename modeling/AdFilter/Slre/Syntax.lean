import AdFilter.Lib.Regex
import AdFilter.Slre.Steps

/-!
# Patterns without groups

The patterns that `slre` reads as they are meant: alternatives of pieces, a piece one
character or a set under at most one quantifier. A pattern has its text, and its meaning
is a regular expression over the bytes of the subject.

A backslash in a set takes the next byte with it, and a dot there is still any byte. A
hyphen that is not a range stands first, last, or after a range or an escape.
-/

namespace AdFilter.Slre.Syntax

open AdFilter.Lib
open AdFilter.Lib.Regex (Re Spans concat union)
open AdFilter.Slre.Match
open AdFilter.Slre.Steps (inRange)

/-- The bytes that a backslash makes literal. -/
def isQuotable (b : UInt8) : Bool := ("^$().[]*+?|\\".toList.map byte).contains b

/-- The bytes that stand for themselves outside a set. -/
def isLiteral (b : UInt8) : Bool := b != 0 && !("^$().[*+?|\\".toList.map byte).contains b

/-- The bytes that may stand in a set without a backslash. -/
def isMember (b : UInt8) : Bool := b != 0 && b != byte ']' && b != byte '\\'

structure HexDigit where
  value : UInt8
  ok : isXDigit value = true

inductive Escape where
  | notSpace | space | digit
  | backspace | formFeed | newline | carriageReturn | tab | verticalTab
  | hex (a b : HexDigit)
  | quoted (b : UInt8) (ok : isQuotable b = true)

def Escape.tail : Escape → List UInt8
  | .notSpace => [byte 'S']
  | .space => [byte 's']
  | .digit => [byte 'd']
  | .backspace => [byte 'b']
  | .formFeed => [byte 'f']
  | .newline => [byte 'n']
  | .carriageReturn => [byte 'r']
  | .tab => [byte 't']
  | .verticalTab => [byte 'v']
  | .hex a b => [byte 'x', a.value, b.value]
  | .quoted b _ => [b]

def Escape.text (e : Escape) : List UInt8 := byte '\\' :: e.tail

def hexValue (b : UInt8) : Nat := (toi (toLower b)).toNat

def Escape.holds : Escape → UInt8 → Bool
  | .notSpace, c => !isSpace c
  | .space, c => isSpace c
  | .digit, c => isDigit c
  | .backspace, c => c == 8
  | .formFeed, c => c == 12
  | .newline, c => c == 10
  | .carriageReturn, c => c == 13
  | .tab, c => c == 9
  | .verticalTab, c => c == 11
  | .hex a b, c => 16 * hexValue a.value + hexValue b.value == c.toNat
  | .quoted b _, c => b == c

section Meaning

variable (ignoreCase : Bool)

def sameChar (b c : UInt8) : Bool := if ignoreCase then toLower b == toLower c else b == c

inductive Op where
  | literal (b : UInt8) (ok : isLiteral b = true)
  | any
  | escape (e : Escape)

def Op.text : Op → List UInt8
  | .literal b _ => [b]
  | .any => [byte '.']
  | .escape e => e.text

def Op.holds : Op → UInt8 → Bool
  | .literal b _, c => sameChar ignoreCase b c
  | .any, _ => true
  | .escape e, c => e.holds c

inductive Member where
  | range (lo hi : UInt8)
  | char (b : UInt8)
  | escape (e : Escape)

def Member.text : Member → List UInt8
  | .range lo hi => [lo, byte '-', hi]
  | .char b => [b]
  | .escape e => e.text

def Member.holds : Member → UInt8 → Bool
  | .range lo hi, c => inRange ignoreCase lo hi c
  | .char b, c =>
      b == byte '.' || (b != byte '$' && b != byte '|' && sameChar ignoreCase b c)
  | .escape e, c => e.holds c

def membersText (ms : List Member) : List UInt8 := ms.flatMap Member.text

/-- The members are read one by one as they are written. -/
def membersOk : List Member → Bool
  | [] => true
  | .range lo hi :: ms => lo != byte '-' && isMember lo && isMember hi && membersOk ms
  | .char b :: ms =>
      isMember b && (b == byte '-' || (membersText ms).head? != some (byte '-') ||
        (membersText ms).length == 1) && membersOk ms
  | .escape _ :: ms => membersOk ms

structure CharSet where
  invert : Bool
  members : List Member
  ok : membersOk members = true
  head : invert = true ∨ (membersText members).head? ≠ some (byte '^')

/-- The text of a set after its opening bracket. -/
def CharSet.body (c : CharSet) : List UInt8 :=
  (if c.invert then [byte '^'] else []) ++ (membersText c.members ++ [byte ']'])

def CharSet.holds (c : CharSet) (b : UInt8) : Bool :=
  c.members.any (fun m => m.holds ignoreCase b) != c.invert

inductive Atom where
  | op (o : Op)
  | set (c : CharSet)

def Atom.text : Atom → List UInt8
  | .op o => o.text
  | .set c => byte '[' :: c.body

def Atom.isSet : Atom → Bool
  | .op _ => false
  | .set _ => true

def Atom.holds : Atom → UInt8 → Bool
  | .op o => o.holds ignoreCase
  | .set c => c.holds ignoreCase

inductive Quantifier where
  | once
  | opt
  | star (isLazy : Bool)
  | plus (isLazy : Bool)

def lazyText (isLazy : Bool) : List UInt8 := if isLazy then [byte '?'] else []

def Quantifier.text : Quantifier → List UInt8
  | .once => []
  | .opt => [byte '?']
  | .star isLazy => byte '*' :: lazyText isLazy
  | .plus isLazy => byte '+' :: lazyText isLazy

def Quantifier.apply : Quantifier → Re UInt8 → Re UInt8
  | .once, r => r
  | .opt, r => Regex.opt r
  | .star _, r => Re.star r
  | .plus _, r => Regex.plus r

inductive Item where
  | piece (a : Atom) (q : Quantifier)
  | dollar

def Item.text : Item → List UInt8
  | .piece a q => a.text ++ q.text
  | .dollar => [byte '$']

/-- A piece that the matcher can try in every way it may match. -/
def Item.isExact : Item → Bool
  | .piece _ .opt => false
  | .piece a _ => !a.isSet
  | .dollar => true

def Item.re : Item → Re UInt8
  | .piece a q => q.apply (.test (a.holds ignoreCase))
  | .dollar => .atEnd

def itemsText (its : List Item) : List UInt8 := its.flatMap Item.text

def itemsRe (its : List Item) : Re UInt8 := concat (its.map (Item.re ignoreCase))

/-- A pattern. A caret in front of it holds for all its branches. -/
structure Pattern where
  anchored : Bool
  first : List Item
  others : List (List Item)

def Pattern.branchTexts (p : Pattern) : List UInt8 × List (List UInt8) :=
  ((if p.anchored then [byte '^'] else []) ++ itemsText p.first, p.others.map itemsText)

/-- Texts with a bar before each. -/
def barred (ts : List (List UInt8)) : List UInt8 := ts.flatMap fun t => byte '|' :: t

def Pattern.text (p : Pattern) : List UInt8 := p.branchTexts.1 ++ barred p.branchTexts.2

def Pattern.re (p : Pattern) : Re UInt8 := union ((p.first :: p.others).map (itemsRe ignoreCase))

/-- A match may start at offset `i`. -/
def Pattern.MayStartAt (p : Pattern) (s : List UInt8) (i : Nat) : Prop :=
  i ≤ s.length ∧ (p.anchored = true → i = 0)

/-- The pattern matches a part of the subject that ends at offset `n`. -/
def Pattern.MatchesTo (p : Pattern) (s : List UInt8) (n : Nat) : Prop :=
  ∃ i, p.MayStartAt s i ∧ Spans s (p.re ignoreCase) i n

end Meaning

end AdFilter.Slre.Syntax
