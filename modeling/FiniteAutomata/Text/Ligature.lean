import FiniteAutomata.Text.Emoji

/-!
Letters that are shown as one and share their columns. A text is read from its end, so a ligature
is known by its last letter first.
-/

namespace FiniteAutomata.Text

def lamRanges : List (Nat × Nat) :=
  [(0x644, 0x644), (0x6B5, 0x6B8), (0x76A, 0x76A), (0x8A6, 0x8A6), (0x8C7, 0x8C7)]

def alefRanges : List (Nat × Nat) :=
  [(0x622, 0x623), (0x625, 0x625), (0x627, 0x627), (0x671, 0x673), (0x675, 0x675), (0x773, 0x774),
   (0x870, 0x882)]

/-- Characters without a column that keep the Arabic letters around them apart. -/
def separatingRanges : List (Nat × Nat) :=
  [(0x605, 0x605), (0x890, 0x891), (0x8E2, 0x8E2), (0x9BE, 0x9BE), (0x9D7, 0x9D7), (0xB3E, 0xB3E),
   (0xB57, 0xB57), (0xBBE, 0xBBE), (0xBD7, 0xBD7), (0xCC0, 0xCC0), (0xCC2, 0xCC2), (0xCC7, 0xCC8),
   (0xCCA, 0xCCB), (0xCD5, 0xCD6), (0xD3E, 0xD3E), (0xD4E, 0xD4E), (0xD57, 0xD57), (0xDCF, 0xDCF),
   (0xDDF, 0xDDF), (0x1160, 0x11FF), (0x180E, 0x180E), (0x1B35, 0x1B35), (0x1B3B, 0x1B3B),
   (0x1B3D, 0x1B3D), (0x1B43, 0x1B43), (0x200C, 0x200D), (0x2065, 0x2069), (0x302E, 0x302F),
   (0x3164, 0x3164), (0xA8FA, 0xA8FA), (0xD7B0, 0xD7C6), (0xD7CB, 0xD7FB), (0xFF9E, 0xFFA0),
   (0xFFF0, 0xFFF8), (0x111C2, 0x111C3), (0x1133E, 0x1133E), (0x11357, 0x11357),
   (0x114B0, 0x114B0), (0x114BD, 0x114BD), (0x115AF, 0x115AF), (0x11930, 0x11930),
   (0x1193F, 0x1193F), (0x11941, 0x11941), (0x11A3A, 0x11A3A), (0x11A84, 0x11A89),
   (0x11D46, 0x11D46), (0x11F02, 0x11F02), (0x1D165, 0x1D165), (0x1D16E, 0x1D172),
   (0xE0000, 0xE0000), (0xE0002, 0xE001F), (0xE0080, 0xE00FF), (0xE01F0, 0xE0FFF)]

/-- Invisible marks: they do not keep the letters of other scripts apart. -/
def invisibleMarkRanges : List (Nat × Nat) :=
  [(0x34F, 0x34F), (0x17B4, 0x17B5), (0x180B, 0x180D), (0x180F, 0x180F), (0xFE00, 0xFE0F),
   (0xE0100, 0xE01EF)]

/-- Khmer letters that have a form below the line. -/
def subscriptRanges : List (Nat × Nat) :=
  [(0x1780, 0x1782), (0x1784, 0x1787), (0x1789, 0x178C), (0x178E, 0x1793), (0x1795, 0x1798),
   (0x179B, 0x179D), (0x17A0, 0x17A0), (0x17A2, 0x17A2), (0x17A7, 0x17A7), (0x17AB, 0x17AC),
   (0x17AF, 0x17AF)]

/-- Marks on an Arabic letter, which do not keep it from joining the next one. -/
def isJoinedAcross (c : Char) : Bool := isZeroWidth c && !inRanges separatingRanges c

def isTifinaghConsonant (c : Char) : Bool :=
  0x2D31 ≤ c.toNat && c.toNat ≤ 0x2D65 || c = '\u2D6F'

/-- What has been read of a ligature. `joined` says that a joiner stands before the letter. -/
inductive Ligature where
  /-- The alef of Arabic lam and alef. -/
  | alef
  /-- The lamed of Hebrew alef and lamed. -/
  | lamed (joined : Bool)
  /-- The ya of Buginese a, i and ya. -/
  | ya (joined : Bool)
  /-- The i, the joiner and the ya. -/
  | vowelSign
  /-- The second of two Tifinagh consonants. -/
  | consonant (joined : Bool)
  /-- The sign that joins two Tifinagh consonants, and the second. -/
  | joinedConsonant
  /-- The second of two Lisu tones. -/
  | tone
  /-- The i of Old Turkic ech and i. -/
  | orkhonI (joined : Bool)
  /-- A Khmer letter that a sign before it puts below the line. -/
  | subscript
  deriving DecidableEq

namespace Ligature

def ofLast? (c : Char) : Option Ligature :=
  if inRanges alefRanges c then some .alef
  else if c = '\u05DC' then some (.lamed false)
  else if inRanges subscriptRanges c then some .subscript
  else if c = '\u1A10' then some (.ya false)
  else if isTifinaghConsonant c then some (.consonant false)
  else if c = '\uA4FC' || c = '\uA4FD' then some .tone
  else if c.toNat = 0x10C03 then some (.orkhonI false)
  else none

def join : Ligature → Ligature
  | .lamed _ => .lamed true
  | .ya _ => .ya true
  | .consonant _ => .consonant true
  | .orkhonI _ => .orkhonI true
  | l => l

/-- Reads a character that stands between the letters. -/
def pass? (c : Char) : Ligature → Option Ligature
  | .alef => if isJoinedAcross c then some .alef else none
  | l =>
    if c = zeroWidthJoiner then some l.join
    else if inRanges invisibleMarkRanges c then some l
    else none

/-- Reads a letter: the columns that it adds, and the ligature unless it is complete. A letter
below the line gives back its column, and two joined consonants that of the sign between them. -/
def take? (c : Char) : Ligature → Option (Int × Option Ligature)
  | .alef => if inRanges lamRanges c then some (0, none) else none
  | .lamed joined => if joined && c = '\u05D0' then some (0, none) else none
  | .ya joined => if joined && c = '\u1A17' then some (0, some .vowelSign) else none
  | .vowelSign => if c = '\u1A15' then some (0, none) else none
  | .consonant joined =>
    if c = '\u2D7F' then some (1, some .joinedConsonant)
    else if joined && isTifinaghConsonant c then some (0, none)
    else none
  | .joinedConsonant => if isTifinaghConsonant c then some (-1, none) else none
  | .tone => if 0xA4F8 ≤ c.toNat && c.toNat ≤ 0xA4FB then some (0, none) else none
  | .orkhonI joined => if joined && c.toNat = 0x10C32 then some (0, none) else none
  | .subscript => if c = '\u17D2' then some (-1, none) else none

def extend? (c : Char) (l : Ligature) : Option (Int × Option Ligature) :=
  match l.pass? c with
  | some l => some (0, some l)
  | none => l.take? c

end Ligature
end FiniteAutomata.Text
