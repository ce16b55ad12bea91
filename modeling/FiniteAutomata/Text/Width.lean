import FiniteAutomata.Text.Ligature

/-!
How many columns a text takes on a terminal. Most characters take their own columns, but the parts
of an emoji sequence and of a ligature share theirs. A text is measured from its end, because what
a character takes depends on what follows it.
-/

namespace FiniteAutomata.Text

inductive Selector where
  | text
  | emoji
  deriving DecidableEq

/-- What stands after a character, as far as the two can share columns. -/
inductive Following where
  | plain
  | ligature (read : Ligature) (selector : Option Selector)
  | selector (selector : Selector)
  | emoji
  | tone
  /-- Letters of flags. `joined` says that a joiner and an emoji follow them. -/
  | flagLetters (joined : Bool) (count : Nat)
  /-- A joiner and an emoji. -/
  | joinedEmoji
  /-- An emoji selector, a joiner and an emoji. -/
  | joinedSelector
  /-- A keycap mark, a joiner and an emoji. -/
  | joinedKeycap
  /-- An emoji selector, a keycap mark, a joiner and an emoji. -/
  | joinedKeycapSelector
  /-- Tags with their end, a joiner and an emoji. Digits stand before letters. -/
  | joinedTags (letters digits : Nat)
  deriving DecidableEq

namespace Following

def asksForEmoji : Following → Bool
  | .selector .emoji | .ligature _ (some .emoji) | .joinedSelector | .joinedKeycapSelector => true
  | _ => false

def asksForText : Following → Bool
  | .selector .text | .ligature _ (some .text) => true
  | _ => false

/-- The columns that a character adds as an emoji. -/
def emojiColumns : Following → Int
  | .joinedSelector | .joinedKeycapSelector => 0
  | _ => 2

/-- What stands after a character that the selector there does not apply to. -/
def dropSelector : Following → Following
  | .ligature l _ => .ligature l none
  | .selector _ | .joinedSelector | .joinedKeycapSelector => .plain
  | f => f

def select (s : Selector) : Following → Following
  | .ligature l _ => .ligature l (some s)
  | .joinedEmoji => if s = .emoji then .joinedSelector else .selector s
  | .joinedKeycap => if s = .emoji then .joinedKeycapSelector else .selector s
  | _ => .selector s

/-- Every two letters are a flag, from the first one on. A flag that an emoji is joined to shares
its columns, a single letter does not. -/
def flagColumns (joined : Bool) (count : Nat) : Nat :=
  if joined && count % 2 = 0 then count - 2 else count

/-- Tags name a region by three digits and up to four letters, or by three to six letters. -/
def isRegion (letters digits : Nat) : Bool := digits = 3 || digits = 0 && 3 ≤ letters

/-- Puts a character in front that is shown as one with what follows it: the columns that this
adds, and what then stands there. -/
def join? (c : Char) : Following → Option (Int × Following)
  | .ligature l _ => (l.extend? c).map fun (n, rest) =>
    (n, match rest with | some l => .ligature l none | none => .plain)
  | .emoji => if c = zeroWidthJoiner then some (0, .joinedEmoji) else none
  | .tone =>
    if takesTone c then some (0, .emoji)
    else if c = zeroWidthJoiner then some (0, .joinedEmoji)
    else none
  | .flagLetters joined n =>
    if isFlagLetter c then
      some (flagColumns joined (n + 1) - flagColumns joined n, .flagLetters joined (n + 1))
    else if c = zeroWidthJoiner && 2 ≤ n then some (0, .joinedEmoji)
    else none
  | .joinedEmoji =>
    if isEmoji c then some (0, .emoji)
    else if isTone c then some (0, .tone)
    else if isFlagLetter c then some (1, .flagLetters true 1)
    else if c = keycapMark then some (0, .joinedKeycap)
    else if isTagEnd c then some (0, .joinedTags 0 0)
    else none
  | .joinedTags letters digits =>
    if isTagLetter c && digits = 0 && letters < 6 then some (0, .joinedTags (letters + 1) 0)
    else if isTagDigit c && letters ≤ 4 && digits < 3 then
      some (0, .joinedTags letters (digits + 1))
    else if isTaggedFlag c && isRegion letters digits then some (0, .emoji)
    else none
  | _ => none

/-- What stands at a character that shares no columns with what follows it. -/
def ofChar (c : Char) : Following :=
  if c.toNat < 0x300 then .plain
  else if isEmoji c then .emoji
  else if isTone c then .tone
  else if isFlagLetter c then .flagLetters false 1
  else match Ligature.ofLast? c with
    | some l => .ligature l none
    | none => .plain

/-- Puts a character in front: the columns that it adds, and what then stands there. -/
def before (c : Char) (f : Following) : Int × Following :=
  if f.asksForEmoji && isSelectable c then (f.emojiColumns, .emoji)
  else if f.asksForText && isNarrowAsText c then (1, .plain)
  else if c = emojiSelector then (0, f.dropSelector.select .emoji)
  else if c = textSelector then (0, f.dropSelector.select .text)
  else (f.dropSelector.join? c).getD (charWidth c, ofChar c)

end Following

/-- The columns of a text, and what stands at its start. -/
def scan (text : List Char) : Int × Following :=
  text.foldr (fun c (n, f) => (n + (f.before c).1, (f.before c).2)) (0, .plain)

def width (text : String) : Nat := (scan text.toList).1.toNat

end FiniteAutomata.Text
