import Mathlib.Data.BitVec

/-!
The texts of RFC 8259 as byte strings, with the trees they spell. Strings are
sequences of Unicode scalar values, written as UTF-8 or with escapes, and stand in
the tree as the UTF-8 bytes of their characters; numbers stand as they are spelled.

A tree keeps all members of an object. What it denotes has each key once, with the
last value given for it at the place of the first.
-/

namespace Sengoo.Json

abbrev Bytes := List UInt8

/-- The byte of an ASCII character. -/
def byte (c : Char) : UInt8 := UInt8.ofNat c.toNat

def ascii (text : String) : Bytes := text.toList.map byte

def quote : UInt8 := 0x22

def backslash : UInt8 := 0x5c

def openBrace : UInt8 := 0x7b

def closeBrace : UInt8 := 0x7d

inductive Tree where
  | null
  | bool (value : Bool)
  | number (text : Bytes)
  | string (value : Bytes)
  | array (items : List Tree)
  | object (members : List (Bytes × Tree))

section Measures

mutual

/-- How many levels of values there are below and including this one. -/
def Tree.depth : Tree → Nat
  | .array items => itemsDepth items + 1
  | .object members => membersDepth members + 1
  | _ => 1

def itemsDepth : List Tree → Nat
  | [] => 0
  | item :: items => max item.depth (itemsDepth items)

def membersDepth : List (Bytes × Tree) → Nat
  | [] => 0
  | (_, value) :: members => max value.depth (membersDepth members)

end

mutual

/-- How many values the tree has. -/
def Tree.count : Tree → Nat
  | .array items => itemsCount items + 1
  | .object members => membersCount members + 1
  | _ => 1

def itemsCount : List Tree → Nat
  | [] => 0
  | item :: items => item.count + itemsCount items

def membersCount : List (Bytes × Tree) → Nat
  | [] => 0
  | (_, value) :: members => value.count + membersCount members

end

end Measures

section Members

variable {κ ν μ : Type} [DecidableEq κ]

/-- The value of a key replaced where it stands, or the key added behind the others. -/
def setMember (key : κ) (value : ν) : List (κ × ν) → List (κ × ν)
  | [] => [(key, value)]
  | (other, old) :: rest =>
    if other = key then (other, value) :: rest else (other, old) :: setMember key value rest

/-- Each key once: the last value at the place of the first. -/
def collapse (members : List (κ × ν)) : List (κ × ν) :=
  members.foldl (fun kept member => setMember member.1 member.2 kept) []

end Members

mutual

/-- What a tree denotes: the keys of its objects made unique. -/
def Tree.denote : Tree → Tree
  | .array items => .array (denoteItems items)
  | .object members => .object (collapse (denoteMembers members))
  | .null => .null
  | .bool value => .bool value
  | .number text => .number text
  | .string value => .string value

def denoteItems : List Tree → List Tree
  | [] => []
  | item :: items => item.denote :: denoteItems items

def denoteMembers : List (Bytes × Tree) → List (Bytes × Tree)
  | [] => []
  | (key, value) :: members => (key, value.denote) :: denoteMembers members

end

section Lexical

def isSpace (b : UInt8) : Bool := b == byte ' ' || b == byte '\n' || b == byte '\r' || b == byte '\t'

def isDigit (b : UInt8) : Bool := decide (byte '0' ≤ b) && decide (b ≤ byte '9')

def Space (w : Bytes) : Prop := ∀ b ∈ w, isSpace b = true

def Digits (t : Bytes) : Prop := t ≠ [] ∧ ∀ b ∈ t, isDigit b = true

inductive IntegerText : Bytes → Prop
  | zero : IntegerText [byte '0']
  | nonzero {d : UInt8} {ds : Bytes} (hd : isDigit d = true) (hne : d ≠ byte '0')
      (hds : ∀ b ∈ ds, isDigit b = true) : IntegerText (d :: ds)

inductive FractionText : Bytes → Prop
  | none : FractionText []
  | some {ds : Bytes} (hds : Digits ds) : FractionText (byte '.' :: ds)

inductive ExponentText : Bytes → Prop
  | none : ExponentText []
  | some {e : UInt8} {sign ds : Bytes} (he : e = byte 'e' ∨ e = byte 'E')
      (hsign : sign = [] ∨ sign = [byte '+'] ∨ sign = [byte '-']) (hds : Digits ds) :
      ExponentText (e :: (sign ++ ds))

inductive NumberText : Bytes → Prop
  | mk {minus integer fraction exponent : Bytes} (hminus : minus = [] ∨ minus = [byte '-'])
      (hinteger : IntegerText integer) (hfraction : FractionText fraction)
      (hexponent : ExponentText exponent) :
      NumberText (minus ++ (integer ++ (fraction ++ exponent)))

def hexDigit (b : UInt8) : Option Nat :=
  if byte '0' ≤ b ∧ b ≤ byte '9' then some (b.toNat - 0x30)
  else if byte 'a' ≤ b ∧ b ≤ byte 'f' then some (b.toNat - 0x61 + 10)
  else if byte 'A' ≤ b ∧ b ≤ byte 'F' then some (b.toNat - 0x41 + 10)
  else none

/-- Four hexadecimal digits and the number they spell. -/
inductive HexText : Bytes → Nat → Prop
  | mk {a b c d : UInt8} {ha hb hc hd : Nat} (h₁ : hexDigit a = some ha)
      (h₂ : hexDigit b = some hb) (h₃ : hexDigit c = some hc) (h₄ : hexDigit d = some hd) :
      HexText [a, b, c, d] (((ha * 16 + hb) * 16 + hc) * 16 + hd)

/-- The escapes of one letter. -/
def simpleEscape (b : UInt8) : Option Char :=
  if b = quote then some (Char.ofNat 0x22)
  else if b = backslash then some (Char.ofNat 0x5c)
  else if b = byte '/' then some '/'
  else if b = byte 'b' then some (Char.ofNat 8)
  else if b = byte 'f' then some (Char.ofNat 12)
  else if b = byte 'n' then some '\n'
  else if b = byte 'r' then some '\r'
  else if b = byte 't' then some '\t'
  else none

/-- A character that stands for itself. -/
def Plain (c : Char) : Prop := 0x20 ≤ c.toNat ∧ c.toNat ≠ 0x22 ∧ c.toNat ≠ 0x5c

def HighSurrogate (code : Nat) : Prop := 0xd800 ≤ code ∧ code ≤ 0xdbff

def LowSurrogate (code : Nat) : Prop := 0xdc00 ≤ code ∧ code ≤ 0xdfff

/-- The scalar value of a surrogate pair. -/
def pairCode (high low : Nat) : Nat := 0x10000 + (high - 0xd800) * 0x400 + (low - 0xdc00)

/-- One character inside a string literal: itself, an escape, or a surrogate pair. -/
inductive CharText : Bytes → Char → Prop
  | plain {c : Char} (hplain : Plain c) : CharText (String.utf8EncodeChar c) c
  | escape {e : UInt8} {c : Char} (he : simpleEscape e = some c) : CharText [backslash, e] c
  | unicode {digits : Bytes} {code : Nat} (hdigits : HexText digits code)
      (hhigh : ¬ HighSurrogate code) (hlow : ¬ LowSurrogate code) :
      CharText (backslash :: byte 'u' :: digits) (Char.ofNat code)
  | pair {digits digits' : Bytes} {high low : Nat} (hdigits : HexText digits high)
      (hhigh : HighSurrogate high) (hdigits' : HexText digits' low) (hlow : LowSurrogate low) :
      CharText (backslash :: byte 'u' :: (digits ++ backslash :: byte 'u' :: digits'))
        (Char.ofNat (pairCode high low))

/-- The inside of a string literal and the characters it spells. -/
inductive CharsText : Bytes → List Char → Prop
  | nil : CharsText [] []
  | cons {t rest : Bytes} {c : Char} {cs : List Char} (ht : CharText t c)
      (hrest : CharsText rest cs) : CharsText (t ++ rest) (c :: cs)

def utf8 (cs : List Char) : Bytes := cs.flatMap String.utf8EncodeChar

inductive StringText : Bytes → Bytes → Prop
  | mk {body : Bytes} {cs : List Char} (hbody : CharsText body cs) :
      StringText (quote :: (body ++ [quote])) (utf8 cs)

end Lexical

mutual

inductive ValueText : Bytes → Tree → Prop
  | null : ValueText (ascii "null") .null
  | true : ValueText (ascii "true") (.bool true)
  | false : ValueText (ascii "false") (.bool false)
  | number {t : Bytes} (ht : NumberText t) : ValueText t (.number t)
  | string {t value : Bytes} (ht : StringText t value) : ValueText t (.string value)
  | emptyArray {w : Bytes} (hw : Space w) : ValueText (byte '[' :: (w ++ [byte ']'])) (.array [])
  | array {t : Bytes} {items : List Tree} (ht : ItemsText t items) :
      ValueText (byte '[' :: (t ++ [byte ']'])) (.array items)
  | emptyObject {w : Bytes} (hw : Space w) : ValueText (openBrace :: (w ++ [closeBrace])) (.object [])
  | object {t : Bytes} {members : List (Bytes × Tree)} (ht : MembersText t members) :
      ValueText (openBrace :: (t ++ [closeBrace])) (.object members)

/-- Values separated by commas, at least one. -/
inductive ItemsText : Bytes → List Tree → Prop
  | last {w t w' : Bytes} {v : Tree} (hw : Space w) (ht : ValueText t v) (hw' : Space w') :
      ItemsText (w ++ (t ++ w')) [v]
  | more {w t w' rest : Bytes} {v : Tree} {items : List Tree} (hw : Space w) (ht : ValueText t v)
      (hw' : Space w') (hrest : ItemsText rest items) :
      ItemsText (w ++ (t ++ (w' ++ byte ',' :: rest))) (v :: items)

/-- Members separated by commas, at least one. -/
inductive MembersText : Bytes → List (Bytes × Tree) → Prop
  | last {w k w₁ w₂ t w' key : Bytes} {v : Tree} (hw : Space w) (hk : StringText k key)
      (hw₁ : Space w₁) (hw₂ : Space w₂) (ht : ValueText t v) (hw' : Space w') :
      MembersText (w ++ (k ++ (w₁ ++ byte ':' :: (w₂ ++ (t ++ w'))))) [(key, v)]
  | more {w k w₁ w₂ t w' key rest : Bytes} {v : Tree} {members : List (Bytes × Tree)}
      (hw : Space w) (hk : StringText k key) (hw₁ : Space w₁) (hw₂ : Space w₂)
      (ht : ValueText t v) (hw' : Space w') (hrest : MembersText rest members) :
      MembersText (w ++ (k ++ (w₁ ++ byte ':' :: (w₂ ++ (t ++ (w' ++ byte ',' :: rest))))))
        ((key, v) :: members)

end

/-- A whole text: one value with space around it. -/
inductive DocumentText : Bytes → Tree → Prop
  | mk {w t w' : Bytes} {v : Tree} (hw : Space w) (ht : ValueText t v) (hw' : Space w') :
      DocumentText (w ++ (t ++ w')) v

end Sengoo.Json
