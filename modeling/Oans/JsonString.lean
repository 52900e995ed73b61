import Mathlib.Tactic

/-!
# JSON strings

A reader of JSON string literals: the quotes, the characters that stand for themselves, and the
escapes, surrogate pairs included. It refuses what the grammar refuses.
-/

namespace JsonString

def hexValue (c : Char) : Option ℕ :=
  if '0' ≤ c ∧ c ≤ '9' then some (c.toNat - '0'.toNat)
  else if 'a' ≤ c ∧ c ≤ 'f' then some (c.toNat - 'a'.toNat + 10)
  else if 'A' ≤ c ∧ c ≤ 'F' then some (c.toNat - 'A'.toNat + 10)
  else none

def codeUnit (a b c d : Char) : Option ℕ := do
  let a ← hexValue a
  let b ← hexValue b
  let c ← hexValue c
  let d ← hexValue d
  some (a * 4096 + b * 256 + c * 16 + d)

def simpleEscape (c : Char) : Option Char :=
  if c = '"' ∨ c = '\\' ∨ c = '/' then some c
  else if c = 'b' then some '\x08'
  else if c = 'f' then some '\x0c'
  else if c = 'n' then some '\n'
  else if c = 'r' then some '\r'
  else if c = 't' then some '\t'
  else none

/-- The text after the opening quote, read up to a closing quote that ends it. -/
def parseBody : List Char → Option (List Char)
  | [] => none
  | c :: rest =>
    if c = '"' then if rest = [] then some [] else none
    else if c = '\\' then
      match rest with
      | 'u' :: a :: b :: c :: d :: rest =>
        match codeUnit a b c d with
        | none => none
        | some unit =>
          if 0xd800 ≤ unit ∧ unit ≤ 0xdbff then
            match rest with
            | '\\' :: 'u' :: a :: b :: c :: d :: rest =>
              match codeUnit a b c d with
              | none => none
              | some low =>
                if 0xdc00 ≤ low ∧ low ≤ 0xdfff then
                  (parseBody rest).map
                    (Char.ofNat (0x10000 + (unit - 0xd800) * 1024 + (low - 0xdc00)) :: ·)
                else none
            | _ => none
          else if 0xdc00 ≤ unit ∧ unit ≤ 0xdfff then none
          else (parseBody rest).map (Char.ofNat unit :: ·)
      | e :: rest =>
        match simpleEscape e with
        | none => none
        | some x => (parseBody rest).map (x :: ·)
      | [] => none
    else if c < ' ' then none
    else (parseBody rest).map (c :: ·)

def parse : List Char → Option (List Char)
  | '"' :: rest => parseBody rest
  | _ => none

theorem parseBody_quote : parseBody ['"'] = some [] := rfl

theorem parseBody_plain {c : Char} (hquote : c ≠ '"') (hslash : c ≠ '\\') (hctrl : ¬ c < ' ')
    (rest : List Char) : parseBody (c :: rest) = (parseBody rest).map (c :: ·) := by
  rw [parseBody.eq_def]
  simp only
  rw [if_neg hquote, if_neg hslash, if_neg hctrl]

theorem parseBody_escaped {c : Char} (hc : c = '"' ∨ c = '\\') (rest : List Char) :
    parseBody ('\\' :: c :: rest) = (parseBody rest).map (c :: ·) := by
  rcases hc with rfl | rfl <;> rfl

theorem parseBody_unicode {a b : Char} {x y : ℕ} (ha : hexValue a = some x)
    (hb : hexValue b = some y) (hlt : x * 16 + y < 256) (rest : List Char) :
    parseBody ('\\' :: 'u' :: '0' :: '0' :: a :: b :: rest) =
      (parseBody rest).map (Char.ofNat (x * 16 + y) :: ·) := by
  have hunit : codeUnit '0' '0' a b = some (x * 16 + y) := by
    have hzero : hexValue '0' = some 0 := rfl
    simp [codeUnit, hzero, ha, hb]
  rw [parseBody.eq_def]
  simp only [hunit]
  rw [if_neg (by decide), if_pos trivial, if_neg (by omega), if_neg (by omega)]

end JsonString
